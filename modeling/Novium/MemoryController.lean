import Mathlib.Logic.Function.Basic
import Novium.Devices

namespace Novium

structure MemoryAccess where
  addr : Word
  isWrite : Bool

structure MemoryControllerConfig where
  tCas : Word := 16
  tRcd : Word := 16
  tRp : Word := 16
  banks : Word := 16

def openRowCount : Nat := 32

namespace MemoryControllerConfig

def bankOf (cfg : MemoryControllerConfig) (addr : Word) : Word := (addr/64) % cfg.banks

-- Banks share the table's entries from the thirty-third on.
def slotOf (cfg : MemoryControllerConfig) (addr : Word) : Fin openRowCount :=
  ⟨(cfg.bankOf addr).toNat % openRowCount,Nat.mod_lt _ (by decide)⟩

end MemoryControllerConfig

def rowOf (addr : Word) : Word := addr >>> 12

structure MemoryController where
  cfg : MemoryControllerConfig
  rowHits : DWord
  rowMisses : DWord
  openRows : Fin openRowCount → Word

namespace MemoryController

def ofConfig (cfg : MemoryControllerConfig) : MemoryController := ⟨cfg,0,0,fun _ => 0⟩

def reset (mc : MemoryController) : MemoryController := {mc with rowHits := 0,rowMisses := 0,openRows := fun _ => 0xFFFFFFFF}

-- `none` is the remainder by zero banks; whether it writes makes no difference.
def access (mc : MemoryController) (a : MemoryAccess) : Option (Word × MemoryController) :=
  if mc.cfg.banks = 0 then none
  else
    let slot := mc.cfg.slotOf a.addr
    let row := rowOf a.addr
    if mc.openRows slot = row then some (mc.cfg.tCas,{mc with rowHits := mc.rowHits+1})
    else some (mc.cfg.tCas+mc.cfg.tRcd+mc.cfg.tRp,
      {mc with rowMisses := mc.rowMisses+1,openRows := Function.update mc.openRows slot row})

def counted (mc : MemoryController) : List MemoryAccess → Option (List Bool)
  | [] => some []
  | a :: rest => do
    let (_,mc') ← mc.access a
    let later ← mc'.counted rest
    return (mc'.rowHits != mc.rowHits) :: later

end MemoryController

-- What a sequence of accesses shows an observer who remembers the addresses before
-- each one, latest first.
def along {β : Type} (f : List Word → Word → β) (seen : List Word) : List MemoryAccess → List β
  | [] => []
  | a :: rest => f seen a.addr :: along f (a.addr :: seen) rest

def Throughout (holds : List Word → Word → Prop) (seen : List Word) : List MemoryAccess → Prop
  | [] => True
  | a :: rest => holds seen a.addr ∧ Throughout holds (a.addr :: seen) rest

instance decidableThroughout {holds : List Word → Word → Prop} [∀ seen addr, Decidable (holds seen addr)] :
    ∀ seen accesses, Decidable (Throughout holds seen accesses)
  | _,[] => inferInstanceAs (Decidable True)
  | seen,a :: rest =>
    have := @decidableThroughout holds _ (a.addr :: seen) rest
    inferInstanceAs (Decidable (holds seen a.addr ∧ Throughout holds (a.addr :: seen) rest))

theorem along_eq_iff {β : Type} {f g : List Word → Word → β} {seen : List Word} {accesses : List MemoryAccess} :
    along f seen accesses = along g seen accesses ↔ Throughout (fun seen addr => f seen addr = g seen addr) seen accesses := by
  induction accesses generalizing seen with
  | nil => exact ⟨fun _ => trivial,fun _ => rfl⟩
  | cons a rest ih =>
    unfold along Throughout
    rw [List.cons.injEq,ih]

theorem throughout_congr {holds holds' : List Word → Word → Prop} (same : ∀ seen addr, holds seen addr ↔ holds' seen addr)
    (seen : List Word) (accesses : List MemoryAccess) : Throughout holds seen accesses ↔ Throughout holds' seen accesses := by
  induction accesses generalizing seen with
  | nil => exact Iff.rfl
  | cons a rest ih => exact and_congr (same seen a.addr) (ih _)

namespace MemoryControllerConfig
variable (cfg : MemoryControllerConfig)

def rowOpen (seen : List Word) (addr : Word) : Bool :=
  (seen.find? fun earlier => cfg.bankOf earlier == cfg.bankOf addr).any fun earlier => rowOf earlier == rowOf addr

def lastInSlot (seen : List Word) (slot : Fin openRowCount) : Option Word := seen.find? fun earlier => cfg.slotOf earlier == slot

-- What the table holds: the row last accessed through an entry, or what it started with.
def tableRow (start : Word) (seen : List Word) (slot : Fin openRowCount) : Word := ((cfg.lastInSlot seen slot).map rowOf).getD start

def tableHit (start : Word) (seen : List Word) (addr : Word) : Bool := cfg.tableRow start seen (cfg.slotOf addr) == rowOf addr

-- The entry of the address was last used by its own bank, or by another one whose row
-- makes no difference; the first use of an entry is not of the row it started with.
def Undisturbed (start : Word) (seen : List Word) (addr : Word) : Prop :=
  match cfg.lastInSlot seen (cfg.slotOf addr) with
  | none => rowOf addr ≠ start
  | some last => cfg.bankOf last = cfg.bankOf addr ∨ (rowOf last = rowOf addr ↔ cfg.rowOpen seen addr = true)

instance (start : Word) (seen : List Word) (addr : Word) : Decidable (cfg.Undisturbed start seen addr) :=
  match found : cfg.lastInSlot seen (cfg.slotOf addr) with
  | none => decidable_of_iff (rowOf addr ≠ start) (by rw [Undisturbed,found])
  | some last => decidable_of_iff (cfg.bankOf last = cfg.bankOf addr ∨ (rowOf last = rowOf addr ↔ cfg.rowOpen seen addr = true))
      (by rw [Undisturbed,found])

variable {cfg}

theorem tableRow_cons (start addr : Word) (seen : List Word) :
    cfg.tableRow start (addr :: seen) = Function.update (cfg.tableRow start seen) (cfg.slotOf addr) (rowOf addr) := by
  funext slot
  unfold tableRow lastInSlot
  by_cases same : slot = cfg.slotOf addr
  · subst same
    simp
  · rw [Function.update_of_ne same,List.find?_cons_of_neg (by simpa using Ne.symm same)]

theorem slotOf_of_bank {addr other : Word} (same : cfg.bankOf other = cfg.bankOf addr) : cfg.slotOf other = cfg.slotOf addr := by
  apply Fin.ext
  change (cfg.bankOf other).toNat % openRowCount = (cfg.bankOf addr).toNat % openRowCount
  rw [same]

-- Through an entry its own bank used last, the table shows the bank's latest row.
theorem lastInSlot_own {seen : List Word} {addr last : Word} (found : cfg.lastInSlot seen (cfg.slotOf addr) = some last)
    (own : cfg.bankOf last = cfg.bankOf addr) : seen.find? (fun earlier => cfg.bankOf earlier == cfg.bankOf addr) = some last := by
  obtain ⟨_,before,after,rfl,others⟩ := List.find?_eq_some_iff_append.mp found
  rw [List.find?_eq_some_iff_append]
  refine ⟨by simpa using own,before,after,rfl,?_⟩
  intro earlier member
  have elsewhere := others earlier member
  simp only [Bool.not_eq_true',beq_eq_false_iff_ne,ne_eq] at elsewhere ⊢
  exact fun same => elsewhere (slotOf_of_bank same)

theorem lastInSlot_none {seen : List Word} {addr : Word} (unused : cfg.lastInSlot seen (cfg.slotOf addr) = none) :
    cfg.rowOpen seen addr = false := by
  have absent : seen.find? (fun earlier => cfg.bankOf earlier == cfg.bankOf addr) = none := by
    rw [List.find?_eq_none]
    intro earlier member same
    have elsewhere := List.find?_eq_none.mp unused earlier member
    simp only [beq_iff_eq] at same elsewhere
    exact elsewhere (slotOf_of_bank same)
  unfold rowOpen
  rw [absent]
  rfl

theorem tableHit_iff (start : Word) (seen : List Word) (addr : Word) :
    cfg.tableHit start seen addr = cfg.rowOpen seen addr ↔ cfg.Undisturbed start seen addr := by
  unfold tableHit tableRow Undisturbed
  cases found : cfg.lastInSlot seen (cfg.slotOf addr) with
  | none =>
    rw [lastInSlot_none found]
    simp only [Option.map_none,Option.getD_none,beq_eq_false_iff_ne]
    exact ne_comm
  | some last =>
    simp only [Option.map_some,Option.getD_some]
    by_cases own : cfg.bankOf last = cfg.bankOf addr
    · have latest : cfg.rowOpen seen addr = (rowOf last == rowOf addr) := by
        unfold rowOpen
        rw [lastInSlot_own found own]
        rfl
      exact ⟨fun _ => .inl own,fun _ => latest.symm⟩
    · rw [or_iff_right own,Bool.eq_iff_iff,beq_iff_eq]

end MemoryControllerConfig

namespace MemoryController
variable {mc : MemoryController} {start : Word} {seen : List Word}

theorem access_table (table : mc.openRows = mc.cfg.tableRow start seen) (banks : mc.cfg.banks ≠ 0) (a : MemoryAccess) :
    ∃ stall mc', mc.access a = some (stall,mc') ∧ mc'.cfg = mc.cfg ∧ mc'.openRows = mc.cfg.tableRow start (a.addr :: seen) ∧
      (mc'.rowHits != mc.rowHits) = mc.cfg.tableHit start seen a.addr := by
  have moved : mc.rowHits+1 ≠ mc.rowHits := by
    intro same
    simp at same
  unfold access MemoryControllerConfig.tableHit
  rw [if_neg banks,MemoryControllerConfig.tableRow_cons]
  dsimp only
  by_cases hit : mc.openRows (mc.cfg.slotOf a.addr) = rowOf a.addr
  · rw [if_pos hit]
    refine ⟨_,_,rfl,rfl,?_,?_⟩
    · rw [← table,← hit,Function.update_eq_self]
    · rw [← table,hit,beq_self_eq_true]
      exact bne_iff_ne.mpr moved
  · rw [if_neg hit]
    refine ⟨_,_,rfl,rfl,by rw [table],?_⟩
    rw [← table,beq_eq_false_iff_ne.mpr hit]
    exact bne_self_eq_false _

theorem counted_table (table : mc.openRows = mc.cfg.tableRow start seen) (banks : mc.cfg.banks ≠ 0) (accesses : List MemoryAccess) :
    mc.counted accesses = some (along (mc.cfg.tableHit start) seen accesses) := by
  induction accesses generalizing mc seen with
  | nil => rfl
  | cons a rest ih =>
    obtain ⟨stall,mc',answered,cfg,table',hit⟩ := access_table table banks a
    have later := @ih mc' (a.addr :: seen) (by rw [table',cfg]) (by rw [cfg]; exact banks)
    unfold counted along
    rw [answered,← hit,← cfg]
    change (mc'.counted rest).bind _ = _
    rw [later]
    rfl

theorem counted_new {cfg : MemoryControllerConfig} (banks : cfg.banks ≠ 0) (accesses : List MemoryAccess) :
    (ofConfig cfg).counted accesses = some (along (cfg.tableHit 0) [] accesses) := by
  have table : (ofConfig cfg).openRows = (ofConfig cfg).cfg.tableRow 0 [] := rfl
  exact counted_table table banks accesses

theorem counted_reset (banks : mc.cfg.banks ≠ 0) (accesses : List MemoryAccess) :
    mc.reset.counted accesses = some (along (mc.cfg.tableHit 0xFFFFFFFF) [] accesses) := by
  have table : mc.reset.openRows = mc.reset.cfg.tableRow 0xFFFFFFFF [] := rfl
  exact counted_table table banks accesses

end MemoryController

-- No row has the number a reset leaves in the table.
theorem rowOf_ne_max (addr : Word) : rowOf addr ≠ 0xFFFFFFFF := by
  intro same
  have value := congrArg BitVec.toNat same
  have max : (0xFFFFFFFF : Word).toNat = 2^32-1 := rfl
  have small := addr.isLt
  unfold rowOf at value
  rw [BitVec.toNat_ushiftRight,Nat.shiftRight_eq_div_pow,max] at value
  omega

namespace MemoryControllerConfig
variable {cfg : MemoryControllerConfig}

theorem tableHit_new_reset (seen : List Word) (addr : Word) : cfg.tableHit 0 seen addr = cfg.tableHit 0xFFFFFFFF seen addr ↔
    (cfg.lastInSlot seen (cfg.slotOf addr) = none → rowOf addr ≠ 0) := by
  unfold tableHit tableRow
  cases cfg.lastInSlot seen (cfg.slotOf addr) with
  | none =>
    have never : ((0xFFFFFFFF : Word) == rowOf addr) = false := beq_eq_false_iff_ne.mpr (Ne.symm (rowOf_ne_max addr))
    simp only [Option.map_none,Option.getD_none,never,beq_eq_false_iff_ne,forall_const]
    exact ne_comm
  | some last => exact ⟨fun _ unused => (by cases unused),fun _ => rfl⟩

end MemoryControllerConfig

theorem row_hits_real_iff (cfg : MemoryControllerConfig) (banks : 1 ≤ cfg.banks) (accesses : List MemoryAccess) :
    ((MemoryController.ofConfig cfg).counted accesses = some (along cfg.rowOpen [] accesses) ↔
      Throughout (cfg.Undisturbed 0) [] accesses) ∧
    (∀ mc : MemoryController, mc.cfg = cfg → (mc.reset.counted accesses = some (along cfg.rowOpen [] accesses) ↔
      Throughout (cfg.Undisturbed 0xFFFFFFFF) [] accesses)) ∧
    ∀ mc : MemoryController, mc.cfg = cfg → ((MemoryController.ofConfig cfg).counted accesses = mc.reset.counted accesses ↔
      Throughout (fun seen addr => cfg.lastInSlot seen (cfg.slotOf addr) = none → rowOf addr ≠ 0) [] accesses) := by
  have some_bank : cfg.banks ≠ 0 := by
    intro none
    rw [none] at banks
    exact absurd banks (by decide)
  have exact_from : ∀ start, along (cfg.tableHit start) [] accesses = along cfg.rowOpen [] accesses ↔
      Throughout (cfg.Undisturbed start) [] accesses := by
    intro start
    rw [along_eq_iff]
    exact throughout_congr (cfg.tableHit_iff start) [] accesses
  refine ⟨?_,?_,?_⟩
  · rw [MemoryController.counted_new some_bank,Option.some.injEq]
    exact exact_from 0
  · rintro mc rfl
    rw [MemoryController.counted_reset some_bank,Option.some.injEq]
    exact exact_from 0xFFFFFFFF
  · rintro mc rfl
    rw [MemoryController.counted_new some_bank,MemoryController.counted_reset some_bank,Option.some.injEq,along_eq_iff]
    exact throughout_congr MemoryControllerConfig.tableHit_new_reset [] accesses

theorem row_hits_real_two_banks : (MemoryController.ofConfig {banks := 2}).counted
    [⟨0x1000,false⟩,⟨0x2040,true⟩,⟨0x1080,true⟩,⟨0x3000,false⟩,⟨0x1000,false⟩] = some [false,false,true,false,false] := by
  have real := (row_hits_real_iff {banks := 2} (by decide)
    [⟨0x1000,false⟩,⟨0x2040,true⟩,⟨0x1080,true⟩,⟨0x3000,false⟩,⟨0x1000,false⟩]).1.mpr (by decide +kernel)
  exact real

-- The first access a new controller gets, to row zero, finds the table's zero.
theorem row_hit_unopened : ¬ ∀ (cfg : MemoryControllerConfig) (accesses : List MemoryAccess), 1 ≤ cfg.banks →
    (MemoryController.ofConfig cfg).counted accesses = some (along cfg.rowOpen [] accesses) := by
  intro right
  exact absurd (right {} [⟨0,false⟩] (by decide)) (by decide)

end Novium
