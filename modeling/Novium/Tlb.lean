import Mathlib.Data.Set.Insert
import Mathlib.Logic.Relation
import Novium.PageTables

namespace Novium
open Storage Relation

theorem bit_of_mask (p : BitVec 8) : (p &&& 1 = 1 ↔ p.getLsbD 0 = true) ∧ (p &&& 2 = 2 ↔ p.getLsbD 1 = true) ∧
    (p &&& 4 = 4 ↔ p.getLsbD 2 = true) := by
  revert p
  decide

theorem perms_bits (pte : PageTableEntry) : pte.perms.getLsbD 0 = pte.read ∧ pte.perms.getLsbD 1 = pte.write ∧
    pte.perms.getLsbD 2 = pte.execute ∧ pte.perms.getLsbD 3 = pte.user := by
  unfold PageTableEntry.perms
  cases pte.read <;> cases pte.write <;> cases pte.execute <;> cases pte.user <;> decide

theorem physical_map (ppn va : Word) : physical (ppn.zeroExtend 64) va = (ppn <<< pageShift) ||| (va &&& 0xFFF) := by
  unfold physical pageOffset
  apply BitVec.eq_of_getLsbD_eq
  intro i small
  simp [pageSize]

namespace MMU
variable {u : MMU}

def Emptied (u : MMU) : Prop := ∀ k, (u.tlb k).valid = false

theorem find_some {vpn asid : DWord} {e : TLBEntry} (found : u.find vpn asid = some e) :
    ∃ k, u.tlb k = e ∧ e.valid = true ∧ e.vpn = vpn ∧ e.asid = asid := by
  have tagged := List.find?_some found
  have listed := List.mem_of_find?_eq_some found
  obtain ⟨k,_,rfl⟩ := List.mem_map.mp listed
  simp only [Bool.and_eq_true,beq_iff_eq] at tagged
  exact ⟨k,rfl,tagged.1.1,tagged.1.2,tagged.2⟩

theorem Emptied.find (emptied : u.Emptied) (vpn asid : DWord) : u.find vpn asid = none := by
  cases found : u.find vpn asid with
  | none => rfl
  | some e =>
    obtain ⟨k,rfl,valid,_⟩ := find_some found
    rw [emptied k] at valid
    cases valid

theorem Emptied.answer {ram : ByteStore} {csr : CSRFile} {va : Word} {isWrite isFetch : Bool}
    {cause : Option PageFaultCause} {t : Translation} (emptied : u.Emptied)
    (ran : u.translate (some ram) (some csr) va isWrite isFetch cause = some t) :
    t.pa = u.slowAddr ram csr va isWrite isFetch := by
  rcases translate_inv ran with ⟨_,⟨found,_⟩ | ⟨_,answer,_⟩⟩
  · rw [emptied.find] at found
    cases found
  · exact answer

end MMU

-- An MMU with what it is attached to, and the flushing still owed: pages whose walk
-- result has changed without a flush, and pages flushed since the last translation.
structure MmuState where
  mmu : MMU
  ram : ByteStore
  csr : CSRFile
  dirty : Set DWord
  flushed : Set DWord

-- The pages whose walk result differs between two memories under some SATP in use.
def ChangedPages (used : Set DWord) (priv : PrivilegeLevel) (ram ram' : ByteStore) : Set DWord :=
  {p | ∃ satp ∈ used, satp ≠ 0 ∧ ∃ va isWrite isFetch, vpnOf va = p ∧ (isWrite && isFetch) = false ∧
    walkAddr ram' satp priv va isWrite isFetch ≠ walkAddr ram satp priv va isWrite isFetch}

inductive MmuMove (used : Set DWord) : MmuState → MmuState → Prop where
  | translate : s.dirty = ∅ →
      s.mmu.translate (some s.ram) (some s.csr) va isWrite isFetch (some d) = some t →
      MmuMove used s {s with mmu := t.mmu,flushed := ∅}
  | writeSatp : satp ∈ used → MmuMove used s {s with csr := s.csr.write csrSatp satp}
  | identityMap (vaBase paBase : Word) (pages : Nat) (perms : BitVec 8) :
      MmuMove used s {s with mmu := s.mmu.identityMap vaBase paBase pages perms}
  | tlbFlush : MmuMove used s {s with mmu := s.mmu.tlbFlush,dirty := ∅,flushed := Set.univ}
  | tlbFlushVa (va : Word) : MmuMove used s {s with
      mmu := s.mmu.tlbFlushVa va,dirty := s.dirty \ {vpnOf va},flushed := insert (vpnOf va) s.flushed}
  | writeRam (ram' : ByteStore) : MmuMove used s {s with
      ram := ram',dirty := s.dirty ∪ (ChangedPages used s.csr.priv s.ram ram' \ s.flushed)}

-- What an entry promises: under the SATP its tag stands for, the tables give every
-- access it has the permission for the same frame.
def Justified (used : Set DWord) (simpleMap : List SimpleMap) (ram : ByteStore) (priv : PrivilegeLevel)
    (e : TLBEntry) : Prop :=
  ∀ satp ∈ used, asidOf satp = e.asid → ∀ va, vpnOf va = e.vpn →
    (satp = 0 → ∃ m, mapOf simpleMap va = some m ∧ e.ppn = m.ppn.zeroExtend 64 ∧ e.perms = m.perms) ∧
    (satp ≠ 0 → ∀ isWrite isFetch, (isWrite && isFetch) = false →
      e.perms &&& needPerms isWrite isFetch = needPerms isWrite isFetch →
      walkAddr ram satp priv va isWrite isFetch = some (physical e.ppn va))

structure TlbSound (used : Set DWord) (priv : PrivilegeLevel) (s : MmuState) : Prop where
  enabled : s.mmu.enabled = true
  privilege : s.csr.priv = priv
  satp : s.csr.satp ∈ used
  unflushed : ∀ k, (s.mmu.tlb k).valid = true → (s.mmu.tlb k).vpn ∉ s.flushed
  justified : ∀ k, (s.mmu.tlb k).valid = true → (s.mmu.tlb k).vpn ∉ s.dirty →
    Justified used s.mmu.simpleMap s.ram priv (s.mmu.tlb k)

section Transparency
variable {used : Set DWord} {priv : PrivilegeLevel} {s s' : MmuState} {simpleMap : List SimpleMap} {ram : ByteStore}
  {va : Word} {e : TLBEntry} {isWrite isFetch : Bool}

theorem bareAddr_entry {m : SimpleMap} (mapped : mapOf simpleMap va = some m) (single : (isWrite && isFetch) = false)
    (usable : m.perms &&& needPerms isWrite isFetch = needPerms isWrite isFetch) :
    bareAddr simpleMap va isWrite isFetch = some (physical (m.ppn.zeroExtend 64) va) := by
  obtain ⟨_,write,execute⟩ := bit_of_mask m.perms
  have granted : ((!isWrite || m.perms.getLsbD 1) && (!isFetch || m.perms.getLsbD 2)) = true := by
    cases isWrite with
    | true =>
      cases isFetch with
      | true => cases single
      | false => simpa using write.mp usable
    | false =>
      cases isFetch with
      | true => simpa using execute.mp usable
      | false => rfl
  simp only [bareAddr,mapped,granted,if_true,physical_map]

theorem walkAddr_entry {satp : DWord} {pte : PageTableEntry} {level : Nat} (leaf : leafOf ram satp va = some (pte,level))
    (user : priv = .user → pte.user = true) (single : (isWrite && isFetch) = false)
    (usable : pte.perms &&& needPerms isWrite isFetch = needPerms isWrite isFetch) :
    walkAddr ram satp priv va isWrite isFetch = some (physical pte.ppn va) := by
  obtain ⟨readMask,writeMask,executeMask⟩ := bit_of_mask pte.perms
  obtain ⟨readBit,writeBit,executeBit,_⟩ := perms_bits pte
  have granted : pte.permits priv isWrite isFetch = true := by
    rw [PageTableEntry.permits_iff]
    refine ⟨?_,?_,?_,user⟩
    · rintro rfl
      have none : isFetch = false := by simpa using single
      subst none
      rw [← writeBit]
      exact writeMask.mp usable
    · rintro rfl
      rw [← executeBit]
      exact executeMask.mp usable
    · rintro rfl rfl
      rw [← readBit]
      exact readMask.mp usable
  simp only [walkAddr,leaf,Option.bind_some,granted,if_true]

theorem leafOf_page {satp : DWord} {vb : Word} (same : vpnOf va = vpnOf vb) : leafOf ram satp va = leafOf ram satp vb :=
  findLeaf_page (page_eq same) _ _

theorem mapOf_page {vb : Word} (same : vpnOf va = vpnOf vb) : mapOf simpleMap va = mapOf simpleMap vb := by
  unfold mapOf
  rw [page_eq same]

theorem fills_justified {u : MMU} {csr : CSRFile} (distinct : ∀ s ∈ used, ∀ t ∈ used, asidOf s = asidOf t → s = t)
    (enabled : u.enabled = true) (current : csr.satp ∈ used) (fills : u.Fills ram csr va e) :
    e.vpn = vpnOf va ∧ Justified used u.simpleMap ram csr.priv e := by
  cases fills with
  | @bare m bare mapped =>
    have zero : csr.satp = 0 := by simpa [enabled] using bare
    refine ⟨rfl,?_⟩
    intro satp inUse tag vb page
    have same : satp = 0 := by
      rw [zero] at current
      exact distinct satp inUse 0 current tag
    refine ⟨fun _ => ⟨m,?_,rfl,rfl⟩,fun nonzero => absurd same nonzero⟩
    rw [mapOf_page page]
    exact mapped
  | @walk pte level walked leaf user =>
    have nonzero : csr.satp ≠ 0 := by simpa [enabled] using walked
    refine ⟨rfl,?_⟩
    intro satp inUse tag vb page
    have same : satp = csr.satp := distinct satp inUse csr.satp current tag
    subst same
    refine ⟨fun zero => absurd zero nonzero,?_⟩
    intro _ isWrite isFetch single usable
    exact walkAddr_entry (by rw [leafOf_page page]; exact leaf) user single usable

theorem justified_answer {u : MMU} {csr : CSRFile} (enabled : u.enabled = true) (current : csr.satp ∈ used)
    (promise : Justified used u.simpleMap ram csr.priv e) (tag : e.asid = asidOf csr.satp) (page : e.vpn = vpnOf va)
    (single : (isWrite && isFetch) = false)
    (usable : e.perms &&& needPerms isWrite isFetch = needPerms isWrite isFetch) :
    u.slowAddr ram csr va isWrite isFetch = some (physical e.ppn va) := by
  obtain ⟨bare,walked⟩ := promise csr.satp current tag.symm va page.symm
  by_cases zero : csr.satp = 0
  · obtain ⟨m,mapped,ppn,perms⟩ := bare zero
    rw [perms] at usable
    rw [ppn]
    simpa [MMU.slowAddr,zero] using bareAddr_entry mapped single usable
  · have mapped : ¬ (!u.enabled || csr.satp = 0) = true := by
      simp only [enabled,Bool.not_true,Bool.false_or,decide_eq_true_eq]
      exact zero
    unfold MMU.slowAddr
    rw [if_neg mapped]
    exact walked zero isWrite isFetch single usable

theorem Justified.identityMap (promise : Justified used simpleMap ram priv e) (more : List SimpleMap) :
    Justified used (simpleMap ++ more) ram priv e := by
  intro satp inUse tag vb page
  obtain ⟨bare,walked⟩ := promise satp inUse tag vb page
  refine ⟨?_,walked⟩
  intro zero
  obtain ⟨m,mapped,same⟩ := bare zero
  refine ⟨m,?_,same⟩
  unfold mapOf at mapped ⊢
  rw [List.find?_append,mapped]
  rfl

theorem Justified.writeRam {ram' : ByteStore} (promise : Justified used simpleMap ram priv e)
    (unchanged : e.vpn ∉ ChangedPages used priv ram ram') : Justified used simpleMap ram' priv e := by
  intro satp inUse tag vb page
  obtain ⟨bare,walked⟩ := promise satp inUse tag vb page
  refine ⟨bare,?_⟩
  intro nonzero isWrite isFetch single usable
  rw [← walked nonzero isWrite isFetch single usable]
  apply Classical.byContradiction
  intro differs
  exact unchanged ⟨satp,inUse,nonzero,vb,isWrite,isFetch,page,single,differs⟩

theorem sound_translate {d : PageFaultCause} {t : Translation}
    (distinct : ∀ s ∈ used, ∀ t ∈ used, asidOf s = asidOf t → s = t) (sound : TlbSound used priv s) (clean : s.dirty = ∅)
    (ran : s.mmu.translate (some s.ram) (some s.csr) va isWrite isFetch (some d) = some t) :
    TlbSound used priv {s with mmu := t.mmu,flushed := ∅} := by
  obtain ⟨kept,effect⟩ := MMU.translate_inv ran
  have old : ∀ k, (s.mmu.tlb k).valid = true → Justified used t.mmu.simpleMap s.ram priv (s.mmu.tlb k) := by
    intro k valid
    rw [kept.2]
    exact sound.justified k valid (by rw [clean]; exact id)
  refine ⟨kept.1.trans sound.enabled,sound.privilege,sound.satp,fun _ _ => id,?_⟩
  intro k valid _
  dsimp only at valid ⊢
  rcases effect with ⟨_,_,_,unchanged⟩ | ⟨_,_,unchanged | ⟨slot,e,updated,fills⟩⟩
  · rw [unchanged] at valid ⊢
    exact old k valid
  · rw [unchanged] at valid ⊢
    exact old k valid
  · rw [updated] at valid ⊢
    by_cases here : k = slot
    · subst here
      rw [Function.update_self,kept.2,← sound.privilege]
      exact (fills_justified distinct sound.enabled sound.satp fills).2
    · rw [Function.update_of_ne here] at valid ⊢
      exact old k valid

theorem sound_step (distinct : ∀ s ∈ used, ∀ t ∈ used, asidOf s = asidOf t → s = t) (sound : TlbSound used priv s)
    (move : MmuMove used s s') : TlbSound used priv s' := by
  cases move with
  | translate clean ran => exact sound_translate distinct sound clean ran
  | writeSatp inUse =>
    rename_i satp
    refine ⟨sound.enabled,?_,?_,sound.unflushed,sound.justified⟩
    · rw [CSRFile.write_priv]
      exact sound.privilege
    · have read : (s.csr.write csrSatp satp).satp = satp := CSRFile.read_write_same _ _ _ (by decide) (by decide)
      rw [read]
      exact inUse
  | identityMap vaBase paBase pages perms =>
    refine ⟨sound.enabled,sound.privilege,sound.satp,sound.unflushed,?_⟩
    intro k valid clean
    exact (sound.justified k valid clean).identityMap _
  | tlbFlush => exact ⟨sound.enabled,sound.privilege,sound.satp,nofun,nofun⟩
  | tlbFlushVa va =>
    have kept : ∀ k, ((s.mmu.tlbFlushVa va).tlb k).valid = true →
        (s.mmu.tlbFlushVa va).tlb k = s.mmu.tlb k ∧ (s.mmu.tlb k).valid = true ∧ (s.mmu.tlb k).vpn ≠ vpnOf va := by
      intro k valid
      simp only [MMU.tlbFlushVa] at valid ⊢
      split at valid
      · cases valid
      · rename_i spared
        rw [if_neg spared]
        refine ⟨rfl,valid,?_⟩
        intro same
        simp [valid,same] at spared
    refine ⟨sound.enabled,sound.privilege,sound.satp,?_,?_⟩
    · intro k valid
      obtain ⟨same,old,apart⟩ := kept k valid
      dsimp only
      rw [same,Set.mem_insert_iff,not_or]
      exact ⟨apart,sound.unflushed k old⟩
    · intro k valid clean
      obtain ⟨same,old,apart⟩ := kept k valid
      dsimp only at clean ⊢
      rw [same] at clean ⊢
      exact sound.justified k old fun dirty => clean ⟨dirty,apart⟩
  | writeRam ram' =>
    refine ⟨sound.enabled,sound.privilege,sound.satp,sound.unflushed,?_⟩
    intro k valid clean
    rw [Set.mem_union,not_or] at clean
    apply (sound.justified k valid clean.1).writeRam
    intro changed
    rw [← sound.privilege] at changed
    exact clean.2 ⟨changed,sound.unflushed k valid⟩

theorem sound_path {start : MmuState} (distinct : ∀ s ∈ used, ∀ t ∈ used, asidOf s = asidOf t → s = t)
    (sound : TlbSound used priv start) (path : ReflTransGen (MmuMove used) start s) : TlbSound used priv s := by
  induction path with
  | refl => exact sound
  | tail _ move ih => exact sound_step distinct ih move

end Transparency

-- From an empty TLB on, whatever is translated, mapped, written and flushed in
-- between, a call for one kind of access answers as an empty TLB would.
theorem tlb_transparent (used : Set DWord) (distinct : ∀ s ∈ used, ∀ t ∈ used, asidOf s = asidOf t → s = t)
    (start s : MmuState) (enabled : start.mmu.enabled = true) (emptied : start.mmu.Emptied) (satp : start.csr.satp ∈ used)
    (path : ReflTransGen (MmuMove used) start s) (clean : s.dirty = ∅) (fresh : MMU) (flushed : fresh.Emptied)
    (sameEnabled : fresh.enabled = s.mmu.enabled) (sameMap : fresh.simpleMap = s.mmu.simpleMap)
    (va : Word) (isWrite isFetch : Bool) (single : (isWrite && isFetch) = false) (d : PageFaultCause) :
    (s.mmu.translate (some s.ram) (some s.csr) va isWrite isFetch (some d)).map Translation.pa =
      (fresh.translate (some s.ram) (some s.csr) va isWrite isFetch (some d)).map Translation.pa := by
  have invalid : ∀ k, ¬ (start.mmu.tlb k).valid = true := by simp [emptied _]
  have sound : TlbSound used start.csr.priv s := sound_path distinct
    ⟨enabled,rfl,satp,fun k valid => absurd valid (invalid k),fun k valid => absurd valid (invalid k)⟩ path
  have same : fresh.slowAddr s.ram s.csr va isWrite isFetch = s.mmu.slowAddr s.ram s.csr va isWrite isFetch := by
    simp only [MMU.slowAddr,sameEnabled,sameMap]
  obtain ⟨t',ran',_⟩ := fresh.translate_total (some s.ram) (some s.csr) va isWrite isFetch d
  obtain ⟨t,ran,effect⟩ := s.mmu.translate_cases s.ram s.csr va isWrite isFetch d
  rw [ran,ran',Option.map_some,Option.map_some,flushed.answer ran',same]
  rcases effect with ⟨found,usable,hit,_⟩ | ⟨_,answer,_⟩
  · obtain ⟨k,rfl,valid,page,tag⟩ := MMU.find_some found
    have promise := sound.justified k valid (by rw [clean]; exact id)
    rw [← sound.privilege] at promise
    rw [hit,justified_answer sound.enabled sound.satp promise tag page single usable]
  · rw [answer]

-- Bare mode with one mapped page, after a first access has filled the TLB.
def bareStart : MmuState := ⟨{MMU.initial with enabled := true},⟨64,fun _ => 0⟩,.initial,∅,∅⟩

def filledBy (perms : BitVec 8) (isFetch : Bool) : Option MmuState :=
  let mapped := bareStart.mmu.identityMap 0 0x1000 1 perms
  (mapped.translate (some bareStart.ram) (some bareStart.csr) 0 false isFetch (some .none)).map
    fun t => {bareStart with mmu := t.mmu}

theorem filledBy_reached {perms : BitVec 8} {isFetch : Bool} {s : MmuState} (filled : filledBy perms isFetch = some s) :
    ReflTransGen (MmuMove {0}) bareStart s ∧ s.dirty = ∅ := by
  unfold filledBy at filled
  obtain ⟨t,ran,rfl⟩ := Option.map_eq_some_iff.mp filled
  have mapped : MmuMove {0} bareStart {bareStart with mmu := bareStart.mmu.identityMap 0 0x1000 1 perms} :=
    .identityMap 0 0x1000 1 perms
  exact ⟨(ReflTransGen.single mapped).tail (.translate rfl ran),rfl⟩

theorem bareStart_tags : ∀ s ∈ ({0} : Set DWord), ∀ t ∈ ({0} : Set DWord), asidOf s = asidOf t → s = t := by
  intro s zero t zero' _
  rw [Set.mem_singleton_iff] at zero zero'
  rw [zero,zero']

theorem tlb_transparent_store : ∃ s, filledBy 7 false = some s ∧ (s.mmu.find 0 0).isSome = true ∧
    (s.mmu.translate (some s.ram) (some s.csr) 0x14 true false (some .none)).map Translation.pa =
      (s.mmu.tlbFlush.translate (some s.ram) (some s.csr) 0x14 true false (some .none)).map Translation.pa := by
  have fills : (filledBy 7 false).any (fun s => (s.mmu.find 0 0).isSome) = true := by decide +kernel
  obtain ⟨s,filled,cached⟩ := (Option.any_eq_true _ _).mp fills
  obtain ⟨path,clean⟩ := filledBy_reached filled
  refine ⟨s,filled,cached,?_⟩
  exact tlb_transparent {0} bareStart_tags bareStart s rfl (fun _ => rfl) (by decide) path clean s.mmu.tlbFlush
    (fun _ => rfl) rfl rfl 0x14 true false rfl .none

-- A call flagged both as a store and as a fetch is checked for X alone by the TLB
-- and for W as well by the tables.
theorem tlb_answers_both_flags :
    ¬ ∀ used : Set DWord, (∀ s ∈ used, ∀ t ∈ used, asidOf s = asidOf t → s = t) → ∀ start s : MmuState,
      start.mmu.enabled = true → start.mmu.Emptied → start.csr.satp ∈ used → ReflTransGen (MmuMove used) start s →
      s.dirty = ∅ → ∀ va isWrite isFetch d,
        (s.mmu.translate (some s.ram) (some s.csr) va isWrite isFetch (some d)).map Translation.pa =
          (s.mmu.tlbFlush.translate (some s.ram) (some s.csr) va isWrite isFetch (some d)).map Translation.pa := by
  intro transparent
  have differs : (filledBy 4 true).any (fun s =>
      (s.mmu.translate (some s.ram) (some s.csr) 0 true true (some .none)).map Translation.pa !=
        (s.mmu.tlbFlush.translate (some s.ram) (some s.csr) 0 true true (some .none)).map Translation.pa) = true := by
    decide +kernel
  obtain ⟨s,filled,apart⟩ := (Option.any_eq_true _ _).mp differs
  obtain ⟨path,clean⟩ := filledBy_reached filled
  exact bne_iff_ne.mp apart
    (transparent {0} bareStart_tags bareStart s rfl (fun _ => rfl) (by decide) path clean 0 true true .none)

end Novium
