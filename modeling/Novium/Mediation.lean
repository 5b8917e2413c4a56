import Novium.RegisterSafety
import Novium.Sv39

namespace Novium
open Storage Effects

section SamePage
variable {va : Word} {j : Nat}

theorem add_within (room : va.toNat % 2^12 + j < 2^12) : (va + BitVec.ofNat 32 j).toNat = va.toNat+j := by
  have bound := va.isLt
  rw [BitVec.toNat_add,BitVec.toNat_ofNat]
  omega

theorem vpnOf_within (room : va.toNat % 2^12 + j < 2^12) : vpnOf (va + BitVec.ofNat 32 j) = vpnOf va := by
  have page : (va + BitVec.ofNat 32 j) >>> pageShift = va >>> pageShift := by
    apply BitVec.eq_of_toNat_eq
    rw [BitVec.toNat_ushiftRight,BitVec.toNat_ushiftRight,add_within room,Nat.shiftRight_eq_div_pow,
      Nat.shiftRight_eq_div_pow,show pageShift = 12 from rfl]
    omega
  simp only [vpnOf,page]

theorem physical_within (ppn : DWord) (room : va.toNat % 2^12 + j < 2^12) :
    physical ppn (va + BitVec.ofNat 32 j) = physical ppn va + BitVec.ofNat 32 j := by
  apply BitVec.eq_of_toNat_eq
  rw [BitVec.toNat_add,physical_toNat,physical_toNat,add_within room,BitVec.toNat_ofNat]
  omega

end SamePage

namespace MMU

def answer (u : MMU) (ram : ByteStore) (csr : CSRFile) (va : Word) (isWrite isFetch : Bool) : Option Word :=
  match u.find (vpnOf va) (asidOf csr.satp) with
  | some e => if e.perms &&& needPerms isWrite isFetch = needPerms isWrite isFetch then some (physical e.ppn va)
      else u.slowAddr ram csr va isWrite isFetch
  | none => u.slowAddr ram csr va isWrite isFetch

theorem translate_answer (u : MMU) (ram : ByteStore) (csr : CSRFile) (va : Word) (isWrite isFetch : Bool)
    (d : PageFaultCause) : ∃ t, u.translate (some ram) (some csr) va isWrite isFetch (some d) = some t ∧
      t.pa = u.answer ram csr va isWrite isFetch := by
  obtain ⟨t,ran,effect⟩ := u.translate_cases ram csr va isWrite isFetch d
  refine ⟨t,ran,?_⟩
  unfold answer
  rcases effect with ⟨found,usable,hit,_⟩ | ⟨missed,slow,_⟩
  · rw [found,hit]
    dsimp only
    rw [if_pos usable]
  · cases found : u.find (vpnOf va) (asidOf csr.satp) with
    | none => exact slow
    | some e =>
      dsimp only
      rw [if_neg (missed e found)]
      exact slow

def Misses (u : MMU) (csr : CSRFile) (va : Word) (isWrite isFetch : Bool) : Prop :=
  ∀ e, u.find (vpnOf va) (asidOf csr.satp) = some e → ¬ e.perms &&& needPerms isWrite isFetch = needPerms isWrite isFetch

-- Where a physical address comes from: a TLB entry with the permission, and failing that
-- the simple map or the address itself in bare mode, the leaf of the walk otherwise.
inductive Source (u : MMU) (ram : ByteStore) (csr : CSRFile) (va : Word) (isWrite isFetch : Bool) : Word → Prop where
  | tlb (e : TLBEntry) : u.find (vpnOf va) (asidOf csr.satp) = some e →
      e.perms &&& needPerms isWrite isFetch = needPerms isWrite isFetch → Source u ram csr va isWrite isFetch (physical e.ppn va)
  | map (entry : SimpleMap) : u.Misses csr va isWrite isFetch →
      (!u.enabled || csr.satp = 0) = true → mapOf u.simpleMap va = some entry →
      ((!isWrite || entry.perms.getLsbD 1) && (!isFetch || entry.perms.getLsbD 2)) = true →
      Source u ram csr va isWrite isFetch (physical (entry.ppn.zeroExtend 64) va)
  | identity : u.Misses csr va isWrite isFetch →
      (!u.enabled || csr.satp = 0) = true → mapOf u.simpleMap va = none → Source u ram csr va isWrite isFetch va
  | leaf (pte : PageTableEntry) (level : Nat) : u.Misses csr va isWrite isFetch →
      (!u.enabled || csr.satp = 0) = false → leafOf ram csr.satp va = some (pte,level) →
      pte.permits csr.priv isWrite isFetch = true → Source u ram csr va isWrite isFetch (physical pte.ppn va)

section Sources
variable {u : MMU} {ram : ByteStore} {csr : CSRFile} {va pa : Word} {isWrite isFetch : Bool}

theorem slowAddr_source (missed : u.Misses csr va isWrite isFetch)
    (found : u.slowAddr ram csr va isWrite isFetch = some pa) : Source u ram csr va isWrite isFetch pa := by
  unfold slowAddr at found
  split at found
  · rename_i bare
    unfold bareAddr at found
    cases mapped : mapOf u.simpleMap va with
    | none =>
      rw [mapped] at found
      cases found
      exact .identity missed bare mapped
    | some entry =>
      rw [mapped] at found
      dsimp only at found
      split at found
      · rename_i permitted
        rw [← physical_map] at found
        cases found
        exact .map entry missed bare mapped permitted
      · cases found
  · rename_i walks
    unfold walkAddr at found
    cases leaf : leafOf ram csr.satp va with
    | none =>
      rw [leaf] at found
      cases found
    | some entry =>
      rw [leaf,Option.bind_some] at found
      split at found
      · rename_i permitted
        cases found
        exact .leaf entry.1 entry.2 missed (by simpa using walks) leaf permitted
      · cases found

theorem answer_source (found : u.answer ram csr va isWrite isFetch = some pa) : Source u ram csr va isWrite isFetch pa := by
  unfold answer at found
  cases hit : u.find (vpnOf va) (asidOf csr.satp) with
  | none =>
    rw [hit] at found
    exact slowAddr_source (fun e impossible => by cases hit.symm.trans impossible) found
  | some e =>
    rw [hit] at found
    dsimp only at found
    split at found
    · rename_i usable
      cases found
      exact .tlb e hit usable
    · rename_i unusable
      refine slowAddr_source ?_ found
      intro other same
      cases hit.symm.trans same
      exact unusable

theorem Misses.answer (missed : u.Misses csr va isWrite isFetch) :
    u.answer ram csr va isWrite isFetch = u.slowAddr ram csr va isWrite isFetch := by
  unfold MMU.answer
  cases hit : u.find (vpnOf va) (asidOf csr.satp) with
  | none => rfl
  | some e => exact if_neg (missed e hit)

theorem Source.answer (source : Source u ram csr va isWrite isFetch pa) : u.answer ram csr va isWrite isFetch = some pa := by
  cases source with
  | tlb e hit usable =>
    unfold MMU.answer
    rw [hit]
    exact if_pos usable
  | map entry missed bare mapped permitted =>
    rw [missed.answer,slowAddr,if_pos bare,bareAddr,mapped,physical_map]
    exact if_pos permitted
  | identity missed bare unmapped => rw [missed.answer,slowAddr,if_pos bare,bareAddr,unmapped]
  | leaf pte level missed walks leaf permitted =>
    rw [missed.answer,slowAddr,if_neg (by simpa using walks),walkAddr,leaf]
    exact if_pos permitted

theorem Source.offset (source : Source u ram csr va isWrite isFetch pa) : pa.toNat%2^12 = va.toNat%2^12 := by
  cases source with
  | tlb e =>
    rw [physical_toNat]
    omega
  | map entry =>
    rw [physical_toNat]
    omega
  | identity => rfl
  | leaf pte level =>
    rw [physical_toNat]
    omega

end Sources

theorem answer_within (u : MMU) (ram : ByteStore) (csr : CSRFile) (isWrite isFetch : Bool) {va : Word} {j : Nat}
    (room : va.toNat % 2^12 + j < 2^12) : u.answer ram csr (va + BitVec.ofNat 32 j) isWrite isFetch =
      (u.answer ram csr va isWrite isFetch).map (· + BitVec.ofNat 32 j) := by
  have page := vpnOf_within room
  have slow : u.slowAddr ram csr (va + BitVec.ofNat 32 j) isWrite isFetch =
      (u.slowAddr ram csr va isWrite isFetch).map (· + BitVec.ofNat 32 j) := by
    unfold slowAddr
    split
    · unfold bareAddr
      rw [mapOf_page page]
      cases mapOf u.simpleMap va with
      | none => rfl
      | some m =>
        simp only [← physical_map,physical_within _ room]
        split <;> rfl
    · unfold walkAddr
      rw [leafOf_page page]
      cases leafOf ram csr.satp va with
      | none => rfl
      | some leaf =>
        simp only [Option.bind_some,physical_within _ room]
        split <;> rfl
  unfold answer
  rw [page,slow]
  cases u.find (vpnOf va) (asidOf csr.satp) with
  | none => rfl
  | some e =>
    simp only [physical_within _ room]
    split <;> rfl

end MMU

-- The data an access instruction moves: its direction, the physical address of its
-- first byte and its length.
structure Transfer where
  isWrite : Bool
  base : Word
  count : Nat
  deriving DecidableEq, Repr

namespace Machine

def byteAddr (m : Machine) (va : Word) (isWrite : Bool) : Option Word :=
  m.mmu.answer m.scratchpad m.csr va isWrite false

theorem resolved_on {m : Machine} (on : m.mmu.enabled = true) (va : Word) (isWrite : Bool) :
    (m.resolved va isWrite).1 = m.byteAddr va isWrite := by
  obtain ⟨t,ran,answer⟩ := m.mmu.translate_answer m.scratchpad m.csr va isWrite false .none
  simp only [resolved,on,if_true,ran]
  exact answer

-- The transfer of the four access instructions: where they translate, the address
-- is the MMU's; the vector accesses use the effective address as it is.
def transfer (m : Machine) (i : Instruction) : Option Transfer :=
  match i.opcode with
  | some .load => do
    let va ← m.dataVa i
    let addr ← (m.resolved va false).1
    if m.issues && m.addressable addr && i.rd.toNat < numGpr then some ⟨false,addr,4⟩ else none
  | some .store => do
    let va ← m.dataVa i
    let addr ← (m.resolved va true).1
    if i.rd.toNat < numGpr && m.issues && m.addressable addr then some ⟨true,addr,4⟩ else none
  | some .loadVr => do
    let va ← m.dataVa i
    if i.rd.toNat < numVr && va.toNat+vrByteSize ≤ m.scratchpad.size then some ⟨false,va,vrByteSize⟩ else none
  | some .storeVr => do
    let va ← m.dataVa i
    if i.rd.toNat < numVr && va.toNat+vrByteSize ≤ m.scratchpad.size then some ⟨true,va,vrByteSize⟩ else none
  | _ => none

end Machine

def Moved (i : Instruction) (m : Machine) (base : Word) (m' : Machine) : Prop :=
  match i.opcode with
  | some .load => m.regs.writeGpr i.rd.toNat (m.busWord base) = some m'.regs
  | some .store => ∃ value, m.regs.readGpr i.rd.toNat = some value ∧ Handlers.BusWrote m base value m'
  | some .loadVr => ∃ d, RegisterFile.vrIndex i.rd.toNat = some d ∧
      m'.regs.vr = Function.update m.regs.vr d fun k => m.scratchpad.word (base.toNat+4*k.val)
  | some .storeVr => ∃ s, RegisterFile.vrIndex i.rd.toNat = some s ∧
      m'.scratchpad = m.scratchpad.write base.toNat (Handlers.vrBytes (m.regs.vr s))
  | _ => False

structure Unmoved (m m' : Machine) : Prop where
  gpr : m'.regs.gpr = m.regs.gpr
  vr : m'.regs.vr = m.regs.vr
  scratchpad : m'.scratchpad = m.scratchpad

-- `transfer` is what the handler does: it returns having moved that data, or it has
-- moved nothing, whichever way it ends.
def Carries (i : Instruction) (m : Machine) (o : Outcome EmulatorError Hazard Machine Word) : Prop :=
  o.Sat (fun _ m' => match m.transfer i with
      | some x => Moved i m x.base m'
      | none => Unmoved m m')
    (fun _ m' => m.transfer i = none ∧ Unmoved m m') (fun _ => m.transfer i = none)

namespace Handlers
variable {i : Instruction} {m : Machine}

theorem dataVa_none (unread : m.regs.readGpr i.ra.toNat = none) : m.dataVa i = none := by
  simp [Machine.dataVa,unread]

theorem unmoved_trap (u : MMU) (t : Trap) : Unmoved m (({m with mmu := u} : Machine).enterTrap t) := by
  have regs := ({m with mmu := u} : Machine).enterTrap_regs t
  exact ⟨by rw [regs],by rw [regs],rfl⟩

-- Both scalar accesses: the base is read and the address translated, and a page fault
-- moves nothing.
theorem carries_data (isStore : Bool) {completes : Word → Bool} {rest : Word → Option Word → Emu Word}
    (shape : m.transfer i = (m.dataVa i).bind fun va => (m.resolved va isStore).1.bind fun addr =>
      if completes addr then some ⟨isStore,addr,4⟩ else none)
    (faults : ∀ base, rest base none = pageFault (base+i.simm16) isStore)
    (mapped : ∀ base addr, m.transfer i = (if completes addr then some ⟨isStore,addr,4⟩ else none) →
      Carries i m (rest base (some addr) (m.afterResolve (base+i.simm16) isStore))) :
    Carries i m ((do
      let base ← onRegs (readGpr i.ra)
      let pa ← resolve (base+i.simm16) isStore
      rest base pa : Emu Word) m) := by
  unfold Carries at mapped ⊢
  rw [Exec.sat_bind,sat_onRegs,sat_readGpr]
  refine ⟨?_,fun unread => by rw [shape,dataVa_none unread,Option.bind_none]⟩
  intro base read
  rw [dataVa_of_base read,Option.bind_some] at shape
  rw [Exec.sat_bind,sat_resolve]
  cases translated : (m.resolved (base+i.simm16) isStore).1 with
  | none =>
    rw [translated,Option.bind_none] at shape
    rw [faults,sat_pageFault,shape]
    exact unmoved_trap _ _
  | some addr =>
    rw [translated,Option.bind_some] at shape
    exact mapped _ addr shape

theorem opLoad_carries (opcode : i.opcode = some .load) : Carries i m (opLoad i m) := by
  refine @carries_data i m false (fun addr => m.issues && m.addressable addr && i.rd.toNat < numGpr) _ ?_ ?_ ?_
  · simp only [Machine.transfer,opcode]
    rfl
  · exact fun _ => rfl
  intro base addr shape
  unfold Carries
  dsimp only
  rw [Exec.sat_bind]
  refine sat_issueAxi (fun issues axi _ => ?_) (fun stalled => ?_)
  · have issues' : m.issues = true := issues
    rw [Exec.sat_bind]
    have unreached : m.addressable addr = false → m.transfer i = none := by
      intro beyond
      simp [shape,beyond]
    refine sat_busRead (fun reached => ?_) (fun beyond _ => ⟨unreached beyond,rfl,rfl,rfl⟩) unreached
    have reached' : m.addressable addr = true := reached
    rw [Exec.sat_bind,sat_onRegs,sat_writeGpr]
    refine ⟨fun r' wrote => ?_,fun unwritten => ?_⟩
    · have small : i.rd.toNat < numGpr := RegisterFile.writeGpr_some.mp ⟨r',wrote⟩
      rw [issues',reached',decide_eq_true small] at shape
      rw [Exec.pure_apply,Outcome.sat_ok,shape]
      simp only [Bool.and_self,if_true,Moved,opcode]
      exact wrote
    · have large := RegisterFile.outside_of_none RegisterFile.writeGpr_some unwritten
      simp [shape,large]
  · have stalled' : m.issues = false := stalled
    simp [shape,stalled']

theorem opStore_carries (opcode : i.opcode = some .store) : Carries i m (opStore i m) := by
  refine @carries_data i m true (fun addr => i.rd.toNat < numGpr && m.issues && m.addressable addr) _ ?_ ?_ ?_
  · simp only [Machine.transfer,opcode]
    rfl
  · exact fun _ => rfl
  intro base addr shape
  unfold Carries
  dsimp only
  rw [Exec.sat_bind,sat_onRegs,sat_readGpr]
  refine ⟨fun value source => ?_,fun unread => ?_⟩
  · have small : i.rd.toNat < numGpr := RegisterFile.readGpr_some.mp ⟨value,source⟩
    rw [Exec.sat_bind]
    refine sat_issueAxi (fun issues axi _ => ?_) (fun stalled => ?_)
    · have issues' : m.issues = true := issues
      rw [Exec.sat_bind]
      have unreached : m.addressable addr = false → m.transfer i = none := by
        intro beyond
        simp [shape,beyond]
      refine sat_busWrite (fun reached m' wrote => ?_) (fun beyond _ => ⟨unreached beyond,rfl,rfl,rfl⟩) unreached
      have reached' : m.addressable addr = true := reached
      rw [issues',reached',decide_eq_true small] at shape
      rw [Exec.pure_apply,Outcome.sat_ok,shape]
      simp only [Bool.and_self,if_true,Moved,opcode]
      have same := m.afterResolve_control (base+i.simm16) true
      exact ⟨value,source,wrote.control.trans same,wrote.regs,wrote.mainRam,wrote.scratchpad⟩
    · have stalled' : m.issues = false := stalled
      simp [shape,stalled']
  · have large := RegisterFile.outside_of_none RegisterFile.readGpr_some unread
    simp [shape,large]

-- Both vector accesses: the base and the vector register are read, then a range of the
-- scratchpad is touched as a whole or rejected as a whole.
theorem carries_vector (isWrite : Bool) {rest : Word → Fin numVr → Emu Word}
    (shape : m.transfer i = (m.dataVa i).bind fun va =>
      if i.rd.toNat < numVr && va.toNat+vrByteSize ≤ m.scratchpad.size then some ⟨isWrite,va,vrByteSize⟩ else none)
    (moves : ∀ base d, RegisterFile.vrIndex i.rd.toNat = some d → (base+i.simm16).toNat+vrByteSize ≤ m.scratchpad.size →
      (rest base d m).Sat (fun _ m' => Moved i m (base+i.simm16) m') (fun _ _ => False) (fun _ => False))
    (rejects : ∀ base d, ¬ (base+i.simm16).toNat+vrByteSize ≤ m.scratchpad.size →
      (rest base d m).Sat (fun _ _ => False) (fun _ m' => m' = m) (fun _ => False)) :
    Carries i m ((do
      let base ← onRegs (readGpr i.ra)
      let d ← onRegs (vr i.rd)
      rest base d : Emu Word) m) := by
  unfold Carries
  rw [Exec.sat_bind,sat_onRegs,sat_readGpr]
  refine ⟨?_,fun unread => by rw [shape,dataVa_none unread,Option.bind_none]⟩
  intro base read
  rw [dataVa_of_base read,Option.bind_some] at shape
  rw [Exec.sat_bind,sat_onRegs,sat_vr]
  refine ⟨fun d found => ?_,fun unfound => ?_⟩
  · have small : i.rd.toNat < numVr := RegisterFile.vrIndex_some.mp ⟨d,found⟩
    rw [decide_eq_true small,Bool.true_and] at shape
    by_cases inside : (base+i.simm16).toNat+vrByteSize ≤ m.scratchpad.size
    · rw [if_pos (decide_eq_true inside)] at shape
      rw [shape]
      exact (moves _ d found inside).mono (fun _ _ moved => moved) (fun _ _ => False.elim) (fun _ => False.elim)
    · rw [if_neg (by simpa using inside)] at shape
      rw [shape]
      refine (rejects _ d inside).mono (fun _ _ => False.elim) (fun _ m' same => ?_) (fun _ => False.elim)
      rw [same]
      exact ⟨rfl,rfl,rfl,rfl⟩
  · have large := RegisterFile.outside_of_none RegisterFile.vrIndex_some unfound
    simp [shape,large]

theorem opLoadVr_carries (opcode : i.opcode = some .loadVr) : Carries i m (opLoadVr i m) := by
  refine carries_vector false ?_ (fun base d found inside => ?_) (fun base d outside => ?_)
  · simp only [Machine.transfer,opcode]
    rfl
  · simp only [Exec.sat_bind,Exec.get_apply,Outcome.sat_ok,Exec.ite_apply,if_pos inside,Exec.modify_apply,Exec.pure_apply,
      Moved,opcode]
    exact ⟨d,found,rfl⟩
  · simp only [Exec.sat_bind,Exec.get_apply,Outcome.sat_ok,Exec.ite_apply,if_neg outside,Exec.throw_apply,
      Outcome.sat_thrown]

theorem opStoreVr_carries (opcode : i.opcode = some .storeVr) : Carries i m (opStoreVr i m) := by
  refine carries_vector true ?_ (fun base d found inside => ?_) (fun base d outside => ?_)
  · simp only [Machine.transfer,opcode]
    rfl
  · simp only [Exec.sat_bind,Exec.get_apply,Outcome.sat_ok,VirtualSRAM.writeBytes,vrBytes_length,if_pos inside,liftExcept,
      Exec.modify_apply,Exec.pure_apply,Moved,opcode]
    exact ⟨d,found,rfl⟩
  · simp only [Exec.sat_bind,Exec.get_apply,Outcome.sat_ok,VirtualSRAM.writeBytes,vrBytes_length,if_neg outside,liftExcept,
      Exec.throw_apply,Outcome.sat_thrown]

end Handlers

open Handlers

def Instruction.isAccess (i : Instruction) : Prop :=
  i.opcode = some .load ∨ i.opcode = some .store ∨ i.opcode = some .loadVr ∨ i.opcode = some .storeVr

theorem Moved.account {i : Instruction} {m m' : Machine} {base cycles : Word} {op : Opcode} (moved : Moved i m base m') :
    Moved i m base (account op i cycles m') := by
  unfold Moved at moved ⊢
  split at moved
  · exact moved
  · obtain ⟨value,read,wrote⟩ := moved
    exact ⟨value,read,wrote.control,wrote.regs,wrote.mainRam,wrote.scratchpad⟩
  · exact moved
  · exact moved
  · exact moved.elim

theorem Carries.account {i : Instruction} {m : Machine} {op : Opcode} (h : Host) (opcode : i.opcode = some op)
    (carries : Carries i m (handler h op i m)) : Carries i m (execute h i m) := by
  unfold Carries at carries ⊢
  simp only [execute,opcode,Exec.sat_bind,Exec.modify_apply,Exec.pure_apply,Outcome.sat_ok]
  refine carries.mono ?_ (fun _ _ none => none) (fun _ none => none)
  intro cycles m' moved
  cases transfer : m.transfer i with
  | none =>
    rw [transfer] at moved
    exact ⟨moved.gpr,moved.vr,moved.scratchpad⟩
  | some x =>
    rw [transfer] at moved
    exact Moved.account moved

theorem execute_carries (h : Host) (i : Instruction) (m : Machine) (access : i.isAccess) : Carries i m (execute h i m) := by
  rcases access with opcode | opcode | opcode | opcode
  · exact Carries.account h opcode (opLoad_carries opcode)
  · exact Carries.account h opcode (opStore_carries opcode)
  · exact Carries.account h opcode (opLoadVr_carries opcode)
  · exact Carries.account h opcode (opStoreVr_carries opcode)

-- Every byte that is moved is at the address the MMU gives for it; in particular
-- none is moved when the MMU faults on one of them.
def Mediated (i : Instruction) (m : Machine) : Prop :=
  ∀ va x, m.dataVa i = some va → m.transfer i = some x → ∀ k < x.count,
    m.byteAddr (va + BitVec.ofNat 32 k) x.isWrite = some (x.base + BitVec.ofNat 32 k)

-- The access stays in one page, or the next page follows on in physical memory too.
def PageStraight (m : Machine) (va : Word) (x : Transfer) : Prop :=
  va.toNat % 2^12 + x.count ≤ 2^12 ∨
    m.byteAddr (va + BitVec.ofNat 32 (2^12 - va.toNat % 2^12)) x.isWrite =
      some (x.base + BitVec.ofNat 32 (2^12 - va.toNat % 2^12))

section Bytes
variable {i : Instruction} {m : Machine} {va base : Word} {x : Transfer}

theorem byteAddr_within {isWrite : Bool} {j : Nat} (room : va.toNat % 2^12 + j < 2^12)
    (first : m.byteAddr va isWrite = some base) :
    m.byteAddr (va + BitVec.ofNat 32 j) isWrite = some (base + BitVec.ofNat 32 j) := by
  unfold Machine.byteAddr at first ⊢
  rw [m.mmu.answer_within _ _ _ _ room,first]
  rfl

theorem bytes_iff (small : x.count ≤ 2^12) (some : 0 < x.count) :
    (∀ k < x.count, m.byteAddr (va + BitVec.ofNat 32 k) x.isWrite = .some (x.base + BitVec.ofNat 32 k)) ↔
      m.byteAddr va x.isWrite = .some x.base ∧ PageStraight m va x := by
  constructor
  · intro bytes
    refine ⟨by simpa using bytes 0 some,?_⟩
    by_cases inside : va.toNat % 2^12 + x.count ≤ 2^12
    · exact .inl inside
    · exact .inr (bytes _ (by omega))
  · intro page k within
    obtain ⟨first,straight⟩ := page
    by_cases inside : va.toNat % 2^12 + k < 2^12
    · exact byteAddr_within inside first
    · rcases straight with fits | next
      · omega
      · have low : va.toNat % 2^12 < 2^12 := Nat.mod_lt _ (by decide)
        have split : k = (2^12 - va.toNat % 2^12) + (k - (2^12 - va.toNat % 2^12)) := by omega
        have start : (va + BitVec.ofNat 32 (2^12 - va.toNat % 2^12)).toNat % 2^12 = 0 := by
          rw [BitVec.toNat_add,BitVec.toNat_ofNat]
          omega
        have later := byteAddr_within (j := k - (2^12 - va.toNat % 2^12)) (by omega) next
        rw [split,BitVec.ofNat_add,← BitVec.add_assoc,← BitVec.add_assoc]
        exact later

def Instruction.isVector (i : Instruction) : Prop := i.opcode = some .loadVr ∨ i.opcode = some .storeVr

theorem transfer_shape (moved : m.transfer i = some x) (named : m.dataVa i = some va) :
    (¬ i.isVector ∧ x.count = 4 ∧ (m.resolved va x.isWrite).1 = some x.base) ∨
      (i.isVector ∧ x.count = vrByteSize ∧ x.base = va) := by
  unfold Instruction.isVector
  unfold Machine.transfer at moved
  rw [named] at moved
  split at moved
  · rename_i opcode
    simp only [Option.bind_eq_bind,Option.bind_some,Option.bind_eq_some_iff,Option.ite_none_right_eq_some] at moved
    obtain ⟨addr,translated,_,⟨⟩⟩ := moved
    exact .inl ⟨by simp [opcode],rfl,translated⟩
  · rename_i opcode
    simp only [Option.bind_eq_bind,Option.bind_some,Option.bind_eq_some_iff,Option.ite_none_right_eq_some] at moved
    obtain ⟨addr,translated,_,⟨⟩⟩ := moved
    exact .inl ⟨by simp [opcode],rfl,translated⟩
  · rename_i opcode
    simp only [Option.bind_eq_bind,Option.bind_some,Option.ite_none_right_eq_some] at moved
    obtain ⟨_,⟨⟩⟩ := moved
    exact .inr ⟨.inl opcode,rfl,rfl⟩
  · rename_i opcode
    simp only [Option.bind_eq_bind,Option.bind_some,Option.ite_none_right_eq_some] at moved
    obtain ⟨_,⟨⟩⟩ := moved
    exact .inr ⟨.inr opcode,rfl,rfl⟩
  · cases moved

end Bytes

-- Mediation as the handlers have it: a scalar access only has to stay in its page, a
-- vector access has to be mapped to itself.
theorem mmu_mediates_iff (h : Host) (i : Instruction) (m : Machine) (on : m.mmu.enabled = true) (access : i.isAccess) :
    Carries i m (execute h i m) ∧ (Mediated i m ↔ ∀ va x, m.dataVa i = some va → m.transfer i = some x →
      (i.isVector → m.byteAddr va x.isWrite = some va) ∧ PageStraight m va x) := by
  refine ⟨execute_carries h i m access,?_⟩
  have bytes : ∀ {va x}, m.dataVa i = some va → m.transfer i = some x →
      ((∀ k < x.count, m.byteAddr (va + BitVec.ofNat 32 k) x.isWrite = some (x.base + BitVec.ofNat 32 k)) ↔
        (i.isVector → m.byteAddr va x.isWrite = some va) ∧ PageStraight m va x) := by
    intro va x named moved
    rcases transfer_shape moved named with ⟨scalar,count,translated⟩ | ⟨vector,count,base⟩
    · rw [m.resolved_on on] at translated
      rw [bytes_iff (by omega) (by omega)]
      exact ⟨fun ⟨_,straight⟩ => ⟨fun vector => absurd vector scalar,straight⟩,fun ⟨_,straight⟩ => ⟨translated,straight⟩⟩
    · rw [bytes_iff (by rw [count]; decide) (by rw [count]; decide),base]
      exact ⟨fun ⟨first,straight⟩ => ⟨fun _ => first,straight⟩,fun ⟨first,straight⟩ => ⟨first vector,straight⟩⟩
  constructor
  · intro mediated va x named moved
    exact (bytes named moved).mp (mediated va x named moved)
  · intro straight va x named moved
    exact (bytes named moved).mpr (straight va x named moved)

-- Page 0 mapped to frame 1, with r0-relative accesses at address 0x40.
def remapped (word : Word) : Machine :=
  let m := (Emulator.programmed [word]).core
  {m with mmu := {m.mmu.identityMap 0 0x1000 1 7 with enabled := true},scratchpad := zeroStore 0x2000}

theorem mmu_mediates_load : Mediated ⟨Enc.load 1 0 0x40⟩ (remapped (Enc.load 1 0 0x40)) := by
  refine (mmu_mediates_iff (.ieee .scalar) ⟨Enc.load 1 0 0x40⟩ (remapped (Enc.load 1 0 0x40)) rfl
    (.inl (by decide))).2.mpr ?_
  intro va x named moved
  have address : (remapped (Enc.load 1 0 0x40)).dataVa ⟨Enc.load 1 0 0x40⟩ = some 0x40 := by decide +kernel
  have count : (remapped (Enc.load 1 0 0x40)).transfer ⟨Enc.load 1 0 0x40⟩ = some ⟨false,0x1040,4⟩ := by decide +kernel
  rw [address] at named
  rw [count] at moved
  cases named
  cases moved
  refine ⟨?_,.inl (by decide)⟩
  intro vector
  rcases vector with vector | vector
  · exact absurd vector (by decide)
  · exact absurd vector (by decide)

-- LOAD_VR reads page 0 where the MMU says frame 1.
theorem vector_load_bypasses_mmu : ¬ ∀ (i : Instruction) (m : Machine), m.mmu.enabled = true → i.isAccess → Mediated i m := by
  intro mediated
  have address : (remapped (Enc.loadVr 1 0 0x40)).dataVa ⟨Enc.loadVr 1 0 0x40⟩ = some 0x40 := by decide +kernel
  have moved : (remapped (Enc.loadVr 1 0 0x40)).transfer ⟨Enc.loadVr 1 0 0x40⟩ = some ⟨false,0x40,64⟩ := by decide +kernel
  have mapped : (remapped (Enc.loadVr 1 0 0x40)).byteAddr 0x40 false = some 0x1040 := by decide +kernel
  have first := mediated ⟨Enc.loadVr 1 0 0x40⟩ (remapped (Enc.loadVr 1 0 0x40)) rfl (.inr (.inr (.inl (by decide))))
    _ _ address moved 0 (by decide)
  rw [show (0x40 : Word) + BitVec.ofNat 32 0 = 0x40 from rfl,mapped] at first
  exact absurd first (by decide)

-- A fetch takes its page fault, throws, or reads four bytes of the scratchpad.
def FetchConfined (m : Machine) : Prop :=
  (fetch m).Sat (fun i m' => (∃ u, m' = ({m with mmu := u} : Machine).enterTrap (fetchFaultTrap m.regs.pc)) ∨
      ∃ pa : Word, pa.toNat+4 ≤ m.scratchpad.size ∧ i = ⟨m.scratchpad.word pa.toNat⟩)
    (fun _ _ => True) (fun _ => False)

theorem fetchConfined_answer {m : Machine} (on : m.mmu.enabled = true) : FetchConfined m ↔
    ∀ pa, m.mmu.answer m.scratchpad m.csr m.regs.pc false true = some pa → pa.toNat+4 ≤ m.scratchpad.size := by
  obtain ⟨t,translated,answer⟩ := m.mmu.translate_answer m.scratchpad m.csr m.regs.pc false true .none
  unfold FetchConfined fetch
  simp only [Exec.sat_bind,Exec.get_apply,Outcome.sat_ok,Exec.ite_apply,on,if_true,Handlers.translate,translated,Exec.ofOption_some,
    Exec.modify_apply,Exec.pure_apply]
  rw [← answer]
  cases t.pa with
  | none => exact ⟨fun _ _ impossible => (by cases impossible),fun _ => .inl ⟨t.mmu,rfl⟩⟩
  | some pa =>
    simp only [Exec.ite_apply,Option.some.injEq,forall_eq']
    by_cases inside : pa.toNat+4 ≤ m.scratchpad.size
    · rw [if_pos inside]
      exact ⟨fun _ => inside,fun _ => .inr ⟨pa,inside,rfl⟩⟩
    · rw [if_neg inside]
      exact ⟨False.elim,inside⟩

theorem fetch_bounds_iff (m : Machine) (on : m.mmu.enabled = true) : FetchConfined m ↔
    ∀ pa, m.mmu.Source m.scratchpad m.csr m.regs.pc false true pa → pa.toNat+4 ≤ m.scratchpad.size := by
  rw [fetchConfined_answer on]
  constructor
  · intro fits pa source
    exact fits pa source.answer
  · intro fits pa found
    exact fits pa (MMU.answer_source found)

theorem fetch_bounds_mapped : FetchConfined (remapped Enc.nop) := by
  refine (fetch_bounds_iff (remapped Enc.nop) rfl).mpr ?_
  intro pa source
  have frame : (remapped Enc.nop).mmu.answer (remapped Enc.nop).scratchpad (remapped Enc.nop).csr (remapped Enc.nop).regs.pc false true =
      some 0x1000 := by decide +kernel
  cases frame.symm.trans source.answer
  decide

-- The same map with a scratchpad that ends before the frame.
theorem fetch_beyond_scratchpad : ¬ ∀ m : Machine, m.mmu.enabled = true → FetchConfined m := by
  intro confined
  have fits := confined {remapped Enc.nop with scratchpad := zeroStore 0x1000} rfl
  have stuck : (fetch {remapped Enc.nop with scratchpad := zeroStore 0x1000}).Sat (fun _ _ => False) (fun _ _ => False) (fun _ => True) := by
    decide +kernel
  unfold FetchConfined at fits
  cases read : fetch {remapped Enc.nop with scratchpad := zeroStore 0x1000} with
  | ok i m' =>
    rw [read] at stuck
    exact stuck
  | thrown err m' =>
    rw [read] at stuck
    exact stuck
  | undefined why =>
    rw [read] at fits
    exact fits

end Novium
