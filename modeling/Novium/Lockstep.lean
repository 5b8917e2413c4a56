import Novium.Cycle
import Novium.Lanes
import Novium.Relational

namespace Novium
open Storage Effects SmallStep

-- A number that only carries timing: compared in an exact coupling, free in a loose one.
def Timing {α : Type} (exact : Bool) (a b : α) : Prop := exact = true → a = b

theorem Timing.same {α : Type} (exact : Bool) (a : α) : Timing exact a a := fun _ => rfl

-- The one hazard that depends on timing: a full fabric does not divide by its burst size.
def Excused (exact : Bool) (why : Hazard) : Prop := exact = false ∧ why = .zeroBurst

-- A rejected DMA_LOAD is recorded by its handler already.
def stallOn (accepted : Bool) (m : Machine) : Machine :=
  if !accepted then {m with profiler := m.profiler.record .dmaLoad 1 0} else m

-- What a relation between two machines has to respect, one field for each primitive
-- the instructions are made of, so that the machines move in step. Bus reads are only
-- asked about at the addresses called safe, bus writes at those called open.
structure Lockstep (exact : Bool) (safe isOpen : Word → Prop) (R : Machine → Machine → Prop) : Prop where
  regs : R m n → n.regs = m.regs
  withRegs : R m n → ∀ r, R {m with regs := r} {n with regs := r}
  scratchpad : R m n → n.scratchpad = m.scratchpad
  withScratchpad : R m n → ∀ s, R {m with scratchpad := s} {n with scratchpad := s}
  mainRam : R m n → n.mainRam = m.mainRam
  withMainRam : R m n → ∀ s, R {m with mainRam := s} {n with mainRam := s}
  enabled : R m n → n.mmu.enabled = m.mmu.enabled
  translation : R m n → m.mmu.enabled = true → n.mmu = m.mmu ∧ n.csr = m.csr
  withMmu : R m n → m.mmu.enabled = true → ∀ u, MMU.Kept m.mmu u → R {m with mmu := u} {n with mmu := u}
  vector : R m n → n.csr.mtvec = m.csr.mtvec
  takeTrap : R m n → ∀ t, R (m.takeTrap t) (n.takeTrap t)
  weight : R m n → ∀ op func, Timing exact (profileCycleWeight m.target op func) (profileCycleWeight n.target op func)
  issue : R m n → ∀ addr bytes isWrite, Outcome.Agree (Excused exact) (Timing exact) R
    (Handlers.issueAxi addr bytes isWrite m) (Handlers.issueAxi addr bytes isWrite n)
  stall : R m n → Timing exact a b → R (stallOn a m) (stallOn b n)
  busRead : R m n → safe addr → Outcome.Agree (Excused exact) Eq R (Bus.read32 addr m) (Bus.read32 addr n)
  busWrite : R m n → isOpen addr → ∀ value,
    Outcome.Agree (Excused exact) Eq R (Bus.write32 addr value m) (Bus.write32 addr value n)
  account : R m n → Timing exact a b → ∀ op i, R (account op i a m) (account op i b n)
  tick : R m n → R m.tickPeripherals n.tickPeripherals
  deliver : R m n → R m.deliverInterrupt n.deliverInterrupt
  save : R m n → R (saveBefore m) (saveBefore n)
  log : R m n → Timing exact a b → ∀ pc i, R (logStep pc i a m) (logStep pc i b n)
  verbose : R m n → n.verbose = m.verbose
  debugger : R m n → n.debugger = m.debugger
  flush : R m n → R m.flushUart n.flushUart

-- The physical address a LOAD is about to read.
def Machine.loads (m : Machine) (i : Instruction) : Option Word :=
  if i.opcode = some .load then (m.dataVa i).bind fun va => (m.resolved va false).1 else none

-- The physical address a STORE is about to write.
def Machine.storesTo (m : Machine) (i : Instruction) : Option Word :=
  if i.opcode = some .store then (m.dataVa i).bind fun va => (m.resolved va true).1 else none

-- The physical address an instruction is fetched from.
def Machine.fetchAddress (m : Machine) : Option Word :=
  if m.mmu.enabled then
    (m.mmu.translate (some m.scratchpad) (some m.csr) m.regs.pc false true (some .none)).bind Translation.pa
  else some m.regs.pc

-- The physical addresses the fetch and the LOAD of a cycle read.
inductive Touches (m : Machine) : Word → Prop where
  | fetch : m.fetchAddress = some addr → Touches m addr
  | load : Novium.fetch (saveBefore m) = .ok i pre → pre.loads i = some addr → Touches m addr

-- The physical address the STORE of a cycle writes.
inductive Stores (m : Machine) : Word → Prop where
  | store : Novium.fetch (saveBefore m) = .ok i pre → pre.storesTo i = some addr → Stores m addr

theorem Handlers.onRegs_readGpr (idx : BitVec 5) (m : Machine) :
    onRegs (readGpr idx) m = Exec.ofOption .registerIndex (m.regs.readGpr idx.toNat) m := by
  unfold onRegs Exec.within readGpr
  rw [Exec.bind_apply,Exec.get_apply]
  dsimp only
  cases m.regs.readGpr idx.toNat with
  | none => rfl
  | some v => rfl

theorem Handlers.translate_apply {m : Machine} {va : Word} {isWrite isFetch : Bool} {t : Translation}
    (translated : m.mmu.translate (some m.scratchpad) (some m.csr) va isWrite isFetch (some .none) = some t) :
    translate va isWrite isFetch m = .ok t.pa {m with mmu := t.mmu} := by
  simp [translate,Exec.bind_apply,translated]

theorem Handlers.issueAxi_apply (addr bytes : Word) (isWrite : Bool) (m : Machine) : issueAxi addr bytes isWrite m =
    match m.axi.issue ⟨0,addr,bytes,isWrite,m.profiler.cycleCount,0,.axi4⟩ m.profiler.cycleCount with
    | none => .undefined .zeroBurst
    | some (axi,accepted) => .ok accepted {m with axi := axi} := by
  unfold issueAxi
  rw [Exec.bind_ok (Exec.get_apply m),Exec.bind_apply]
  dsimp only
  cases m.axi.issue ⟨0,addr,bytes,isWrite,m.profiler.cycleCount,0,.axi4⟩ m.profiler.cycleCount with
  | none => rfl
  | some answer => rfl

-- Two machines whose buses take an address to the same place.
structure Routes (addr : Word) (m n : Machine) : Prop where
  device : n.deviceAt addr = m.deviceAt addr
  shared : m.deviceAt addr = some .shared → n.shared = m.shared

theorem Routes.of_shared {addr : Word} {m n : Machine} (same : n.shared = m.shared) : Routes addr m n := by
  refine ⟨?_,fun _ => same⟩
  unfold Machine.deviceAt Machine.devices
  rw [same]

-- The bus primitives, for any relation that agrees on what the bus reads. A device
-- register is compared only where the address decodes to it.
theorem busRead_agree {E : Hazard → Prop} {R : Machine → Machine → Prop} {m n : Machine} {addr : Word} (related : R m n)
    (routes : Routes addr m n) (scratchpad : n.scratchpad = m.scratchpad) (rx : n.uart.readReg = m.uart.readReg)
    (timer : m.deviceAt addr = some .timer → n.timer = m.timer ∧ ∀ t, R {m with timer := t} {n with timer := t}) :
    Outcome.Agree E Eq R (Bus.read32 addr m) (Bus.read32 addr n) := by
  unfold Bus.read32
  rw [Exec.bind_ok (Exec.get_apply m),Exec.bind_ok (Exec.get_apply n),routes.device]
  cases found : m.deviceAt addr with
  | none =>
    dsimp only
    rw [scratchpad]
    cases VirtualSRAM.read32 m.scratchpad addr with
    | error e => exact .thrown related
    | ok value => exact .ok rfl related
  | some kind =>
    cases kind with
    | timer =>
      obtain ⟨same,after⟩ := timer found
      dsimp only
      rw [same]
      exact .ok rfl (after _)
    | uart =>
      refine .ok ?_ related
      rw [rx]
    | shared =>
      dsimp only
      rw [routes.shared found]
      cases m.shared with
      | none => exact .undefined
      | some ram =>
        simp only [Exec.ite_apply]
        split
        · exact .ok rfl related
        · exact .undefined

def Machine.writeUart (m : Machine) (offset value : Word) : Machine :=
  {m with
    uart := (m.uart.writeReg offset value).1
    stdout := m.stdout ++ ((m.uart.writeReg offset value).2.map Output.uartTx).toList}

theorem busWrite_agree {E : Hazard → Prop} {R : Machine → Machine → Prop} {m n : Machine} {addr value : Word}
    (related : R m n) (routes : Routes addr m n) (scratchpad : n.scratchpad = m.scratchpad)
    (withScratchpad : ∀ s, R {m with scratchpad := s} {n with scratchpad := s})
    (withShared : m.deviceAt addr = some .shared → ∀ s, R {m with shared := s} {n with shared := s})
    (timer : ∀ offset, R {m with timer := m.timer.writeReg offset value} {n with timer := n.timer.writeReg offset value})
    (uart : ∀ offset, R (m.writeUart offset value) (n.writeUart offset value)) :
    Outcome.Agree E Eq R (Bus.write32 addr value m) (Bus.write32 addr value n) := by
  unfold Bus.write32
  rw [Exec.bind_ok (Exec.get_apply m),Exec.bind_ok (Exec.get_apply n),routes.device]
  cases found : m.deviceAt addr with
  | none =>
    dsimp only
    rw [scratchpad,Exec.bind_apply,Exec.bind_apply]
    cases VirtualSRAM.write32 m.scratchpad addr value with
    | error e => exact .thrown related
    | ok ram => exact .ok rfl (withScratchpad ram)
  | some kind =>
    cases kind with
    | timer => exact .ok rfl (timer _)
    | uart => exact .ok rfl (uart _)
    | shared =>
      dsimp only
      rw [routes.shared found]
      cases m.shared with
      | none => exact .undefined
      | some ram =>
        simp only [Exec.ite_apply]
        split
        · exact .ok rfl (withShared found _)
        · exact .undefined

namespace Lockstep
open Outcome Handlers
variable {exact : Bool} {safe isOpen : Word → Prop} {R : Machine → Machine → Prop} {m n : Machine} {i : Instruction}
  (kit : Lockstep exact safe isOpen R)
include kit

theorem onRegs {α : Type} (related : R m n) (x : OnRegs α) : Agree (Excused exact) Eq R (onRegs x m) (onRegs x n) := by
  refine .within ?_ (kit.withRegs related)
  rw [kit.regs related]
  exact .refl _

theorem setPc (related : R m n) (pc : Word) : R (m.setPc pc) (n.setPc pc) := by
  unfold Machine.setPc
  rw [kit.regs related]
  exact kit.withRegs related _

theorem enterTrap (related : R m n) (t : Trap) : R (m.enterTrap t) (n.enterTrap t) := by
  have taken := kit.takeTrap related t
  have vector : (n.takeTrap t).trapVector = (m.takeTrap t).trapVector := by
    unfold Machine.trapVector
    rw [kit.vector taken]
  unfold Machine.enterTrap
  dsimp only
  rw [vector]
  exact kit.setPc taken _

theorem resolved (related : R m n) (va : Word) (isWrite : Bool) :
    (n.resolved va isWrite).1 = (m.resolved va isWrite).1 ∧ R (m.afterResolve va isWrite) (n.afterResolve va isWrite) := by
  cases on : m.mmu.enabled with
  | true =>
    obtain ⟨mmu,csr⟩ := kit.translation related on
    have same : n.resolved va isWrite = m.resolved va isWrite := by
      unfold Machine.resolved
      rw [mmu,csr,kit.scratchpad related]
    unfold Machine.afterResolve
    rw [same]
    exact ⟨rfl,kit.withMmu related on _ (m.resolved_kept va isWrite)⟩
  | false =>
    have off := (kit.enabled related).trans on
    unfold Machine.afterResolve
    rw [Machine.resolved_off on,Machine.resolved_off off]
    exact ⟨rfl,related⟩

theorem resolve (related : R m n) (va : Word) (isWrite : Bool) :
    Agree (Excused exact) Eq R (resolve va isWrite m) (resolve va isWrite n) := by
  obtain ⟨same,after⟩ := kit.resolved related va isWrite
  rw [resolve_apply,resolve_apply]
  exact .ok same.symm after

theorem pageFault (related : R m n) (va : Word) (isStore : Bool) :
    Agree (Excused exact) (Timing exact) R (pageFault va isStore m) (pageFault va isStore n) := by
  refine .ok (.same exact _) ?_
  dsimp only
  rw [kit.regs related]
  exact kit.enterTrap related _

theorem opLoad (related : R m n) (opcode : i.opcode = some .load) (reads : ∀ addr, m.loads i = some addr → safe addr) :
    Agree (Excused exact) (Timing exact) R (opLoad i m) (opLoad i n) := by
  unfold Handlers.opLoad
  rw [Exec.bind_apply,Exec.bind_apply,onRegs_readGpr,onRegs_readGpr,kit.regs related]
  cases read : m.regs.readGpr i.ra.toNat with
  | none => exact .undefined
  | some base =>
    obtain ⟨same,after⟩ := kit.resolved related (base+i.simm16) false
    simp only [Exec.ofOption_some,Exec.bind_apply,resolve_apply,same]
    cases translated : (m.resolved (base+i.simm16) false).1 with
    | none => exact kit.pageFault after _ _
    | some addr =>
      have touched : m.loads i = some addr := by
        simp [Machine.loads,opcode,dataVa_of_base read,translated]
      apply Agree.bind (kit.issue after _ _ _)
      intro _ _ m n _ related
      apply (kit.busRead related (reads addr touched)).bind
      intro value _ m n same related
      subst same
      apply (kit.onRegs related _).bind
      intro _ _ m n _ related
      exact .ok (.same exact _) related

theorem opStore (related : R m n) (opcode : i.opcode = some .store)
    (writes : ∀ addr, m.storesTo i = some addr → isOpen addr) :
    Agree (Excused exact) (Timing exact) R (opStore i m) (opStore i n) := by
  unfold Handlers.opStore
  rw [Exec.bind_apply,Exec.bind_apply,onRegs_readGpr,onRegs_readGpr,kit.regs related]
  cases read : m.regs.readGpr i.ra.toNat with
  | none => exact .undefined
  | some base =>
    obtain ⟨same,after⟩ := kit.resolved related (base+i.simm16) true
    simp only [Exec.ofOption_some,Exec.bind_apply,resolve_apply,same]
    cases translated : (m.resolved (base+i.simm16) true).1 with
    | none => exact kit.pageFault after _ _
    | some addr =>
      have touched : m.storesTo i = some addr := by
        simp [Machine.storesTo,opcode,dataVa_of_base read,translated]
      apply Agree.bind (kit.onRegs after _)
      intro value _ m n same related
      subst same
      apply (kit.issue related _ _ _).bind
      intro _ _ m n _ related
      apply (kit.busWrite related (writes addr touched) _).bind
      intro _ _ m n _ related
      exact .ok (.same exact _) related

theorem opLoadVr (related : R m n) : Agree (Excused exact) (Timing exact) R (opLoadVr i m) (opLoadVr i n) := by
  apply (kit.onRegs related _).bind
  intro base _ m n same related
  subst same
  apply (kit.onRegs related _).bind
  intro d _ m n same related
  subst same
  simp only [Exec.bind_apply,Exec.get_apply,Exec.ite_apply,kit.scratchpad related]
  split
  · refine .ok (.same exact _) ?_
    have loaded : ({n.regs with vr := Function.update n.regs.vr d fun k => n.scratchpad.word ((base+i.simm16).toNat+4*k.val)} :
        RegisterFile) = {m.regs with vr := Function.update m.regs.vr d fun k => m.scratchpad.word ((base+i.simm16).toNat+4*k.val)} := by
      rw [kit.scratchpad related,kit.regs related]
    dsimp only
    rw [loaded]
    exact kit.withRegs related _
  · exact .thrown related

theorem opStoreVr (related : R m n) : Agree (Excused exact) (Timing exact) R (opStoreVr i m) (opStoreVr i n) := by
  apply (kit.onRegs related _).bind
  intro base _ m n same related
  subst same
  apply (kit.onRegs related _).bind
  intro source _ m n same related
  subst same
  simp only [Exec.bind_apply,Exec.get_apply,kit.scratchpad related,kit.regs related]
  cases VirtualSRAM.writeBytes m.scratchpad (base+i.simm16) (vrBytes (m.regs.vr source)) with
  | error e => exact .thrown related
  | ok ram => exact .ok (.same exact _) (kit.withScratchpad related _)

-- The copy at the end of a DMA handler, on either memory.
omit kit in
theorem copy (related : R m n) (fits : Prop) [Decidable fits] {f : Machine → Machine} {a b : Word}
    (copied : ∀ {m n}, R m n → R (f m) (f n)) (weight : Timing exact a b) :
    Agree (Excused exact) (Timing exact) R
      ((if fits then (do Exec.modify f; return a : Emu Word) else Exec.undefined .outOfBounds) m)
      ((if fits then (do Exec.modify f; return b : Emu Word) else Exec.undefined .outOfBounds) n) := by
  simp only [Exec.ite_apply]
  split
  · exact .ok weight (copied related)
  · exact .undefined

-- Both DMA handlers read and translate their operands before they differ.
theorem operands (related : R m n) {rest : Word → Word → Option Word → Option Word → Emu Word}
    (tail : ∀ destVa srcVa paDest paSrc m n, R m n → Agree (Excused exact) (Timing exact) R
      (rest destVa srcVa paDest paSrc m) (rest destVa srcVa paDest paSrc n)) :
    let operation : Emu Word := do
      let destVa ← Novium.onRegs (readGpr i.rd)
      let srcVa ← Novium.onRegs (readGpr i.ra)
      let paDest ← Handlers.resolve destVa true
      let paSrc ← Handlers.resolve srcVa false
      rest destVa srcVa paDest paSrc
    Agree (Excused exact) (Timing exact) R (operation m) (operation n) := by
  apply (kit.onRegs related _).bind
  intro destVa _ m n same related
  subst same
  apply (kit.onRegs related _).bind
  intro srcVa _ m n same related
  subst same
  apply (kit.resolve related _ _).bind
  intro paDest _ m n same related
  subst same
  apply (kit.resolve related _ _).bind
  intro paSrc _ m n same related
  subst same
  exact tail _ _ _ _ m n related

theorem opDmaLoad (related : R m n) : Agree (Excused exact) (Timing exact) R (opDmaLoad i m) (opDmaLoad i n) := by
  apply kit.operands related
  intro destVa srcVa paDest paSrc m n related
  cases paDest with
  | none => exact kit.pageFault related _ _
  | some dest =>
    cases paSrc with
    | none => exact kit.pageFault related _ _
    | some src =>
      have weight := kit.weight related .dmaLoad ((dmaCount i).truncate 16)
      dsimp only
      rw [Exec.bind_ok (Exec.get_apply m),Exec.bind_ok (Exec.get_apply n),kit.scratchpad related,kit.mainRam related]
      simp only [Exec.ite_apply]
      split
      · exact .thrown related
      · split
        · exact .thrown related
        · apply Agree.bind (kit.issue related _ _ _)
          intro accepted accepted' m n timing related
          have copied : ∀ {m n : Machine}, R m n →
              R {m with scratchpad := m.scratchpad.write dest.toNat (m.mainRam.read src.toNat (dmaCount i).toNat)}
                {n with scratchpad := n.scratchpad.write dest.toNat (n.mainRam.read src.toNat (dmaCount i).toNat)} := by
            intro m n related
            have same : n.scratchpad.write dest.toNat (n.mainRam.read src.toNat (dmaCount i).toNat) =
                m.scratchpad.write dest.toNat (m.mainRam.read src.toNat (dmaCount i).toNat) := by
              rw [kit.scratchpad related,kit.mainRam related]
            rw [same]
            exact kit.withScratchpad related _
          have tail := fun (fits : Prop) [Decidable fits] => copy (kit.stall related timing) fits copied weight
          cases accepted with
          | true =>
            cases accepted' with
            | true => exact tail _
            | false => exact tail _
          | false =>
            cases accepted' with
            | true => exact tail _
            | false => exact tail _

theorem opDmaStore (related : R m n) : Agree (Excused exact) (Timing exact) R (opDmaStore i m) (opDmaStore i n) := by
  apply kit.operands related
  intro destVa srcVa paDest paSrc m n related
  cases paDest with
  | none => exact kit.pageFault related _ _
  | some dest =>
    cases paSrc with
    | none => exact kit.pageFault related _ _
    | some src =>
      have weight := kit.weight related .dmaStore ((dmaCount i).truncate 16)
      dsimp only
      rw [Exec.bind_ok (Exec.get_apply m),Exec.bind_ok (Exec.get_apply n),kit.scratchpad related,kit.mainRam related]
      simp only [Exec.ite_apply]
      split
      · exact .thrown related
      · split
        · exact .thrown related
        · apply Agree.bind (kit.issue related _ _ _)
          intro _ _ m n _ related
          refine copy related _ ?_ weight
          intro m n related
          have same : n.mainRam.write dest.toNat (n.scratchpad.read src.toNat (dmaCount i).toNat) =
              m.mainRam.write dest.toNat (m.scratchpad.read src.toNat (dmaCount i).toNat) := by
            rw [kit.scratchpad related,kit.mainRam related]
          rw [same]
          exact kit.withMainRam related _

-- The acceleration flag picks between two ways to compute the same lanes.
theorem opVecAdd (h : Host) (related : R m n) : Agree (Excused exact) (Timing exact) R
    (Novium.onRegs (opVecAdd h m.accel m.target i) m) (Novium.onRegs (opVecAdd h n.accel n.target i) n) := by
  refine .within ?_ (kit.withRegs related)
  rw [kit.regs related]
  have lanes : ∀ accel vr d a b, (if accel = true then h.vecAddHost vr d a b else h.vecAddWidth 1 vr d a b) =
      Function.update vr d (h.laneSum vr a b) := by
    intro accel vr d a b
    rw [Host.vecAddHost_lanes,Host.vecAddWidth_lanes rfl,ite_self]
  apply (Agree.refl _).bind
  intro d _ r _ same states
  subst same states
  apply (Agree.refl _).bind
  intro a _ r _ same states
  subst same states
  apply (Agree.refl _).bind
  intro b _ r _ same states
  subst same states
  refine .ok (kit.weight related _ _) ?_
  simp only [lanes]

theorem opMatmulTile (h : Host) (related : R m n) : Agree (Excused exact) (Timing exact) R
    (Novium.onRegs (opMatmulTile h m.accel m.target i) m) (Novium.onRegs (opMatmulTile h n.accel n.target i) n) := by
  refine .within ?_ (kit.withRegs related)
  rw [kit.regs related]
  unfold Handlers.opMatmulTile
  simp only [Host.matmulTileHost_eq,ite_self,Exec.ite_apply]
  split
  · exact .thrown rfl
  · apply (Agree.refl _).bind
    intro d _ r _ same states
    subst same states
    apply (Agree.refl _).bind
    intro a _ r _ same states
    subst same states
    apply (Agree.refl _).bind
    intro b _ r _ same states
    subst same states
    exact .ok (kit.weight related _ _) rfl

theorem handler (h : Host) {op : Opcode} (related : R m n) (opcode : i.opcode = some op)
    (reads : ∀ addr, m.loads i = some addr → safe addr) (writes : ∀ addr, m.storesTo i = some addr → isOpen addr) :
    Agree (Excused exact) (Timing exact) R (handler h op i m) (handler h op i n) := by
  have onRegs : ∀ x : OnRegs Word, Agree (Excused exact) (Timing exact) R (Novium.onRegs x m) (Novium.onRegs x n) := by
    intro x
    refine (kit.onRegs related x).mono (fun _ excused => excused) ?_ (fun _ _ related => related)
    intro a b same _
    exact same
  cases op with
  | load => exact kit.opLoad related opcode reads
  | store => exact kit.opStore related opcode writes
  | loadVr => exact kit.opLoadVr related
  | storeVr => exact kit.opStoreVr related
  | vecAdd => exact kit.opVecAdd h related
  | matmulTile => exact kit.opMatmulTile h related
  | dmaLoad => exact kit.opDmaLoad related
  | dmaStore => exact kit.opDmaStore related
  | _ => exact onRegs _

theorem illegal (related : R m n) : Agree (Excused exact) (Timing exact) R (illegal i m) (illegal i n) := by
  simp only [Novium.illegal,Exec.bind_apply,Exec.get_apply,Exec.ite_apply,kit.vector related]
  split
  · refine .ok (.same exact _) ?_
    dsimp only
    rw [kit.regs related]
    exact kit.enterTrap related _
  · exact .thrown related

theorem execute (h : Host) (related : R m n) (reads : ∀ addr, m.loads i = some addr → safe addr)
    (writes : ∀ addr, m.storesTo i = some addr → isOpen addr) :
    Agree (Excused exact) (Timing exact) R (execute h i m) (execute h i n) := by
  unfold Novium.execute
  cases opcode : i.opcode with
  | none => exact kit.illegal related
  | some op =>
    apply (kit.handler h related opcode reads writes).bind
    intro cycles cycles' m n timing related
    exact .ok timing (kit.account related timing op i)

theorem fetch (related : R m n) (reads : ∀ addr, m.fetchAddress = some addr → safe addr) :
    Agree (Excused exact) Eq R (fetch m) (fetch n) := by
  unfold Novium.fetch
  rw [Exec.bind_ok (Exec.get_apply m),Exec.bind_ok (Exec.get_apply n)]
  have advanced : ∀ {m n}, R m n → R m.advancePc n.advancePc := by
    intro m n related
    unfold Machine.advancePc
    rw [kit.regs related]
    exact kit.setPc related _
  cases on : m.mmu.enabled with
  | true =>
    obtain ⟨mmu,csr⟩ := kit.translation related on
    obtain ⟨⟨u,cause,pa⟩,translated,kept⟩ :=
      MMU.translate_total m.mmu (some m.scratchpad) (some m.csr) m.regs.pc false true .none
    have translated' : n.mmu.translate (some n.scratchpad) (some n.csr) n.regs.pc false true (some .none) =
        some ⟨u,cause,pa⟩ := by
      rw [mmu,csr,kit.scratchpad related,kit.regs related]
      exact translated
    have moved : R {m with mmu := u} {n with mmu := u} := kit.withMmu related on u kept
    have pc : n.regs.pc = m.regs.pc := by rw [kit.regs related]
    have size : n.scratchpad.size = m.scratchpad.size := by rw [kit.scratchpad related]
    have word : ∀ pa, n.scratchpad.word pa = m.scratchpad.word pa := by
      intro pa
      rw [kit.scratchpad related]
    rw [mmu,on,if_pos rfl,if_pos rfl,Exec.bind_ok (translate_apply translated),Exec.bind_ok (translate_apply translated')]
    cases pa with
    | none =>
      refine .ok rfl ?_
      dsimp only
      rw [pc]
      exact kit.enterTrap moved _
    | some pa =>
      simp only [Exec.ite_apply,size,word]
      split
      · exact .ok rfl (advanced moved)
      · exact .undefined
  | false =>
    have off := (kit.enabled related).trans on
    simp only [off,kit.regs related,Bool.false_eq_true,if_false]
    apply Agree.bind (kit.busRead related (reads _ (by simp [Machine.fetchAddress,on])))
    intro raw _ m n same related
    subst same
    exact .ok rfl (advanced related)

theorem cycle (h : Host) (related : R m n) (reads : ∀ addr, Touches m addr → safe addr)
    (writes : ∀ addr, Stores m addr → isOpen addr) :
    Agree (Excused exact) Eq R (cycle h m) (cycle h n) := by
  unfold Novium.cycle
  rw [Exec.bind_ok (Exec.get_apply m),Exec.bind_ok (Exec.get_apply n),Exec.bind_ok (Exec.modify_apply _ m),
    Exec.bind_ok (Exec.modify_apply _ n),kit.regs related]
  have address : (saveBefore m).fetchAddress = m.fetchAddress := by
    unfold saveBefore
    split <;> rfl
  refine Agree.bind_ran (kit.fetch (kit.save related) ?_) ?_
  · intro addr read
    rw [address] at read
    exact reads addr (.fetch read)
  · intro i _ pre pre' fetched same related
    subst same
    apply (kit.execute h related (fun addr loaded => reads addr (.load fetched loaded))
      fun addr stored => writes addr (.store fetched stored)).bind
    intro cycles cycles' after after' timing related
    exact .ok rfl (kit.log (kit.tick related) timing _ i)

theorem step (h : Host) (related : R m n)
    (reads : m.regs.halt = false → ∀ addr, Touches m.deliverInterrupt addr → safe addr)
    (writes : m.regs.halt = false → ∀ addr, Stores m.deliverInterrupt addr → isOpen addr) :
    Agree (Excused exact) Eq R (step h m) (step h n) := by
  have halt : n.regs.halt = m.regs.halt := by rw [kit.regs related]
  cases stopped : m.regs.halt with
  | true =>
    rw [step_halted h stopped,step_halted h (halt.trans stopped)]
    exact .ok rfl related
  | false =>
    rw [step_running h stopped,step_running h (halt.trans stopped)]
    exact kit.cycle h (kit.deliver related) (reads stopped) (writes stopped)

theorem replay (h : Host) (related : R m n) (reads : ∀ addr, m.advancePc.loads i = some addr → safe addr)
    (writes : ∀ addr, m.advancePc.storesTo i = some addr → isOpen addr) :
    Agree (Excused exact) Eq R (replay h i m) (replay h i n) := by
  unfold Novium.replay
  rw [Exec.bind_ok (Exec.modify_apply _ m),Exec.bind_ok (Exec.modify_apply _ n)]
  have advanced : R m.advancePc n.advancePc := by
    unfold Machine.advancePc
    rw [kit.regs related]
    exact kit.setPc related _
  apply (kit.execute h advanced reads writes).bind
  intro _ _ after after' _ related
  exact .ok rfl (kit.tick related)

theorem live (related : R m n) : n.live = m.live := by
  unfold Machine.live
  rw [kit.regs related,kit.debugger related]

end Lockstep

-- The same stage of two calls of `run`, or of `run_fast` with the same blocks cached.
inductive RunConfig.Alike (R : Machine → Machine → Prop) : RunConfig → RunConfig → Prop where
  | loop : R m n → Alike R (.loop m) (.loop n)
  | done : R m n → Alike R (.done m) (.done n)
  | thrown : R m n → Alike R (.thrown err m) (.thrown err n)
  | undefined : Alike R (.undefined why) (.undefined why)

inductive FastConfig.Alike (R : Machine → Machine → Prop) : FastConfig → FastConfig → Prop where
  | loop : R m n → Alike R (.loop ⟨m,cache⟩) (.loop ⟨n,cache⟩)
  | block : R m n → Alike R (.block ⟨m,cache⟩ blk i) (.block ⟨n,cache⟩ blk i)
  | done : R m n → Alike R (.done ⟨m,cache⟩) (.done ⟨n,cache⟩)
  | thrown : R m n → Alike R (.thrown err ⟨m,cache⟩) (.thrown err ⟨n,cache⟩)
  | undefined : Alike R (.undefined why) (.undefined why)

-- Running two emulators side by side in each of the three ways the host can.
structure RunAlike (h : Host) (R : Machine → Machine → Prop) (a b : Emulator) (n : Nat) : Prop where
  step : Outcome.Agree (fun _ => False) Eq R (Exec.calls (step h) n a.core) (Exec.calls (step h) n b.core)
  run : Option.Rel (RunConfig.Alike R) (after (runNext h) n (.loop a.core)) (after (runNext h) n (.loop b.core))
  runFast : Option.Rel (FastConfig.Alike R) (after (fastNext h) n (.loop a)) (after (fastNext h) n (.loop b))

namespace Lockstep
open Outcome
variable {R : Machine → Machine → Prop} (kit : Lockstep true (fun _ => True) (fun _ => True) R)
include kit

omit kit in
theorem alike_ofStep {o p : Outcome EmulatorError Hazard Machine Unit} (agree : Agree (Excused true) Eq R o p) :
    (RunConfig.ofStep o).Alike R (.ofStep p) := by
  cases agree with
  | ok _ related => exact .loop related
  | thrown related => exact .thrown related
  | undefined => exact .undefined
  | left excused => cases excused.1
  | right excused => cases excused.1

theorem runNext (h : Host) {c d : RunConfig} (alike : c.Alike R d) :
    Option.Rel (RunConfig.Alike R) (runNext h c) (runNext h d) := by
  cases alike with
  | done => exact .none
  | thrown => exact .none
  | undefined => exact .none
  | @loop m n related =>
    unfold Novium.runNext
    dsimp only
    rw [kit.live related]
    cases m.live with
    | true => exact .some (alike_ofStep (kit.step h related (fun _ _ _ => trivial) fun _ _ _ => trivial))
    | false => exact .some (.done (kit.flush related))

omit kit in
theorem alike_ofReplay {cache : BlockCache} {o p : Outcome EmulatorError Hazard Machine Unit}
    {continued : Emulator → FastConfig} (agree : Agree (Excused true) Eq R o p)
    (goes : ∀ {m n}, R m n → (continued ⟨m,cache⟩).Alike R (continued ⟨n,cache⟩)) :
    (FastConfig.ofReplay cache continued o).Alike R (.ofReplay cache continued p) := by
  cases agree with
  | ok _ related => exact goes related
  | thrown related => exact .thrown related
  | undefined => exact .undefined
  | left excused => cases excused.1
  | right excused => cases excused.1

theorem fastNext (h : Host) {c d : FastConfig} (alike : c.Alike R d) :
    Option.Rel (FastConfig.Alike R) (fastNext h c) (fastNext h d) := by
  cases alike with
  | done => exact .none
  | thrown => exact .none
  | undefined => exact .none
  | @loop m n cache related =>
    unfold Novium.fastNext
    dsimp only
    rw [kit.live related,kit.verbose related,kit.scratchpad related,kit.regs related]
    refine .some ?_
    split
    · split
      · exact alike_ofReplay (kit.step h related (fun _ _ _ => trivial) fun _ _ _ => trivial) .loop
      · split
        · exact .block related
        · exact .thrown related
    · exact .done (kit.flush related)
  | @block m n cache blk i related =>
    unfold Novium.fastNext
    dsimp only
    refine .some ?_
    split
    · exact .loop related
    · rename_i ins op
      rw [kit.live related]
      split
      · apply alike_ofReplay (kit.replay h related (fun _ _ => trivial) fun _ _ => trivial)
        intro m n related
        split
        · exact .loop related
        · exact .block related
      · exact .loop related

theorem runs (h : Host) {a b : Emulator} (core : R a.core b.core) (cache : b.blockCache = a.blockCache) (n : Nat) :
    RunAlike h R a b n := by
  refine ⟨?_,after_rel (fun _ _ => kit.runNext h) (.loop core) n,?_⟩
  · refine (Agree.calls (fun _ _ related => kit.step h related (fun _ _ _ => trivial) fun _ _ _ => trivial) core n).mono ?_
      (fun _ _ same => same) (fun _ _ related => related)
    intro why excused
    cases excused.1
  · obtain ⟨m,blocks⟩ := a
    obtain ⟨m',blocks'⟩ := b
    cases cache
    exact after_rel (fun _ _ => kit.fastNext h) (.loop core) n

end Lockstep

theorem RunConfig.Alike.mono {R R' : Machine → Machine → Prop} {c d : RunConfig} (alike : c.Alike R d)
    (weaker : ∀ m n, R m n → R' m n) : c.Alike R' d := by
  cases alike with
  | loop related => exact .loop (weaker _ _ related)
  | done related => exact .done (weaker _ _ related)
  | thrown related => exact .thrown (weaker _ _ related)
  | undefined => exact .undefined

theorem FastConfig.Alike.mono {R R' : Machine → Machine → Prop} {c d : FastConfig} (alike : c.Alike R d)
    (weaker : ∀ m n, R m n → R' m n) : c.Alike R' d := by
  cases alike with
  | loop related => exact .loop (weaker _ _ related)
  | block related => exact .block (weaker _ _ related)
  | done related => exact .done (weaker _ _ related)
  | thrown related => exact .thrown (weaker _ _ related)
  | undefined => exact .undefined

theorem RunAlike.mono {h : Host} {R R' : Machine → Machine → Prop} {a b : Emulator} {n : Nat} (alike : RunAlike h R a b n)
    (weaker : ∀ m n, R m n → R' m n) : RunAlike h R' a b n where
  step := alike.step.mono (fun _ excused => excused) (fun _ _ same => same) weaker
  run := rel_mono alike.run fun _ _ same => same.mono weaker
  runFast := rel_mono alike.runFast fun _ _ same => same.mono weaker

-- A machine beside one with another acceleration flag and another RAM behind its window.
def Machine.overlay (m : Machine) (on : Bool) (ram : Option ByteStore) : Machine := {m with accel := on,shared := ram}

inductive Overlaid (V : Interconnect → Bool × Option ByteStore → Bool × Option ByteStore → Prop) (m : Machine) : Machine → Prop where
  | overlay (on : Bool) (ram : Option ByteStore) : V m.axi (m.accel,m.shared) (on,ram) → Overlaid V m (m.overlay on ram)

-- What is asked of the two sides: the fabric may move on under them, and the bus takes the
-- addresses it is asked about to the same place.
structure Overlays (safe isOpen : Word → Prop) (V : Interconnect → Bool × Option ByteStore → Bool × Option ByteStore → Prop) : Prop where
  issue : V x a b → x.issue t now = some (y,accepted) → V y a b
  tick : V x a b → ∀ cycles, V (x.tick cycles) a b
  reads : ∀ m : Machine, V m.axi (m.accel,m.shared) (on,ram) → safe addr → Routes addr m (m.overlay on ram)
  writes : ∀ m : Machine, V m.axi (m.accel,m.shared) (on,ram) → isOpen addr → Routes addr m (m.overlay on ram)
  shared : ∀ m : Machine, V m.axi (m.accel,m.shared) (on,ram) → isOpen addr → m.deviceAt addr = some .shared → ∀ s, V m.axi (m.accel,s) (on,s)

section Overlay
variable {safe isOpen : Word → Prop} {V : Interconnect → Bool × Option ByteStore → Bool × Option ByteStore → Prop}

theorem overlay_tick (m : Machine) (on : Bool) (ram : Option ByteStore) :
    (m.overlay on ram).tickPeripherals = m.tickPeripherals.overlay on ram := by
  have commutes : Function.Semiconj (Machine.overlay · on ram) Machine.tickOnce Machine.tickOnce := fun _ => rfl
  exact (commutes.iterate_right _ m).symm

theorem Overlays.tickPeripherals (overlays : Overlays safe isOpen V) {m : Machine} {b : Bool × Option ByteStore}
    (holds : V m.axi (m.accel,m.shared) b) : V m.tickPeripherals.axi (m.tickPeripherals.accel,m.tickPeripherals.shared) b := by
  unfold Machine.tickPeripherals
  generalize m.tickAccum.toNat/cyclesPerTick.toNat = passes
  induction passes generalizing m with
  | zero => exact holds
  | succ passes ih =>
    rw [Function.iterate_succ_apply]
    exact ih (m := m.tickOnce) (overlays.tick holds cyclesPerTick)

-- Nothing but the bus and the two vector handlers looks at either.
theorem Overlaid.lockstep (overlays : Overlays safe isOpen V) : Lockstep true safe isOpen (Overlaid V) where
  regs related := by cases related; rfl
  withRegs related r := by cases related with | overlay on ram holds => exact .overlay on ram holds
  scratchpad related := by cases related; rfl
  withScratchpad related s := by cases related with | overlay on ram holds => exact .overlay on ram holds
  mainRam related := by cases related; rfl
  withMainRam related s := by cases related with | overlay on ram holds => exact .overlay on ram holds
  enabled related := by cases related; rfl
  translation related _ := by cases related; exact ⟨rfl,rfl⟩
  withMmu related _ u _ := by cases related with | overlay on ram holds => exact .overlay on ram holds
  vector related := by cases related; rfl
  takeTrap related t := by cases related with | overlay on ram holds => exact .overlay on ram holds
  weight related op func := by cases related; exact .same _ _
  issue := by
    intro m n related addr bytes isWrite
    cases related with
    | overlay on ram holds =>
      have same : (m.overlay on ram).axi.issue ⟨0,addr,bytes,isWrite,(m.overlay on ram).profiler.cycleCount,0,.axi4⟩
          (m.overlay on ram).profiler.cycleCount =
          m.axi.issue ⟨0,addr,bytes,isWrite,m.profiler.cycleCount,0,.axi4⟩ m.profiler.cycleCount := rfl
      rw [Handlers.issueAxi_apply,Handlers.issueAxi_apply,same]
      cases answer : m.axi.issue ⟨0,addr,bytes,isWrite,m.profiler.cycleCount,0,.axi4⟩ m.profiler.cycleCount with
      | none => exact .undefined
      | some result => exact .ok (.same _ _) (.overlay on ram (overlays.issue holds answer))
  stall := by
    intro m n a b related timing
    cases timing rfl
    cases related with
    | overlay on ram holds => cases a <;> exact .overlay on ram holds
  busRead := by
    intro m n addr related permitted
    cases related with
    | overlay on ram holds =>
      exact busRead_agree (.overlay on ram holds) (overlays.reads m holds permitted) rfl rfl fun _ => ⟨rfl,fun _ => .overlay on ram holds⟩
  busWrite := by
    intro m n addr related permitted value
    cases related with
    | overlay on ram holds =>
      exact busWrite_agree (.overlay on ram holds) (overlays.writes m holds permitted) rfl (fun _ => .overlay on ram holds)
        (fun found s => .overlay on s (overlays.shared m holds permitted found s)) (fun _ => .overlay on ram holds) fun _ => .overlay on ram holds
  account related timing op i := by
    cases timing rfl
    cases related with
    | overlay on ram holds => exact .overlay on ram holds
  tick related := by
    cases related with
    | overlay on ram holds =>
      rw [overlay_tick]
      exact .overlay on ram (overlays.tickPeripherals holds)
  deliver := by
    intro m n related
    cases related with
    | overlay on ram holds =>
      have pending : (m.overlay on ram).pendingInterrupt = m.pendingInterrupt := rfl
      unfold Machine.deliverInterrupt
      rw [pending]
      cases m.pendingInterrupt <;> exact .overlay on ram holds
  save := by
    intro m n related
    cases related with
    | overlay on ram holds =>
      have verbose : (m.overlay on ram).verbose = m.verbose := rfl
      unfold saveBefore
      rw [verbose]
      cases m.verbose <;> exact .overlay on ram holds
  log := by
    intro m n a b related timing pc i
    cases timing rfl
    cases related with
    | overlay on ram holds =>
      have verbose : (m.overlay on ram).verbose = m.verbose := rfl
      unfold logStep
      rw [verbose]
      cases m.verbose <;> exact .overlay on ram holds
  verbose related := by cases related; rfl
  debugger related := by cases related; rfl
  flush related := by cases related with | overlay on ram holds => exact .overlay on ram holds

end Overlay

-- A machine in step with itself: what the primitives keep of the fabric and of the RAM
-- behind the window, every instruction keeps.
inductive Keeping (P : Interconnect → Option ByteStore → Prop) (m : Machine) : Machine → Prop where
  | same : P m.axi m.shared → Keeping P m m

-- What is asked of such a property.
structure Kept (isOpen : Word → Prop) (P : Interconnect → Option ByteStore → Prop) : Prop where
  issue : P x s → x.issue t now = some (y,accepted) → P y s
  tick : P x s → ∀ cycles, P (x.tick cycles) s
  write : ∀ m : Machine, P m.axi m.shared → isOpen addr → m.deviceAt addr = some .shared → ∀ ram, P m.axi ram

theorem Keeping.overlaid (P : Interconnect → Option ByteStore → Prop) : Keeping P = Overlaid fun x a b => b = a ∧ P x a.2 := by
  funext m n
  refine propext ⟨?_,?_⟩
  · intro keeping
    cases keeping with
    | same holds => exact .overlay m.accel m.shared ⟨rfl,holds⟩
  · intro related
    cases related with
    | overlay on ram holds =>
      obtain ⟨same,holds⟩ := holds
      cases same
      exact .same holds

theorem Keeping.lockstep {isOpen : Word → Prop} {P : Interconnect → Option ByteStore → Prop} (kept : Kept isOpen P) :
    Lockstep true (fun _ => True) isOpen (Keeping P) := by
  rw [Keeping.overlaid]
  refine Overlaid.lockstep ⟨?_,?_,?_,?_,?_⟩
  · rintro x a b t now y accepted ⟨same,holds⟩ issued
    exact ⟨same,kept.issue holds issued⟩
  · rintro x a b ⟨same,holds⟩ cycles
    exact ⟨same,kept.tick holds cycles⟩
  · rintro on ram addr m ⟨same,_⟩ _
    exact .of_shared (congrArg Prod.snd same)
  · rintro on ram addr m ⟨same,_⟩ _
    exact .of_shared (congrArg Prod.snd same)
  · rintro on ram addr m ⟨same,holds⟩ permitted found s
    obtain ⟨flag,_⟩ := Prod.mk.inj same
    exact ⟨Prod.ext flag rfl,kept.write m holds permitted found s⟩

theorem kept_of_agree {P : Interconnect → Option ByteStore → Prop} {α : Type} {V : α → α → Prop}
    {o p : Outcome EmulatorError Hazard Machine α} (agree : Outcome.Agree (Excused true) V (Keeping P) o p) :
    o.Sat (fun _ m' => P m'.axi m'.shared) (fun _ m' => P m'.axi m'.shared) (fun _ => True) := by
  have holds : ∀ {a b : Machine}, Keeping P a b → P a.axi a.shared := by
    intro a b related
    cases related with
    | same holds => exact holds
  cases agree with
  | ok _ related => exact holds related
  | thrown related => exact holds related
  | undefined => trivial
  | left excused => trivial
  | right excused => cases excused.1

end Novium
