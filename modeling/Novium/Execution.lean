import Novium.Handlers
import Novium.PageTables

namespace Novium
open Storage Effects

structure Control where
  csr : CSRFile
  intc : InterruptController
  mmuEnabled : Bool
  simpleMap : List SimpleMap
  debugger : Debugger
  target : TargetProfile
  accel : Bool
  verbose : Bool
  lastPc : Word
  lastGpr : Fin numGpr → Word
  scratchpadSize : Nat
  mainRamSize : Nat
  sharedSize : Option Nat

namespace Machine

def control (m : Machine) : Control :=
  ⟨m.csr,m.intc,m.mmu.enabled,m.mmu.simpleMap,m.debugger,m.target,m.accel,m.verbose,m.lastPc,m.lastGpr,
    m.scratchpad.size,m.mainRam.size,m.shared.map ByteStore.size⟩

theorem control_withMmu {m : Machine} {u : MMU} (kept : MMU.Kept m.mmu u) :
    ({m with mmu := u} : Machine).control = m.control := by
  simp only [control,kept.1,kept.2]

def dataVa (m : Machine) (i : Instruction) : Option Word := (m.regs.readGpr i.ra.toNat).map (· + i.simm16)

-- The address a data access is given by the MMU, and the MMU after it.
def resolved (m : Machine) (va : Word) (isWrite : Bool) : Option Word × MMU :=
  if m.mmu.enabled then
    match m.mmu.translate (some m.scratchpad) (some m.csr) va isWrite false (some .none) with
    | some t => (t.pa,t.mmu)
    | none => (none,m.mmu)
  else (some va,m.mmu)

def afterResolve (m : Machine) (va : Word) (isWrite : Bool) : Machine := {m with mmu := (m.resolved va isWrite).2}

theorem resolved_kept (m : Machine) (va : Word) (isWrite : Bool) : MMU.Kept m.mmu (m.resolved va isWrite).2 := by
  unfold resolved
  split
  · split
    · rename_i t translated
      obtain ⟨t',same,kept⟩ := MMU.translate_total m.mmu (some m.scratchpad) (some m.csr) va isWrite false .none
      rw [translated] at same
      cases Option.some.inj same
      exact kept
    · exact ⟨rfl,rfl⟩
  · exact ⟨rfl,rfl⟩

theorem resolved_off {m : Machine} (off : m.mmu.enabled = false) (va : Word) (isWrite : Bool) :
    m.resolved va isWrite = (some va,m.mmu) := by
  simp [resolved,off]

def issues (m : Machine) : Bool :=
  m.axi.cfg.maxOutstanding.toNat ≤ m.axi.pending.length || m.axi.cfg.dataWidth*m.axi.cfg.burstLen != 0

def axiFull (m : Machine) : Bool := m.axi.cfg.maxOutstanding.toNat ≤ m.axi.pending.length

def addressable (m : Machine) (addr : Word) : Bool :=
  match m.deviceAt addr with
  | some .shared => m.shared.any fun ram => (addr-0x80000000).toNat+4 ≤ ram.size
  | some _ => true
  | none => addr.toNat+4 ≤ m.scratchpad.size

def busWord (m : Machine) (addr : Word) : Word :=
  match m.deviceAt addr with
  | some .timer => (m.timer.readReg (addr-mmioBase)).2
  | some .uart => m.uart.readReg (addr-mmioBase-uartBase)
  | some .shared => (m.shared.map fun ram => ram.word (addr-0x80000000).toNat).getD 0
  | none => m.scratchpad.word addr.toNat

def busTimer (m : Machine) (addr : Word) : TimerDevice :=
  if m.deviceAt addr = some .timer then (m.timer.readReg (addr-mmioBase)).1 else m.timer

@[simp] theorem afterResolve_control (m : Machine) (va : Word) (isWrite : Bool) :
    (m.afterResolve va isWrite).control = m.control := control_withMmu (m.resolved_kept va isWrite)

end Machine

namespace Handlers

theorem resolve_apply (va : Word) (isWrite : Bool) (m : Machine) :
    resolve va isWrite m = .ok (m.resolved va isWrite).1 (m.afterResolve va isWrite) := by
  unfold resolve Machine.afterResolve Machine.resolved
  rw [Exec.bind_apply,Exec.get_apply]
  dsimp only
  rw [Exec.ite_apply]
  split
  · obtain ⟨t,translated,_⟩ := MMU.translate_total m.mmu (some m.scratchpad) (some m.csr) va isWrite false .none
    simp [translate,Exec.bind_apply,translated]
  · rfl

theorem sat_onRegs {α : Type} {x : OnRegs α} {m : Machine} {Q : α → Machine → Prop}
    {E : EmulatorError → Machine → Prop} {U : Hazard → Prop} :
    Outcome.Sat Q E U (onRegs x m) ↔ Outcome.Sat (fun a r => Q a {m with regs := r})
      (fun e r => E e {m with regs := r}) U (x m.regs) := Exec.sat_within

theorem sat_ofOption {α σ : Type} {why : Hazard} {o : Option α} {s : σ} {Q : α → σ → Prop}
    {E : EmulatorError → σ → Prop} {U : Hazard → Prop} :
    Outcome.Sat Q E U ((Exec.ofOption why o : Exec EmulatorError Hazard σ α) s) ↔
      (∀ a, o = some a → Q a s) ∧ (o = none → U why) := by
  cases o with
  | none => simp
  | some a => simp

theorem sat_readGpr {idx : BitVec 5} {r : RegisterFile} {Q : Word → RegisterFile → Prop}
    {E : EmulatorError → RegisterFile → Prop} {U : Hazard → Prop} :
    Outcome.Sat Q E U (readGpr idx r) ↔
      (∀ v, r.readGpr idx.toNat = some v → Q v r) ∧ (r.readGpr idx.toNat = none → U .registerIndex) := by
  simp only [readGpr,Exec.sat_bind,Exec.get_apply,Outcome.sat_ok,sat_ofOption]

theorem sat_writeGpr {idx : BitVec 5} {value : Word} {r : RegisterFile} {Q : Unit → RegisterFile → Prop}
    {E : EmulatorError → RegisterFile → Prop} {U : Hazard → Prop} :
    Outcome.Sat Q E U (writeGpr idx value r) ↔ (∀ r', r.writeGpr idx.toNat value = some r' → Q () r') ∧
      (r.writeGpr idx.toNat value = none → U .registerIndex) := by
  simp only [writeGpr,Exec.sat_bind,Exec.get_apply,Exec.modify_apply,Outcome.sat_ok,sat_ofOption]

theorem sat_vr {idx : BitVec 5} {r : RegisterFile} {Q : Fin numVr → RegisterFile → Prop}
    {E : EmulatorError → RegisterFile → Prop} {U : Hazard → Prop} :
    Outcome.Sat Q E U (vr idx r) ↔ (∀ k, RegisterFile.vrIndex idx.toNat = some k → Q k r) ∧
      (RegisterFile.vrIndex idx.toNat = none → U .registerIndex) := by
  simp only [vr,sat_ofOption]

-- A register handler that is not a branch leaves the pc where the fetch put it,
-- and one that throws has written nothing.
def KeepsPc (x : OnRegs Word) (r : RegisterFile) : Prop :=
  Outcome.Sat (fun _ r' => r'.pc = r.pc) (fun _ r' => r' = r) (fun _ => True) (x r)

theorem writeGpr_pc {r r' : RegisterFile} {idx : Nat} {value : Word} (wrote : r.writeGpr idx value = some r') :
    r'.pc = r.pc := by
  rw [RegisterFile.writeGpr_frame wrote]

theorem arith_keepsPc (op : Opcode) (f : Word → Word → Word) (overflow : Word → Word → Word → Bool)
    (i : Instruction) (r : RegisterFile) : KeepsPc (arith op f overflow i) r := by
  simp only [KeepsPc,arith,Exec.sat_bind,sat_readGpr,sat_writeGpr,Exec.modify_apply,Exec.pure_apply,
    Outcome.sat_ok,implies_true,and_true]
  intro a _ b _ r' wrote
  change r'.pc = r.pc
  exact writeGpr_pc wrote

theorem opMov_keepsPc (i : Instruction) (r : RegisterFile) : KeepsPc (opMov i) r := by
  simp only [KeepsPc,opMov,Exec.sat_bind,sat_readGpr,sat_writeGpr,Exec.pure_apply,Outcome.sat_ok,
    implies_true,and_true]
  intro value _ r' wrote
  exact writeGpr_pc wrote

theorem opMovi_keepsPc (i : Instruction) (r : RegisterFile) : KeepsPc (opMovi i) r := by
  simp only [KeepsPc,opMovi,Exec.sat_bind,sat_writeGpr,Exec.pure_apply,Outcome.sat_ok,implies_true,and_true]
  intro r' wrote
  exact writeGpr_pc wrote

theorem opVecAdd_keepsPc (h : Host) (accel : Bool) (target : TargetProfile) (i : Instruction)
    (r : RegisterFile) : KeepsPc (opVecAdd h accel target i) r := by
  simp only [KeepsPc,opVecAdd,Exec.sat_bind,sat_vr,Exec.modify_apply,Exec.pure_apply,Outcome.sat_ok,
    implies_true,and_true]

theorem opMatmulTile_keepsPc (h : Host) (accel : Bool) (target : TargetProfile) (i : Instruction)
    (r : RegisterFile) : KeepsPc (opMatmulTile h accel target i) r := by
  simp only [KeepsPc,opMatmulTile,Exec.ite_apply]
  split
  · simp only [Exec.throw_apply,Outcome.sat_thrown]
  · simp only [Exec.sat_bind,sat_vr,Exec.modify_apply,Exec.pure_apply,Outcome.sat_ok,implies_true,and_true]

theorem sat_resolve {va : Word} {isWrite : Bool} {m : Machine} {Q : Option Word → Machine → Prop}
    {E : EmulatorError → Machine → Prop} {U : Hazard → Prop} :
    Outcome.Sat Q E U (resolve va isWrite m) ↔ Q (m.resolved va isWrite).1 (m.afterResolve va isWrite) := by
  rw [resolve_apply,Outcome.sat_ok]

section Accesses
variable {addr bytes : Word} {isWrite : Bool} {m : Machine}

theorem issueAxi_issued (addr bytes : Word) (isWrite : Bool) (issues : m.issues = true) :
    ∃ axi, issueAxi addr bytes isWrite m = .ok (!m.axiFull) {m with axi := axi} ∧ axi.cfg = m.axi.cfg := by
  unfold Machine.issues at issues
  simp only [issueAxi,Exec.bind_apply,Exec.get_apply,Interconnect.issue,Machine.axiFull]
  by_cases full : m.axi.cfg.maxOutstanding.toNat ≤ m.axi.pending.length
  · rw [if_pos full,decide_eq_true full]
    exact ⟨_,rfl,rfl⟩
  · have burst : ¬ m.axi.cfg.dataWidth*m.axi.cfg.burstLen = 0 := by simpa [full] using issues
    rw [if_neg full,if_neg burst,decide_eq_false full]
    exact ⟨_,rfl,rfl⟩

theorem issueAxi_stuck (stuck : m.issues = false) : issueAxi addr bytes isWrite m = .undefined .zeroBurst := by
  simp only [Machine.issues,Bool.or_eq_false_iff,decide_eq_false_iff_not,bne_eq_false_iff_eq] at stuck
  obtain ⟨room,zero⟩ := stuck
  simp only [issueAxi,Exec.bind_apply,Exec.get_apply,Interconnect.issue,if_neg room,if_pos zero]
  rfl

theorem sat_issueAxi_answer {Q : Bool → Machine → Prop} {E : EmulatorError → Machine → Prop} {U : Hazard → Prop}
    (issued : m.issues = true → ∀ axi, Q (!m.axiFull) {m with axi := axi}) (stuck : m.issues = false → U .zeroBurst) :
    Outcome.Sat Q E U (issueAxi addr bytes isWrite m) := by
  cases issues : m.issues with
  | true =>
    obtain ⟨axi,ran,_⟩ := issueAxi_issued addr bytes isWrite issues
    rw [ran]
    exact issued issues axi
  | false =>
    rw [issueAxi_stuck issues]
    exact stuck issues

theorem sat_issueAxi {Q : Bool → Machine → Prop} {E : EmulatorError → Machine → Prop} {U : Hazard → Prop}
    (issued : m.issues = true → ∀ axi accepted, Q accepted {m with axi := axi}) (stuck : m.issues = false → U .zeroBurst) :
    Outcome.Sat Q E U (issueAxi addr bytes isWrite m) :=
  sat_issueAxi_answer (fun issues axi => issued issues axi _) stuck

theorem busRead_answers (reached : m.addressable addr = true) :
    Bus.read32 addr m = .ok (m.busWord addr) {m with timer := m.busTimer addr} := by
  unfold Machine.addressable at reached
  simp only [Bus.read32,Exec.bind_apply,Exec.get_apply,Machine.busWord,Machine.busTimer]
  cases device : m.deviceAt addr with
  | none =>
    have inside : addr.toNat+4 ≤ m.scratchpad.size := by simpa [device] using reached
    simp [VirtualSRAM.read32,inside,liftExcept]
  | some kind =>
    cases kind with
    | timer => rfl
    | uart => rfl
    | shared =>
      obtain ⟨ram,window,inside⟩ : ∃ ram, m.shared = some ram ∧ (addr-0x80000000).toNat+4 ≤ ram.size := by
        simpa only [device,Option.any_eq_true,decide_eq_true_eq] using reached
      change _ = Outcome.ok _ m
      simp only [window,Exec.ite_apply,if_pos inside]
      rfl

theorem busRead_fails (beyond : m.addressable addr = false) :
    (∃ e, Bus.read32 addr m = .thrown e m) ∨ Bus.read32 addr m = .undefined .outOfBounds := by
  unfold Machine.addressable at beyond
  simp only [Bus.read32,Exec.bind_apply,Exec.get_apply]
  cases device : m.deviceAt addr with
  | none =>
    have outside : ¬ addr.toNat+4 ≤ m.scratchpad.size := by simpa [device] using beyond
    exact .inl ⟨_,by simp only [VirtualSRAM.read32,if_neg outside]; rfl⟩
  | some kind =>
    cases kind with
    | timer => simp [device] at beyond
    | uart => simp [device] at beyond
    | shared =>
      cases window : m.shared with
      | none => exact .inr rfl
      | some ram =>
        have outside : ¬ (addr-0x80000000).toNat+4 ≤ ram.size := by simpa [device,window] using beyond
        exact .inr (by simp only [Exec.ite_apply,if_neg outside]; rfl)

theorem sat_busRead {Q : Word → Machine → Prop} {E : EmulatorError → Machine → Prop} {U : Hazard → Prop}
    (answered : m.addressable addr = true → Q (m.busWord addr) {m with timer := m.busTimer addr})
    (rejected : m.addressable addr = false → ∀ e, E e m) (stuck : m.addressable addr = false → U .outOfBounds) :
    Outcome.Sat Q E U (Bus.read32 addr m) := by
  cases reached : m.addressable addr with
  | true =>
    rw [busRead_answers reached]
    exact answered reached
  | false =>
    rcases busRead_fails reached with ⟨e,ran⟩ | ran
    · rw [ran]
      exact rejected reached e
    · rw [ran]
      exact stuck reached

end Accesses

theorem sat_pageFault {va : Word} {isStore : Bool} {m : Machine} {Q : Word → Machine → Prop}
    {E : EmulatorError → Machine → Prop} {U : Hazard → Prop} :
    Outcome.Sat Q E U (pageFault va isStore m) ↔ Q 2 (m.enterTrap (InterruptController.pageFaultTrap
      ((m.regs.pc-4).zeroExtend 64) (va.zeroExtend 64) isStore)) := Iff.rfl

structure BusWrote (m : Machine) (addr value : Word) (m' : Machine) : Prop where
  control : m'.control = m.control
  regs : m'.regs = m.regs
  mainRam : m'.mainRam = m.mainRam
  scratchpad : m'.scratchpad =
    if m.deviceAt addr = none then m.scratchpad.write addr.toNat (wordBytes value) else m.scratchpad

theorem sat_busWrite {addr value : Word} {m : Machine} {Q : Unit → Machine → Prop}
    {E : EmulatorError → Machine → Prop} {U : Hazard → Prop}
    (wrote : m.addressable addr = true → ∀ m', BusWrote m addr value m' → Q () m')
    (rejected : m.addressable addr = false → ∀ e, E e m) (stuck : m.addressable addr = false → U .outOfBounds) :
    Outcome.Sat Q E U (Bus.write32 addr value m) := by
  simp only [Bus.write32,Exec.sat_bind,Exec.get_apply,Outcome.sat_ok]
  cases device : m.deviceAt addr with
  | none =>
    have reach : m.addressable addr = decide (addr.toNat+4 ≤ m.scratchpad.size) := by
      simp only [Machine.addressable,device]
    simp only [Exec.sat_bind,Exec.modify_apply,Outcome.sat_ok,VirtualSRAM.write32,VirtualSRAM.writeBytes]
    split
    · rename_i inside
      exact wrote (reach.trans (decide_eq_true inside)) _ ⟨rfl,rfl,rfl,by simp [device]⟩
    · rename_i outside
      exact rejected (reach.trans (decide_eq_false outside)) _
  | some kind =>
    cases kind with
    | timer => exact wrote (by simp only [Machine.addressable,device]) _ ⟨rfl,rfl,rfl,by simp [device]⟩
    | uart => exact wrote (by simp only [Machine.addressable,device]) _ ⟨rfl,rfl,rfl,by simp [device]⟩
    | shared =>
      have reach : m.addressable addr = m.shared.any fun ram => (addr-0x80000000).toNat+4 ≤ ram.size := by
        simp only [Machine.addressable,device]
      cases window : m.shared with
      | none =>
        rw [window] at reach
        exact stuck reach
      | some ram =>
        rw [window] at reach
        dsimp only
        rw [Exec.ite_apply]
        split
        · rename_i inside
          exact wrote (reach.trans (decide_eq_true inside)) _
            ⟨by simp [Machine.control,window],rfl,rfl,by simp [device]⟩
        · rename_i outside
          exact stuck (reach.trans (decide_eq_false outside))

end Handlers

namespace Machine

-- The scratchpad bytes an instruction is about to write: start and length. The
-- addresses are those of the state before it, as its handler computes them.
def scratchpadWrites (m : Machine) (i : Instruction) : Option (Nat × Nat) :=
  match i.opcode with
  | some .store => do
    let va ← m.dataVa i
    let addr ← (m.resolved va true).1
    if m.deviceAt addr = none then some (addr.toNat,4) else none
  | some .storeVr => (m.dataVa i).map fun va => (va.toNat,vrByteSize)
  | some .dmaLoad => do
    let va ← m.regs.readGpr i.rd.toNat
    let dest ← (m.resolved va true).1
    return (dest.toNat,(Handlers.dmaCount i).toNat)
  | _ => none

def spares (m : Machine) (i : Instruction) (a : Nat) : Prop :=
  ∀ start count, m.scratchpadWrites i = some (start,count) → a < start ∨ start+count ≤ a

end Machine

structure Retired (op : Opcode) (i : Instruction) (m m' : Machine) : Prop where
  control : m'.control = m.control
  pc : op.endsBlock = false → m'.regs.pc = m.regs.pc
  scratchpad : ∀ a, m.spares i a → m'.scratchpad.byte a = m.scratchpad.byte a

-- Where a handler raises a page fault: the translation that failed, the address
-- it reports, and the MMU as the translations left it.
inductive FaultSite (m : Machine) (i : Instruction) : Opcode → MMU → Word → Bool → Prop where
  | load : m.dataVa i = some va → (m.resolved va false).1 = none →
      FaultSite m i .load (m.resolved va false).2 va false
  | store : m.dataVa i = some va → (m.resolved va true).1 = none →
      FaultSite m i .store (m.resolved va true).2 va true
  | dmaDest : op = .dmaLoad ∨ op = .dmaStore → m.regs.readGpr i.rd.toNat = some dest →
      m.regs.readGpr i.ra.toNat = some src → (m.resolved dest true).1 = none →
      FaultSite m i op ((m.afterResolve dest true).resolved src false).2 dest true
  | dmaLoadSrc : m.regs.readGpr i.rd.toNat = some dest → m.regs.readGpr i.ra.toNat = some src →
      (m.resolved dest true).1 = some pa → ((m.afterResolve dest true).resolved src false).1 = none →
      FaultSite m i .dmaLoad ((m.afterResolve dest true).resolved src false).2 src false
  | dmaStoreSrc : m.regs.readGpr i.rd.toNat = some dest → m.regs.readGpr i.ra.toNat = some src →
      (m.resolved dest true).1 = some pa → ((m.afterResolve dest true).resolved src false).1 = none →
      FaultSite m i .dmaStore ((m.afterResolve dest true).resolved src false).2 src true

def pageFaultOf (m : Machine) (u : MMU) (va : Word) (isStore : Bool) : Machine :=
  ({m with mmu := u} : Machine).enterTrap
    (InterruptController.pageFaultTrap ((m.regs.pc-4).zeroExtend 64) (va.zeroExtend 64) isStore)

-- A handler that throws has changed no register, no memory and no control state.
structure Stopped (m m' : Machine) : Prop where
  control : m'.control = m.control
  regs : m'.regs = m.regs
  scratchpad : m'.scratchpad = m.scratchpad
  mainRam : m'.mainRam = m.mainRam

-- Everything a handler can do, once: it retires, it faults at a fault site, or it throws.
def HandlerEffect (op : Opcode) (i : Instruction) (m : Machine) (o : Outcome EmulatorError Hazard Machine Word) : Prop :=
  o.Sat (fun cycles m' => Retired op i m m' ∨
      ∃ u va isStore, FaultSite m i op u va isStore ∧ cycles = 2 ∧ m' = pageFaultOf m u va isStore)
    (fun _ m' => Stopped m m') (fun _ => True)

namespace Handlers
variable {op : Opcode} {i : Instruction} {m : Machine}

theorem onRegs_effect {x : OnRegs Word}
    (kept : Outcome.Sat (fun _ r' => op.endsBlock = false → r'.pc = m.regs.pc) (fun _ r' => r' = m.regs)
      (fun _ => True) (x m.regs)) : HandlerEffect op i m (onRegs x m) := by
  unfold HandlerEffect
  rw [sat_onRegs]
  refine kept.mono ?_ ?_ (fun _ _ => trivial)
  · intro _ r' pc
    exact .inl ⟨rfl,pc,fun _ _ => rfl⟩
  · intro _ r' same
    subst same
    exact ⟨rfl,rfl,rfl,rfl⟩

theorem keepsPc_effect {x : OnRegs Word} (kept : KeepsPc x m.regs) : HandlerEffect op i m (onRegs x m) :=
  onRegs_effect (kept.mono (fun _ _ pc _ => pc) (fun _ _ same => same) (fun _ _ => trivial))

theorem branch_effect (taken : Word → Word → Bool) (ends : op.endsBlock = true) :
    HandlerEffect op i m (onRegs (branch op taken i) m) := by
  apply onRegs_effect
  simp only [branch,Exec.sat_bind,sat_readGpr,implies_true,and_true]
  intro rs _ rt _
  rw [Exec.ite_apply]
  split
  · simp [ends]
  · simp [ends]

theorem dataVa_of_base {base : Word} (read : m.regs.readGpr i.ra.toNat = some base) :
    m.dataVa i = some (base+i.simm16) := by
  simp [Machine.dataVa,read]

-- One rule for each instruction that reaches memory, so that no caller looks into a handler again.
section Rules
variable {Q : Word → Machine → Prop} {E : EmulatorError → Machine → Prop} {U : Hazard → Prop}

theorem sat_opLoad (missing : U .registerIndex) (unissued : U .zeroBurst)
    (faulted : ∀ va, m.dataVa i = some va → (m.resolved va false).1 = none → Q 2 (pageFaultOf m (m.resolved va false).2 va false))
    (read : ∀ va addr axi, m.dataVa i = some va → (m.resolved va false).1 = some addr →
      (Bus.read32 addr {m.afterResolve va false with axi := axi}).Sat
        (fun value m' => ∀ r, m'.regs.writeGpr i.rd.toNat value = some r → Q (cycleWeight .load 0) {m' with regs := r}) E U) :
    (opLoad i m).Sat Q E U := by
  unfold opLoad
  rw [Exec.sat_bind,sat_onRegs,sat_readGpr]
  refine ⟨?_,fun _ => missing⟩
  intro base found
  have va := dataVa_of_base found
  rw [Exec.sat_bind,sat_resolve]
  cases translated : (m.resolved (base+i.simm16) false).1 with
  | none => exact faulted _ va translated
  | some addr =>
    dsimp only
    rw [Exec.sat_bind]
    refine sat_issueAxi (fun _ axi _ => ?_) (fun _ => unissued)
    rw [Exec.sat_bind]
    refine (read _ addr axi va translated).mono ?_ (fun _ _ thrown => thrown) (fun _ stuck => stuck)
    intro value m' written
    rw [Exec.sat_bind,sat_onRegs,sat_writeGpr]
    exact ⟨written,fun _ => missing⟩

theorem sat_opStore (missing : U .registerIndex) (unissued : U .zeroBurst)
    (faulted : ∀ va, m.dataVa i = some va → (m.resolved va true).1 = none → Q 2 (pageFaultOf m (m.resolved va true).2 va true))
    (written : ∀ va addr value axi, m.dataVa i = some va → (m.resolved va true).1 = some addr → m.regs.readGpr i.rd.toNat = some value →
      (Bus.write32 addr value {m.afterResolve va true with axi := axi}).Sat (fun _ m' => Q (cycleWeight .store 0) m') E U) :
    (opStore i m).Sat Q E U := by
  unfold opStore
  rw [Exec.sat_bind,sat_onRegs,sat_readGpr]
  refine ⟨?_,fun _ => missing⟩
  intro base found
  have va := dataVa_of_base found
  rw [Exec.sat_bind,sat_resolve]
  cases translated : (m.resolved (base+i.simm16) true).1 with
  | none => exact faulted _ va translated
  | some addr =>
    dsimp only
    rw [Exec.sat_bind,sat_onRegs,sat_readGpr]
    refine ⟨?_,fun _ => missing⟩
    intro value source
    rw [Exec.sat_bind]
    refine sat_issueAxi (fun _ axi _ => ?_) (fun _ => unissued)
    rw [Exec.sat_bind]
    exact written _ addr value axi va translated source

theorem sat_opLoadVr (missing : U .registerIndex) (rejected : ∀ err, E err m)
    (loaded : ∀ (addr : Word) (d : Fin numVr), Q (cycleWeight .loadVr 0) {m with regs := {m.regs with
      vr := Function.update m.regs.vr d fun k => m.scratchpad.word (addr.toNat+4*k.val)}}) : (opLoadVr i m).Sat Q E U := by
  unfold opLoadVr
  rw [Exec.sat_bind,sat_onRegs,sat_readGpr]
  refine ⟨?_,fun _ => missing⟩
  intro base _
  rw [Exec.sat_bind,sat_onRegs,sat_vr]
  refine ⟨?_,fun _ => missing⟩
  intro d _
  rw [Exec.sat_bind,Exec.get_apply,Outcome.sat_ok,Exec.ite_apply]
  split
  · exact loaded _ d
  · exact rejected _

theorem sat_opStoreVr (missing : U .registerIndex) (rejected : ∀ err, E err m)
    (stored : ∀ va (source : Fin numVr), m.dataVa i = some va →
      Q (cycleWeight .storeVr 0) {m with scratchpad := m.scratchpad.write va.toNat (vrBytes (m.regs.vr source))}) :
    (opStoreVr i m).Sat Q E U := by
  unfold opStoreVr
  rw [Exec.sat_bind,sat_onRegs,sat_readGpr]
  refine ⟨?_,fun _ => missing⟩
  intro base found
  rw [Exec.sat_bind,sat_onRegs,sat_vr]
  refine ⟨?_,fun _ => missing⟩
  intro source _
  rw [Exec.sat_bind,Exec.get_apply,Outcome.sat_ok,Exec.sat_bind,VirtualSRAM.writeBytes]
  split
  · exact stored _ source (dataVa_of_base found)
  · exact rejected _

end Rules

theorem opLoad_effect : HandlerEffect .load i m (opLoad i m) := by
  apply sat_opLoad trivial trivial
  · intro va read translated
    exact .inr ⟨_,_,_,.load read translated,rfl,rfl⟩
  · intro va addr axi read translated
    have same := m.afterResolve_control va false
    refine sat_busRead (fun _ r wrote => ?_) (fun _ _ => ⟨same,rfl,rfl,rfl⟩) (fun _ => trivial)
    exact .inl ⟨same,fun _ => writeGpr_pc wrote,fun _ _ => rfl⟩

theorem opStore_effect (opcode : i.opcode = some .store) : HandlerEffect .store i m (opStore i m) := by
  apply sat_opStore trivial trivial
  · intro va read translated
    exact .inr ⟨_,_,_,.store read translated,rfl,rfl⟩
  · intro va addr value axi read translated _
    have same := m.afterResolve_control va true
    refine sat_busWrite (fun _ m' wrote => ?_) (fun _ _ => ⟨same,rfl,rfl,rfl⟩) (fun _ => trivial)
    refine .inl ⟨wrote.control.trans same,fun _ => by rw [wrote.regs]; rfl,?_⟩
    intro a spared
    rw [wrote.scratchpad]
    split
    · rename_i device
      have target : m.scratchpadWrites i = some (addr.toNat,4) := by
        have ram : m.deviceAt addr = none := device
        simp [Machine.scratchpadWrites,opcode,read,translated,ram]
      exact ByteStore.write_outside _ _ _ _ (spared _ _ target)
    · rfl

theorem opLoadVr_effect : HandlerEffect .loadVr i m (opLoadVr i m) :=
  sat_opLoadVr trivial (fun _ => ⟨rfl,rfl,rfl,rfl⟩) fun _ _ => .inl ⟨rfl,fun _ => rfl,fun _ _ => rfl⟩

theorem vrBytes_length (lanes : Fin vecWidth → Word) : (vrBytes lanes).length = vrByteSize := by
  simp [vrBytes,wordBytes,List.length_flatMap,vecWidth,vrByteSize]

theorem opStoreVr_effect (opcode : i.opcode = some .storeVr) : HandlerEffect .storeVr i m (opStoreVr i m) := by
  apply sat_opStoreVr trivial (fun _ => ⟨rfl,rfl,rfl,rfl⟩)
  intro va source read
  refine .inl ⟨rfl,fun _ => rfl,?_⟩
  intro a spared
  have target : m.scratchpadWrites i = some (va.toNat,vrByteSize) := by
    simp [Machine.scratchpadWrites,opcode,read]
  apply ByteStore.write_outside
  rw [vrBytes_length]
  exact spared _ _ target

end Handlers

def Machine.dmaDest (m : Machine) (op : Opcode) : ByteStore := if op = .dmaLoad then m.scratchpad else m.mainRam
def Machine.dmaSrc (m : Machine) (op : Opcode) : ByteStore := if op = .dmaLoad then m.mainRam else m.scratchpad

def Opcode.isDma (op : Opcode) : Prop := op = .dmaLoad ∨ op = .dmaStore

-- The operands of a DMA instruction whose registers exist and whose first bytes translate.
-- The source is translated after the destination, and may find its TLB entry.
structure DmaSite (m : Machine) (i : Instruction) where
  destVa : Word
  srcVa : Word
  dest : Word
  src : Word
  readDest : m.regs.readGpr i.rd.toNat = some destVa
  readSrc : m.regs.readGpr i.ra.toNat = some srcVa
  translatedDest : (m.resolved destVa true).1 = some dest
  translatedSrc : ((m.afterResolve destVa true).resolved srcVa false).1 = some src

namespace DmaSite
variable {m : Machine} {i : Instruction}

theorem unique (s t : DmaSite m i) : s = t := by
  obtain ⟨destVa,srcVa,dest,src,readDest,readSrc,translatedDest,translatedSrc⟩ := s
  obtain ⟨destVa',srcVa',dest',src',readDest',readSrc',translatedDest',translatedSrc'⟩ := t
  cases readDest.symm.trans readDest'
  cases readSrc.symm.trans readSrc'
  cases translatedDest.symm.trans translatedDest'
  cases translatedSrc.symm.trans translatedSrc'
  rfl

def Admitted (s : DmaSite m i) (op : Opcode) : Prop :=
  (s.dest+Handlers.dmaCount i).toNat ≤ (m.dmaDest op).size ∧ (s.src+Handlers.dmaCount i).toNat ≤ (m.dmaSrc op).size

def Inside (s : DmaSite m i) (op : Opcode) : Prop :=
  s.dest.toNat+(Handlers.dmaCount i).toNat ≤ (m.dmaDest op).size ∧ s.src.toNat+(Handlers.dmaCount i).toNat ≤ (m.dmaSrc op).size

def mmu (s : DmaSite m i) : MMU := ((m.afterResolve s.destVa true).resolved s.srcVa false).2

-- The machine after the copy. A refused burst of DMA_LOAD is recorded.
def copy (s : DmaSite m i) (op : Opcode) (axi : Interconnect) : Machine :=
  if op = .dmaLoad then
    {m with
      mmu := s.mmu
      axi := axi
      profiler := if m.axiFull then m.profiler.record .dmaLoad 1 0 else m.profiler
      scratchpad := m.scratchpad.write s.dest.toNat (m.mainRam.read s.src.toNat (Handlers.dmaCount i).toNat)}
  else
    {m with
      mmu := s.mmu
      axi := axi
      mainRam := m.mainRam.write s.dest.toNat (m.scratchpad.read s.src.toNat (Handlers.dmaCount i).toNat)}

def ofRegs {dest src : Word} (off : m.mmu.enabled = false) (readDest : m.regs.readGpr i.rd.toNat = some dest)
    (readSrc : m.regs.readGpr i.ra.toNat = some src) : DmaSite m i where
  destVa := dest
  srcVa := src
  dest := dest
  src := src
  readDest := readDest
  readSrc := readSrc
  translatedDest := by rw [m.resolved_off off]
  translatedSrc := by
    have same : m.afterResolve dest true = m := by
      unfold Machine.afterResolve
      rw [m.resolved_off off]
    rw [same,m.resolved_off off]

theorem mmu_kept (s : DmaSite m i) : MMU.Kept m.mmu s.mmu :=
  (m.resolved_kept s.destVa true).trans ((m.afterResolve s.destVa true).resolved_kept s.srcVa false)

end DmaSite

theorem FaultSite.unmapped {m : Machine} {i : Instruction} {op : Opcode} {u : MMU} {va : Word} {isStore : Bool}
    (site : FaultSite m i op u va isStore) (dma : op.isDma) : IsEmpty (DmaSite m i) := by
  constructor
  intro s
  cases site with
  | load => rcases dma with impossible | impossible <;> cases impossible
  | store => rcases dma with impossible | impossible <;> cases impossible
  | dmaDest _ dest _ failed =>
    cases dest.symm.trans s.readDest
    cases failed.symm.trans s.translatedDest
  | dmaLoadSrc dest src _ failed | dmaStoreSrc dest src _ failed =>
    cases dest.symm.trans s.readDest
    cases src.symm.trans s.readSrc
    cases failed.symm.trans s.translatedSrc

-- What is to be shown of a DMA handler: it faults, a test rejects its operands, or it copies.
-- It breaks a rule of the language only without its registers or past both tests.
structure DmaRules (op : Opcode) (i : Instruction) (m : Machine) (Q : Word → Machine → Prop) (E : EmulatorError → Machine → Prop)
    (U : Hazard → Prop) : Prop where
  faulted : ∀ u va isStore, FaultSite m i op u va isStore → Q 2 (pageFaultOf m u va isStore)
  rejected : ∀ s : DmaSite m i, ¬ s.Admitted op → ∀ err, E err {m with mmu := s.mmu}
  copied : ∀ s : DmaSite m i, s.Inside op → ∀ axi,
    Q (profileCycleWeight m.target op ((Handlers.dmaCount i).truncate 16)) (s.copy op axi)
  stuck : (∀ s : DmaSite m i, s.Admitted op) → ∀ why, U why

namespace Handlers
variable {op : Opcode} {i : Instruction} {m : Machine}

section Rules
variable {Q : Word → Machine → Prop} {E : EmulatorError → Machine → Prop} {U : Hazard → Prop}

theorem sat_dma_operands (rules : DmaRules op i m Q E U) {rest : Word → Word → Option Word → Option Word → Emu Word}
    (noDest : ∀ {destVa srcVa : Word} (paSrc : Option Word), m.regs.readGpr i.rd.toNat = some destVa →
      m.regs.readGpr i.ra.toNat = some srcVa → (m.resolved destVa true).1 = none →
      (rest destVa srcVa none paSrc ((m.afterResolve destVa true).afterResolve srcVa false)).Sat Q E U)
    (noSrc : ∀ {destVa srcVa dest : Word}, m.regs.readGpr i.rd.toNat = some destVa →
      m.regs.readGpr i.ra.toNat = some srcVa → (m.resolved destVa true).1 = some dest →
      ((m.afterResolve destVa true).resolved srcVa false).1 = none →
      (rest destVa srcVa (some dest) none ((m.afterResolve destVa true).afterResolve srcVa false)).Sat Q E U)
    (site : ∀ s : DmaSite m i, (rest s.destVa s.srcVa (some s.dest) (some s.src)
      ((m.afterResolve s.destVa true).afterResolve s.srcVa false)).Sat Q E U) :
    ((do
      let destVa ← onRegs (readGpr i.rd)
      let srcVa ← onRegs (readGpr i.ra)
      let paDest ← resolve destVa true
      let paSrc ← resolve srcVa false
      rest destVa srcVa paDest paSrc : Emu Word) m).Sat Q E U := by
  rw [Exec.sat_bind,sat_onRegs,sat_readGpr]
  refine ⟨fun destVa readDest => ?_,fun unread => rules.stuck (fun s => by cases unread.symm.trans s.readDest) _⟩
  rw [Exec.sat_bind,sat_onRegs,sat_readGpr]
  refine ⟨fun srcVa readSrc => ?_,fun unread => rules.stuck (fun s => by cases unread.symm.trans s.readSrc) _⟩
  simp only [Exec.sat_bind,sat_resolve]
  cases translatedDest : (m.resolved destVa true).1 with
  | none => exact noDest _ readDest readSrc translatedDest
  | some dest =>
    cases translatedSrc : ((m.afterResolve destVa true).resolved srcVa false).1 with
    | none => exact noSrc readDest readSrc translatedDest translatedSrc
    | some src => exact site ⟨destVa,srcVa,dest,src,readDest,readSrc,translatedDest,translatedSrc⟩

theorem sat_opDmaLoad (rules : DmaRules .dmaLoad i m Q E U) : (opDmaLoad i m).Sat Q E U := by
  refine sat_dma_operands rules
    (fun _ readDest readSrc unmapped => rules.faulted _ _ _ (.dmaDest (.inl rfl) readDest readSrc unmapped))
    (fun readDest readSrc mapped unmapped => rules.faulted _ _ _ (.dmaLoadSrc readDest readSrc mapped unmapped)) fun s => ?_
  simp only [Exec.sat_bind,Exec.get_apply,Outcome.sat_ok,Exec.ite_apply]
  split
  · rename_i beyond
    exact rules.rejected s (fun admitted => Nat.not_lt.mpr admitted.1 beyond) _
  · rename_i first
    split
    · rename_i beyond
      exact rules.rejected s (fun admitted => Nat.not_lt.mpr admitted.2 beyond) _
    · rename_i second
      have stuck := rules.stuck fun t => t.unique s ▸ ⟨Nat.not_lt.mp first,Nat.not_lt.mp second⟩
      rw [Exec.sat_bind]
      refine sat_issueAxi_answer (fun _ axi => ?_) (fun _ => stuck _)
      have full : ((m.afterResolve s.destVa true).afterResolve s.srcVa false).axiFull = m.axiFull := rfl
      rw [full]
      have copied := fun inside => rules.copied s inside axi
      unfold DmaSite.copy at copied
      rw [if_pos rfl] at copied
      generalize m.axiFull = stalled at copied ⊢
      cases stalled with
      | true =>
        simp only [Bool.not_true,Bool.not_false,if_true,Exec.sat_bind,Exec.modify_apply,Outcome.sat_ok,Exec.ite_apply]
        split
        · rename_i inside
          exact copied inside
        · exact stuck _
      | false =>
        simp only [Bool.not_false,Bool.not_true,Bool.false_eq_true,if_false,Exec.ite_apply]
        split
        · rename_i inside
          exact copied inside
        · exact stuck _

theorem sat_opDmaStore (rules : DmaRules .dmaStore i m Q E U) : (opDmaStore i m).Sat Q E U := by
  refine sat_dma_operands rules
    (fun _ readDest readSrc unmapped => rules.faulted _ _ _ (.dmaDest (.inr rfl) readDest readSrc unmapped))
    (fun readDest readSrc mapped unmapped => rules.faulted _ _ _ (.dmaStoreSrc readDest readSrc mapped unmapped)) fun s => ?_
  simp only [Exec.sat_bind,Exec.get_apply,Outcome.sat_ok,Exec.ite_apply]
  split
  · rename_i beyond
    exact rules.rejected s (fun admitted => Nat.not_lt.mpr admitted.1 beyond) _
  · rename_i first
    split
    · rename_i beyond
      exact rules.rejected s (fun admitted => Nat.not_lt.mpr admitted.2 beyond) _
    · rename_i second
      have stuck := rules.stuck fun t => t.unique s ▸ ⟨Nat.not_lt.mp first,Nat.not_lt.mp second⟩
      rw [Exec.sat_bind]
      refine sat_issueAxi (fun _ axi _ => ?_) (fun _ => stuck _)
      simp only [Exec.ite_apply]
      split
      · rename_i inside
        exact rules.copied s inside axi
      · exact stuck _

theorem sat_dma (h : Host) (dma : op.isDma) (rules : DmaRules op i m Q E U) : (handler h op i m).Sat Q E U := by
  rcases dma with rfl | rfl
  · exact sat_opDmaLoad rules
  · exact sat_opDmaStore rules

end Rules

theorem readGpr_ok {idx : BitVec 5} {value : Word} (read : m.regs.readGpr idx.toNat = some value) :
    onRegs (readGpr idx) m = .ok value m := by
  simp [onRegs,Exec.within,readGpr,Exec.bind_apply,read]

-- Both DMA handlers read their two registers and translate both addresses before
-- they look at either result.
theorem dma_operands {rest : Word → Word → Option Word → Option Word → Emu Word} {dest src : Word}
    (readDest : m.regs.readGpr i.rd.toNat = some dest) (readSrc : m.regs.readGpr i.ra.toNat = some src) :
    (do
      let destVa ← onRegs (readGpr i.rd)
      let srcVa ← onRegs (readGpr i.ra)
      let paDest ← resolve destVa true
      let paSrc ← resolve srcVa false
      rest destVa srcVa paDest paSrc : Emu Word) m =
      rest dest src (m.resolved dest true).1 ((m.afterResolve dest true).resolved src false).1
        ((m.afterResolve dest true).afterResolve src false) := by
  rw [Exec.bind_ok (readGpr_ok readDest),Exec.bind_ok (readGpr_ok readSrc),Exec.bind_ok (resolve_apply ..),
    Exec.bind_ok (resolve_apply ..)]

-- A DMA whose two ranges lie inside their buffers passes the checks that add in 32 bits.
theorem dma_admitted {addr bytes : Word} {size : Nat} (inside : addr.toNat+bytes.toNat ≤ size) : ¬ size < (addr+bytes).toNat := by
  rw [BitVec.toNat_add]
  have wrapped := Nat.mod_le (addr.toNat+bytes.toNat) (2^32)
  omega

theorem opDmaLoad_inside (s : DmaSite m i) (inside : s.Inside .dmaLoad) :
    (m.issues = true ∧ ∃ axi, axi.cfg = m.axi.cfg ∧
        opDmaLoad i m = .ok (profileCycleWeight m.target .dmaLoad ((dmaCount i).truncate 16)) (s.copy .dmaLoad axi)) ∨
      (m.issues = false ∧ opDmaLoad i m = .undefined .zeroBurst) := by
  let before := (m.afterResolve s.destVa true).afterResolve s.srcVa false
  have room : s.dest.toNat+(dmaCount i).toNat ≤ before.scratchpad.size := inside.1
  have source : s.src.toNat+(dmaCount i).toNat ≤ before.mainRam.size := inside.2
  have ran : opDmaLoad i m = _ := dma_operands s.readDest s.readSrc
  rw [s.translatedDest,s.translatedSrc] at ran
  dsimp only at ran
  rw [Exec.bind_ok (Exec.get_apply _),Exec.ite_apply,if_neg (dma_admitted room),Exec.ite_apply,if_neg (dma_admitted source)] at ran
  cases issues : m.issues with
  | false =>
    rw [Exec.bind_apply,issueAxi_stuck (m := before) issues] at ran
    exact .inr ⟨rfl,ran⟩
  | true =>
    obtain ⟨axi,issued,cfg⟩ := issueAxi_issued (m := before) s.dest (dmaCount i) false issues
    refine .inl ⟨rfl,axi,cfg,ran.trans ?_⟩
    rw [Exec.bind_ok issued,show before.axiFull = m.axiFull from rfl,DmaSite.copy,if_pos rfl]
    cases m.axiFull with
    | true =>
      rw [Bool.not_true,Bool.not_false,if_pos rfl,Exec.bind_ok (Exec.modify_apply _ _),Exec.ite_apply,if_pos ⟨room,source⟩]
      rfl
    | false =>
      rw [Bool.not_false,Bool.not_true,if_neg (by decide),Exec.ite_apply,if_pos ⟨room,source⟩]
      rfl

theorem opDmaStore_inside (s : DmaSite m i) (inside : s.Inside .dmaStore) :
    (m.issues = true ∧ ∃ axi, axi.cfg = m.axi.cfg ∧
        opDmaStore i m = .ok (profileCycleWeight m.target .dmaStore ((dmaCount i).truncate 16)) (s.copy .dmaStore axi)) ∨
      (m.issues = false ∧ opDmaStore i m = .undefined .zeroBurst) := by
  let before := (m.afterResolve s.destVa true).afterResolve s.srcVa false
  have room : s.dest.toNat+(dmaCount i).toNat ≤ before.mainRam.size := inside.1
  have source : s.src.toNat+(dmaCount i).toNat ≤ before.scratchpad.size := inside.2
  have ran : opDmaStore i m = _ := dma_operands s.readDest s.readSrc
  rw [s.translatedDest,s.translatedSrc] at ran
  dsimp only at ran
  rw [Exec.bind_ok (Exec.get_apply _),Exec.ite_apply,if_neg (dma_admitted room),Exec.ite_apply,if_neg (dma_admitted source)] at ran
  cases issues : m.issues with
  | false =>
    rw [Exec.bind_apply,issueAxi_stuck (m := before) issues] at ran
    exact .inr ⟨rfl,ran⟩
  | true =>
    obtain ⟨axi,issued,cfg⟩ := issueAxi_issued (m := before) s.src (dmaCount i) true issues
    refine .inl ⟨rfl,axi,cfg,ran.trans ?_⟩
    rw [Exec.bind_ok issued,Exec.ite_apply,if_pos ⟨room,source⟩]
    rfl

theorem dma_inside (h : Host) (s : DmaSite m i) (dma : op.isDma) (inside : s.Inside op) :
    (m.issues = true ∧ ∃ axi, axi.cfg = m.axi.cfg ∧
        handler h op i m = .ok (profileCycleWeight m.target op ((dmaCount i).truncate 16)) (s.copy op axi)) ∨
      (m.issues = false ∧ handler h op i m = .undefined .zeroBurst) := by
  rcases dma with rfl | rfl
  · exact opDmaLoad_inside s inside
  · exact opDmaStore_inside s inside

theorem dma_retires (s : DmaSite m i) (opcode : i.opcode = some op) (dma : op.isDma) (axi : Interconnect) :
    Retired op i m (s.copy op axi) := by
  have same : ((m.afterResolve s.destVa true).afterResolve s.srcVa false).control = m.control := by simp
  rcases dma with rfl | rfl
  · refine ⟨same,fun _ => rfl,?_⟩
    intro a spared
    have target : m.scratchpadWrites i = some (s.dest.toNat,(dmaCount i).toNat) := by
      simp [Machine.scratchpadWrites,opcode,s.readDest,s.translatedDest]
    apply ByteStore.write_outside
    rw [ByteStore.read_length]
    exact spared _ _ target
  · exact ⟨same,fun _ => rfl,fun _ _ => rfl⟩

theorem dma_effect (h : Host) (opcode : i.opcode = some op) (dma : op.isDma) : HandlerEffect op i m (handler h op i m) := by
  refine sat_dma h dma ⟨?_,?_,?_,fun _ _ => trivial⟩
  · intro u va isStore site
    exact .inr ⟨u,va,isStore,site,rfl,rfl⟩
  · intro s _ err
    exact ⟨((m.afterResolve s.destVa true).afterResolve_control s.srcVa false).trans (m.afterResolve_control s.destVa true),rfl,rfl,rfl⟩
  · intro s _ axi
    exact .inl (dma_retires s opcode dma axi)

end Handlers

open Handlers

theorem handler_effect (h : Host) {op : Opcode} {i : Instruction} (m : Machine) (opcode : i.opcode = some op) :
    HandlerEffect op i m (handler h op i m) := by
  cases op with
  | nop => exact keepsPc_effect rfl
  | halt => exact keepsPc_effect rfl
  | jmp => exact onRegs_effect (fun impossible => nomatch impossible)
  | beq => exact branch_effect _ rfl
  | bne => exact branch_effect _ rfl
  | add => exact keepsPc_effect (arith_keepsPc ..)
  | sub => exact keepsPc_effect (arith_keepsPc ..)
  | mul => exact keepsPc_effect (arith_keepsPc ..)
  | load => exact opLoad_effect
  | store => exact opStore_effect opcode
  | mov => exact keepsPc_effect (opMov_keepsPc i _)
  | movi => exact keepsPc_effect (opMovi_keepsPc i _)
  | loadVr => exact opLoadVr_effect
  | storeVr => exact opStoreVr_effect opcode
  | vecAdd => exact keepsPc_effect (opVecAdd_keepsPc h _ _ i _)
  | matmulTile => exact keepsPc_effect (opMatmulTile_keepsPc h _ _ i _)
  | dmaLoad => exact dma_effect h opcode (.inl rfl)
  | dmaStore => exact dma_effect h opcode (.inr rfl)

-- The synchronous traps an instruction can take: the trap and the MMU behind it.
inductive TrapSite (m : Machine) (i : Instruction) : MMU → Trap → Prop where
  | illegal : i.opcode = none → m.csr.mtvec ≠ 0 →
      TrapSite m i m.mmu (InterruptController.illegalInstTrap ((m.regs.pc-4).zeroExtend 64) i.raw)
  | fault : i.opcode = some op → FaultSite m i op u va isStore →
      TrapSite m i u (InterruptController.pageFaultTrap ((m.regs.pc-4).zeroExtend 64) (va.zeroExtend 64) isStore)

structure Executed (i : Instruction) (m m' : Machine) : Prop where
  control : m'.control = m.control
  pc : i.endsBlock = false → m'.regs.pc = m.regs.pc
  scratchpad : ∀ a, m.spares i a → m'.scratchpad.byte a = m.scratchpad.byte a

-- Only the accounting of `execute` runs after a trap entry.
def Trapped (i : Instruction) (m m' : Machine) : Prop :=
  ∃ u t profiler tickAccum, TrapSite m i u t ∧
    m' = {({m with mmu := u} : Machine).enterTrap t with profiler := profiler,tickAccum := tickAccum}

-- Trap entry leaves the vector as it was, so the redirect can be read off the state before it.
theorem Machine.enterTrap_regs (m : Machine) (t : Trap) : (m.enterTrap t).regs = {m.regs with pc := m.trapVector} := by
  have vector : (m.takeTrap t).trapVector = m.trapVector := by
    simp only [Machine.trapVector,Machine.takeTrap,InterruptController.takeTrap,CSRFile.mtvec]
    rw [InterruptController.takeTrapCsr_other _ _ _ (by decide)]
  change ({m.regs with pc := (m.takeTrap t).trapVector} : RegisterFile) = _
  rw [vector]

theorem Trapped.regs {i : Instruction} {m m' : Machine} (trapped : Trapped i m m') : m'.regs = {m.regs with pc := m.trapVector} := by
  obtain ⟨u,t,_,_,_,rfl⟩ := trapped
  exact ({m with mmu := u} : Machine).enterTrap_regs t

theorem execute_effect (h : Host) (i : Instruction) (m : Machine) :
    (execute h i m).Sat (fun _ m' => Executed i m m' ∨ Trapped i m m') (fun _ m' => Stopped m m') (fun _ => True) := by
  unfold execute
  cases opcode : i.opcode with
  | none =>
    simp only [illegal,Exec.sat_bind,Exec.get_apply,Outcome.sat_ok,Exec.ite_apply]
    split
    · rename_i vectored
      exact .inr ⟨_,_,_,_,.illegal opcode vectored,rfl⟩
    · exact ⟨rfl,rfl,rfl,rfl⟩
  | some op =>
    simp only [Exec.sat_bind,Exec.modify_apply,Exec.pure_apply,Outcome.sat_ok]
    refine (handler_effect h m opcode).mono ?_ (fun _ _ stopped => stopped) (fun _ _ => trivial)
    intro cycles m' effect
    rcases effect with retired | ⟨u,va,isStore,site,rfl,rfl⟩
    · refine .inl ⟨retired.control,?_,retired.scratchpad⟩
      intro straight
      apply retired.pc
      simpa [Instruction.endsBlock,opcode] using straight
    · exact .inr ⟨_,_,_,_,.fault opcode site,rfl⟩

theorem execute_ok {h : Host} {i : Instruction} {m m' : Machine} {cycles : Word} (ran : execute h i m = .ok cycles m') :
    Executed i m m' ∨ Trapped i m m' := by
  have effect := execute_effect h i m
  rw [ran] at effect
  exact effect

theorem execute_thrown {h : Host} {i : Instruction} {m m' : Machine} {err : EmulatorError}
    (ran : execute h i m = .thrown err m') : Stopped m m' := by
  have effect := execute_effect h i m
  rw [ran] at effect
  exact effect

namespace Machine

-- What one pass of the tick loop leaves alone, all of them leave alone.
theorem tickPeripherals_keeps {α : Type} (view : Machine → α) (once : ∀ m : Machine, view m.tickOnce = view m) (m : Machine) :
    view m.tickPeripherals = view m := by
  unfold tickPeripherals
  generalize m.tickAccum.toNat/cyclesPerTick.toNat = passes
  induction passes generalizing m with
  | zero => rfl
  | succ passes ih => rw [Function.iterate_succ_apply,ih,once]

-- Likewise for the interrupt check and for the two calls that serve the trace.
theorem deliverInterrupt_keeps {α : Type} (view : Machine → α)
    (blind : ∀ (m : Machine) csr intc pc, view {m with csr := csr,intc := intc,regs := {m.regs with pc := pc}} = view m) (m : Machine) :
    view m.deliverInterrupt = view m := by
  unfold deliverInterrupt
  split
  · rfl
  · exact blind m ..

theorem saveBefore_keeps {α : Type} (view : Machine → α)
    (blind : ∀ (m : Machine) pc gpr, view {m with lastPc := pc,lastGpr := gpr} = view m) (m : Machine) : view (saveBefore m) = view m := by
  unfold saveBefore
  split
  · exact blind m ..
  · rfl

theorem logStep_keeps {α : Type} (view : Machine → α) (blind : ∀ (m : Machine) out, view {m with stdout := out} = view m)
    (pc : Word) (i : Instruction) (cycles : Word) (m : Machine) : view (logStep pc i cycles m) = view m := by
  unfold logStep
  split
  · exact blind m _
  · rfl

end Machine
end Novium
