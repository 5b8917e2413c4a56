import Novium.Interrupts

namespace Novium
open Storage Effects
variable {h : Host} {m : Machine} {irq : Trap}

-- The number `step` derives from an interrupt to select the vectored slot.
def Trap.slot (t : Trap) : Word := t.cause.code.zeroExtend 32 &&& 0xFF

def Machine.fetching (m : Machine) : Machine := saveBefore m.deliverInterrupt

def fetchAndExecute (h : Host) (pc : Word) : Emu Unit := do
  let i ← fetch
  let cycles ← execute h i
  Exec.modify Machine.tickPeripherals
  Exec.modify (logStep pc i cycles)

-- What delivery owes the handler and the interrupted code apart from the saved pc
-- and the cause. The state may have moved on when the handler returns, as long as
-- MSTATUS still holds what delivery put there.
structure Delivered (m : Machine) (irq : Trap) (s : Machine) : Prop where
  entry : s.regs.pc = if m.csr.mtvec.getLsbD 0 then m.trapVector+irq.slot*4 else m.trapVector
  mie : s.csr.mstatusMie = false
  mpie : s.csr.mstatus.getLsbD 7 = true
  restores : ∀ csr : CSRFile, csr.mstatus = s.csr.mstatus →
    (InterruptController.mret csr).2.priv = m.csr.priv ∧
    (InterruptController.mret csr).2.mstatusMie = m.csr.mstatusMie

structure Resumable (m : Machine) (irq : Trap) (s : Machine) : Prop extends Delivered m irq s where
  mepc : s.csr.read csrMepc = m.regs.pc.zeroExtend 64
  mcause : s.csr.read csrMcause = (1#64 <<< 63) + irq.slot.zeroExtend 64
  returns : ∀ csr : CSRFile, csr.read csrMepc = s.csr.read csrMepc →
    (InterruptController.mret csr).1 = m.regs.pc.zeroExtend 64

theorem step_fetching (h : Host) (running : m.regs.halt = false) :
    step h m = fetchAndExecute h m.deliverInterrupt.regs.pc m.fetching := by
  simp [step,cycle,fetchAndExecute,Machine.fetching,Exec.bind_apply,running]

theorem pendingInterrupt_trap (pending : m.pendingInterrupt = some irq) : irq.pc = 0 ∧
    InterruptController.trapCause irq = (1#64 <<< 63) + 0x8000#64 + irq.slot.zeroExtend 64 := by
  unfold Machine.pendingInterrupt InterruptController.pendingInterrupt at pending
  dsimp only at pending
  repeat' split at pending
  all_goals cases pending
  all_goals exact ⟨rfl,by decide⟩

theorem pendingInterrupt_enabled (pending : m.pendingInterrupt = some irq) : m.csr.mstatusMie = true := by
  cases enabled : m.csr.mstatusMie with
  | true => rfl
  | false =>
    rw [pendingInterrupt_masked enabled] at pending
    cases pending

theorem csr_fetching (pending : m.pendingInterrupt = some irq) :
    m.fetching.csr = InterruptController.takeTrapCsr m.csr irq := by
  have saved : m.fetching.csr = m.deliverInterrupt.csr := congrArg Visible.csr (visible_saveBefore _)
  rw [saved]
  exact congrArg Prod.snd (deliverInterrupt_ledger pending)

theorem pc_fetching (pending : m.pendingInterrupt = some irq) :
    m.fetching.regs.pc = if m.csr.mtvec.getLsbD 0 then m.trapVector+irq.slot*4 else m.trapVector := by
  have saved : m.fetching.regs = m.deliverInterrupt.regs := congrArg Visible.regs (visible_saveBefore _)
  have vector : (m.takeTrap irq).csr.mtvec = m.csr.mtvec :=
    InterruptController.takeTrapCsr_other m.csr irq _ (by decide)
  rw [saved]
  simp only [Machine.deliverInterrupt,pending,Machine.setPc,Machine.trapVector,vector,Trap.slot]

namespace InterruptController

theorem mret_priv (csr : CSRFile) : (mret csr).2.priv = .ofBits (csr.mstatus.extractLsb' 11 2) := rfl

theorem mret_mie (csr : CSRFile) : (mret csr).2.mstatusMie = csr.mstatus.getLsbD 7 := by
  unfold CSRFile.mstatusMie CSRFile.mstatus mret
  rw [CSRFile.read_withPriv,CSRFile.read_write_same _ _ _ (by decide) (by decide)]
  change _ = csr.mstatus.getLsbD 7
  cases enabled : csr.mstatus.getLsbD 7 <;> simp

end InterruptController

theorem delivered (pending : m.pendingInterrupt = some irq) : Delivered m irq m.fetching := by
  have enabled := pendingInterrupt_enabled pending
  have csr := csr_fetching pending
  have mstatus : m.fetching.csr.mstatus = InterruptController.trapMstatus m.csr.mstatus m.csr.priv := by
    rw [csr,InterruptController.takeTrapCsr_mstatus]
  have mpie : m.fetching.csr.mstatus.getLsbD 7 = m.csr.mstatusMie := by
    rw [mstatus,InterruptController.trapMstatus_mpie]
    rfl
  refine ⟨pc_fetching pending,?_,mpie.trans enabled,?_⟩
  · rw [CSRFile.mstatusMie,mstatus,InterruptController.trapMstatus_mie]
  · intro later same
    rw [InterruptController.mret_priv,InterruptController.mret_mie,same]
    refine ⟨?_,mpie⟩
    rw [mstatus,InterruptController.trapMstatus_mpp,PrivilegeLevel.ofBits_bits]

-- The tag never cancels: no interrupt reaches its handler with the slot number alone in MCAUSE.
theorem tagged_cause (slot : DWord) : (1#64 <<< 63) + 0x8000#64 + slot ≠ (1#64 <<< 63) + slot := by
  intro same
  rw [BitVec.add_assoc,BitVec.add_right_inj] at same
  simp at same

-- The one pc delivery saves is zero, so only code interrupted there could be resumed.
theorem interrupt_not_resumable (h : Host) (m : Machine) (irq : Trap) (running : m.regs.halt = false)
    (pending : m.pendingInterrupt = some irq) :
    step h m = fetchAndExecute h m.deliverInterrupt.regs.pc m.fetching ∧
    ¬ Resumable m irq m.fetching ∧ Delivered m irq m.fetching ∧
    (m.fetching.csr.read csrMepc = m.regs.pc.zeroExtend 64 ↔ m.regs.pc = 0) ∧
    m.fetching.csr.read csrMcause = (1#64 <<< 63) + 0x8000#64 + irq.slot.zeroExtend 64 := by
  obtain ⟨zero,tagged⟩ := pendingInterrupt_trap pending
  have csr := csr_fetching pending
  have mepc : m.fetching.csr.read csrMepc = 0 := by
    rw [csr,InterruptController.takeTrapCsr_mepc,zero]
  have mcause : m.fetching.csr.read csrMcause = (1#64 <<< 63) + 0x8000#64 + irq.slot.zeroExtend 64 := by
    rw [csr,InterruptController.takeTrapCsr_mcause,tagged]
  refine ⟨step_fetching h running,?_,delivered pending,?_,mcause⟩
  · intro resumable
    exact tagged_cause _ (mcause.symm.trans resumable.mcause)
  · rw [mepc]
    constructor
    · intro saved
      have same : 0 = m.regs.pc.toNat % 2^64 := (congrArg BitVec.toNat saved).trans (BitVec.toNat_setWidth ..)
      have small := m.regs.pc.isLt
      apply BitVec.eq_of_toNat_eq
      change m.regs.pc.toNat = 0
      omega
    · intro origin
      rw [origin]
      rfl

def interruptedAtFour : Machine :=
  let m := (Emulator.programmed [Enc.nop,Enc.movi 1 5,Enc.halt]).core
  {m.setPc 4 with
    csr := ((m.csr.write csrMstatus 8).write csrMie 0x80).write csrMtvec 0x101
    intc := m.intc.raiseTimer}

theorem interrupt_not_resumable_timer : interruptedAtFour.pendingInterrupt = some ⟨.machineTimer,0,0,true⟩ ∧
    ¬ Resumable interruptedAtFour ⟨.machineTimer,0,0,true⟩ interruptedAtFour.fetching ∧
    interruptedAtFour.fetching.regs.pc = 0x100+7*4 := by
  have pending : interruptedAtFour.pendingInterrupt = some ⟨.machineTimer,0,0,true⟩ := by decide
  obtain ⟨_,lost,entered,_⟩ := interrupt_not_resumable (.ieee .scalar) interruptedAtFour _ rfl pending
  exact ⟨pending,lost,entered.entry.trans (by decide)⟩

theorem interrupt_loses_pc : ¬ ∀ (m : Machine) (irq : Trap), m.regs.halt = false → m.pendingInterrupt = some irq →
    Resumable m irq m.fetching := by
  intro resumes
  have resumable := resumes interruptedAtFour ⟨.machineTimer,0,0,true⟩ rfl (by decide)
  exact absurd resumable.mepc (by decide)

end Novium
