import Novium.Cycle

namespace Novium
open Storage Effects
variable {h : Host} {m m' : Machine}

-- The synchronous traps of one step, with the address or the word they report. A
-- data fault is the failure of a translation in the state the fetch left.
inductive SyncTrap (m : Machine) : Trap → Prop where
  | instPageFault : m.mmu.enabled = true →
      m.mmu.translate (some m.scratchpad) (some m.csr) m.regs.pc false true (some .none) = some ⟨u,cause,none⟩ →
      SyncTrap m ⟨.instPageFault,m.regs.pc.zeroExtend 64,m.regs.pc.zeroExtend 64,false⟩
  | illegalInst : fetch (saveBefore m) = .ok i pre → i.opcode = none → m.csr.mtvec ≠ 0 →
      SyncTrap m ⟨.illegalInst,i.raw.zeroExtend 64,m.regs.pc.zeroExtend 64,false⟩
  | pageFault : fetch (saveBefore m) = .ok i pre → i.opcode = some op → FaultSite pre i op u va isStore →
      SyncTrap m ⟨if isStore then .storePageFault else .loadPageFault,va.zeroExtend 64,m.regs.pc.zeroExtend 64,false⟩

-- Nothing the program can see was written but what trap entry writes.
structure Precise (m m' : Machine) : Prop where
  gpr : m'.regs.gpr = m.regs.gpr
  vr : m'.regs.vr = m.regs.vr
  status : m'.regs.status = m.regs.status
  scratchpad : m'.scratchpad = m.scratchpad
  mainRam : m'.mainRam = m.mainRam
  mepc : m'.csr.read csrMepc = m.regs.pc.zeroExtend 64
  reported : ∃ t, SyncTrap m t ∧ m'.csr.read csrMtval = t.tval ∧ m'.csr.read csrMcause = InterruptController.trapCause t
  priv : m'.csr.priv = .machine
  mpp : m'.csr.mstatus.extractLsb' 11 2 = m.csr.priv.bits
  mpie : m'.csr.mstatus.getLsbD 7 = m.csr.mstatusMie
  mie : m'.csr.mstatusMie = false
  pc : m'.regs.pc = (m.csr.mtvec &&& ~~~(3#64)).truncate 32

theorem Precise.of_entry {t : Trap} (site : SyncTrap m t) (entered : m'.visible = m.visible.enterTrap t) : Precise m m' := by
  have regs : m'.regs = {m.regs with pc := (m.csr.mtvec &&& ~~~(3#64)).truncate 32} := congrArg Visible.regs entered
  have csr : m'.csr = InterruptController.takeTrapCsr m.csr t := congrArg Visible.csr entered
  have saved : t.pc = m.regs.pc.zeroExtend 64 := by cases site <;> rfl
  exact {
    gpr := by rw [regs]
    vr := by rw [regs]
    status := by rw [regs]
    scratchpad := congrArg Visible.scratchpad entered
    mainRam := congrArg Visible.mainRam entered
    mepc := by rw [csr,InterruptController.takeTrapCsr_mepc,saved]
    reported := ⟨t,site,by rw [csr,InterruptController.takeTrapCsr_mtval],by rw [csr,InterruptController.takeTrapCsr_mcause]⟩
    priv := by rw [csr]; rfl
    mpp := by rw [csr,InterruptController.takeTrapCsr_mstatus,InterruptController.trapMstatus_mpp]
    mpie := by rw [csr,InterruptController.takeTrapCsr_mstatus,InterruptController.trapMstatus_mpie]; rfl
    mie := by
      unfold CSRFile.mstatusMie
      rw [csr,InterruptController.takeTrapCsr_mstatus,InterruptController.trapMstatus_mie]
    pc := by rw [regs]}

-- The NOP a faulting fetch hands out is only accounted for.
theorem execute_nop (h : Host) (m : Machine) : execute h ⟨Enc.nop⟩ m = .ok 1 (account .nop ⟨Enc.nop⟩ 1 m) := by
  have known : (⟨Enc.nop⟩ : Instruction).opcode = some .nop := by decide
  simp only [execute,known]
  rfl

theorem saveBefore_frame (m : Machine) : ∃ lastPc lastGpr, saveBefore m = {m with lastPc := lastPc,lastGpr := lastGpr} := by
  unfold saveBefore
  split
  · exact ⟨_,_,rfl⟩
  · exact ⟨_,_,rfl⟩

theorem fetchFault_visible {pre : Machine} {i : Instruction} (fetched : fetch (saveBefore m) = .ok i pre) :
    (i = ⟨Enc.nop⟩ ∧ ∃ t, SyncTrap m t ∧ pre.visible = m.visible.enterTrap t) ∨
      (pre.visible = {m.visible with regs := {m.regs with pc := m.regs.pc+4}} ∧ pre.ledger = m.ledger) := by
  obtain ⟨lastPc,lastGpr,same⟩ := saveBefore_frame m
  have effect := fetch_ok fetched
  rw [same] at effect
  cases effect with
  | word timer kept => exact .inr ⟨rfl,rfl⟩
  | fault on translated =>
    exact .inl ⟨rfl,_,.instPageFault on translated,visible_enterTrap _ _⟩

theorem Trapped.visible {i : Instruction} {pre : Machine} (trapped : Trapped i pre m') :
    ∃ u t, TrapSite pre i u t ∧ m'.visible = pre.visible.enterTrap t := by
  obtain ⟨u,t,_,_,site,rfl⟩ := trapped
  exact ⟨u,t,site,visible_enterTrap ({pre with mmu := u} : Machine) t⟩

theorem TrapSite.sync {i : Instruction} {pre : Machine} {u : MMU} {t : Trap} (site : TrapSite pre i u t)
    (fetched : fetch (saveBefore m) = .ok i pre)
    (advanced : pre.visible = {m.visible with regs := {m.regs with pc := m.regs.pc+4}}) : SyncTrap m t := by
  have csr : pre.csr = m.csr := congrArg Visible.csr advanced
  have pc : pre.regs.pc-4 = m.regs.pc := by
    have next : pre.regs.pc = m.regs.pc+4 := congrArg (fun v : Visible => v.regs.pc) advanced
    rw [next,BitVec.add_sub_cancel]
  cases site with
  | illegal unknown vectored =>
    rw [pc]
    exact .illegalInst fetched unknown (by rwa [csr] at vectored)
  | fault opcode site =>
    rw [pc]
    exact .pageFault fetched opcode site

theorem CycleEffect.precise (effect : CycleEffect h m m') (counted : m'.intc.trapCount ≠ m.intc.trapCount) :
    Precise m m' := by
  cases effect with
  | @ran i pre cycles after fetched ran =>
    have last : (logStep m.regs.pc i cycles after.tickPeripherals).visible = after.visible := by
      rw [visible_logStep,visible_tick]
    have ledger : (logStep m.regs.pc i cycles after.tickPeripherals).ledger = after.ledger := by
      rw [ledger_logStep,ledger_tick]
    rcases fetchFault_visible fetched with ⟨rfl,t,site,entered⟩ | ⟨advanced,kept⟩
    · rw [execute_nop] at ran
      cases ran
      exact .of_entry site (last.trans entered)
    · rcases execute_ok ran with executed | trapped
      · have same := ledger.trans ((ledger_of_control executed.control).trans kept)
        exact absurd (congrArg Prod.fst same) counted
      · obtain ⟨u,t,site,entered⟩ := trapped.visible
        refine .of_entry (site.sync fetched advanced) ?_
        rw [last,entered,advanced]
        rfl

theorem CycleStopped.untrapped (stopped : CycleStopped h m m') : m'.ledger = m.ledger := by
  cases stopped with
  | fetch => exact ledger_saveBefore m
  | execute fetched ran =>
    rcases fetchFault_visible fetched with ⟨rfl,_⟩ | ⟨_,kept⟩
    · rw [execute_nop] at ran
      cases ran
    · exact (ledger_of_control (execute_thrown ran).control).trans kept

theorem precise_traps (h : Host) (m m' : Machine) (running : m.regs.halt = false) (none : m.pendingInterrupt = none)
    (ended : step h m = .ok () m' ∨ ∃ err, step h m = .thrown err m')
    (counted : m'.intc.trapCount ≠ m.intc.trapCount) : Precise m m' := by
  have same : step h m = cycle h m := by
    rw [step_running h running]
    simp only [Machine.deliverInterrupt,none]
  have effect := cycle_effect h m
  rw [same] at ended
  rcases ended with ran | ⟨err,ran⟩
  · rw [ran] at effect
    exact effect.precise counted
  · rw [ran] at effect
    exact absurd (congrArg Prod.fst effect.untrapped) counted

-- A store to a page mapped readable and executable only.
def faultingStore : Machine :=
  let m := (Emulator.programmed [Enc.store 1 0 0x40]).core
  {m with
    csr := m.csr.write csrMtvec 0x103
    mmu := {m.mmu.identityMap 0 0 1 5 with enabled := true}}

theorem precise_traps_store : ∃ m', step (.ieee .scalar) faultingStore = .ok () m' ∧ Precise faultingStore m' ∧
    m'.csr.read csrMtval = 0x40 ∧ m'.regs.pc = 0x100 := by
  have trapped : Outcome.Sat (fun _ m' => m'.intc.trapCount = 1 ∧ m'.csr.read csrMtval = 0x40 ∧ m'.regs.pc = 0x100)
      (fun _ _ => False) (fun _ => False) (step (.ieee .scalar) faultingStore) := by decide +kernel
  obtain ⟨u,m',ran,count,tval,pc⟩ := trapped.returns
  refine ⟨m',ran,precise_traps (.ieee .scalar) faultingStore m' rfl (by decide) (.inl ran) ?_,tval,pc⟩
  rw [count]
  decide

end Novium
