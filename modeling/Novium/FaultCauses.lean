import Novium.BlockReplay
import Novium.ControlState
import Novium.FaultReports
import Novium.PreciseTraps

namespace Novium
open Storage Effects

def Access.code : Access → DWord
  | fetch => 12
  | read => 13
  | write => 15

namespace Machine

-- The access of a fetched instruction whose translation fails. A DMA is a write of its
-- destination first and then a read of its source.
def dataFault (m : Machine) (i : Instruction) : Option Access :=
  match i.opcode with
  | some .load => (m.dataVa i).bind fun va => if (m.resolved va false).1 = none then some .read else none
  | some .store => (m.dataVa i).bind fun va => if (m.resolved va true).1 = none then some .write else none
  | some .dmaLoad | some .dmaStore =>
    (m.regs.readGpr i.rd.toNat).bind fun dest => (m.regs.readGpr i.ra.toNat).bind fun src =>
      if (m.resolved dest true).1 = none then some .write
      else if ((m.afterResolve dest true).resolved src false).1 = none then some .read
      else none
  | _ => none

def fetchFaults (m : Machine) : Bool :=
  m.mmu.enabled &&
    (m.mmu.translate (some m.scratchpad) (some m.csr) m.regs.pc false true (some .none)).any fun t => t.pa.isNone

def failedAccess (m : Machine) : Option Access :=
  if m.fetchFaults then some .fetch
  else
    match fetch (saveBefore m) with
    | .ok i pre => pre.dataFault i
    | _ => none

-- The next instruction is a DMA_STORE whose destination translates and whose source does not.
def StoreSourceFaults (m : Machine) : Prop :=
  ∃ i pre, fetch (saveBefore m) = .ok i pre ∧ i.opcode = some .dmaStore ∧ pre.dataFault i = some .read

end Machine

-- A page-fault trap of the step reports the access that failed.
def CauseMatches (h : Host) (m : Machine) : Prop :=
  ∀ m', Stepped h m m' → m'.intc.trapCount ≠ m.intc.trapCount → m'.csr.read csrMcause ∈ [12,13,15] →
    ∃ access, m.failedAccess = some access ∧ m'.csr.read csrMcause = access.code

section Sites
variable {h : Host} {m m' : Machine} {i : Instruction} {pre : Machine} {op : Opcode} {u : MMU} {va : Word} {isStore : Bool}

theorem FaultSite.dataFault (site : FaultSite m i op u va isStore) (opcode : i.opcode = some op) :
    m.dataFault i = some (if isStore then .write else .read) ∨
      (op = .dmaStore ∧ isStore = true ∧ m.dataFault i = some .read) := by
  unfold Machine.dataFault
  rw [opcode]
  cases site with
  | load base failed => simp [base,failed]
  | store base failed => simp [base,failed]
  | dmaDest kind dest src failed =>
    rcases kind with rfl | rfl
    · simp [dest,src,failed]
    · simp [dest,src,failed]
  | dmaLoadSrc dest src first failed => simp [dest,src,first,failed]
  | dmaStoreSrc dest src first failed => simp [dest,src,first,failed]

theorem dataFault_site (opcode : i.opcode = some .dmaStore) (failed : m.dataFault i = some .read) :
    ∃ u va, FaultSite m i .dmaStore u va true := by
  simp only [Machine.dataFault,opcode,Option.bind_eq_some_iff] at failed
  obtain ⟨dest,readDest,src,readSrc,failed⟩ := failed
  cases first : (m.resolved dest true).1 with
  | none => simp [first] at failed
  | some pa =>
    cases second : ((m.afterResolve dest true).resolved src false).1 with
    | none => exact ⟨_,_,.dmaStoreSrc readDest readSrc first second⟩
    | some pa' => simp [first,second] at failed

theorem fetchFaults_of (on : m.mmu.enabled = true) {cause : Option PageFaultCause}
    (translated : m.mmu.translate (some m.scratchpad) (some m.csr) m.regs.pc false true (some .none) = some ⟨u,cause,none⟩) :
    m.fetchFaults = true := by
  simp [Machine.fetchFaults,on,translated]

theorem fetchFaults_nop (faults : m.fetchFaults = true) (fetched : fetch (saveBefore m) = .ok i pre) : i = ⟨Enc.nop⟩ := by
  obtain ⟨lastPc,lastGpr,same⟩ := saveBefore_frame m
  obtain ⟨on,failing⟩ := Bool.and_eq_true_iff.mp faults
  obtain ⟨⟨u,cause,pa⟩,translated,failed⟩ := (Option.any_eq_true _ _).mp failing
  cases pa with
  | some pa => cases failed
  | none =>
    rw [same] at fetched
    simp only [fetch,Exec.bind_apply,Exec.get_apply,Exec.ite_apply,on,if_true,Handlers.translate,translated,Exec.ofOption_some,
      Exec.modify_apply,Exec.pure_apply] at fetched
    cases fetched
    rfl

theorem failedAccess_data (fetched : fetch (saveBefore m) = .ok i pre) (opcode : i.opcode = some op) (real : op ≠ .nop) :
    m.failedAccess = pre.dataFault i := by
  cases faults : m.fetchFaults with
  | false => simp only [Machine.failedAccess,faults,fetched,Bool.false_eq_true,if_false]
  | true =>
    rw [fetchFaults_nop faults fetched,show (⟨Enc.nop⟩ : Instruction).opcode = some .nop by decide,Option.some.injEq] at opcode
    exact absurd opcode.symm real

theorem FaultSite.real (site : FaultSite m i op u va isStore) : op ≠ .nop := by
  cases site with
  | load | store | dmaLoadSrc | dmaStoreSrc => decide
  | dmaDest kind => rcases kind with rfl | rfl <;> decide

theorem step_undelivered (running : m.regs.halt = false) (none : m.pendingInterrupt = none) : step h m = cycle h m := by
  rw [step_running h running]
  simp only [Machine.deliverInterrupt,none]

theorem trapCause_exception (t : Trap) (exception : t.isInterrupt = false) :
    InterruptController.trapCause t = t.cause.code.zeroExtend 64 := by
  simp [InterruptController.trapCause,exception]

theorem SyncTrap.access {t : Trap} (site : SyncTrap m t) (paged : InterruptController.trapCause t ∈ [12,13,15]) :
    (∃ access, m.failedAccess = some access ∧ InterruptController.trapCause t = access.code) ∨ m.StoreSourceFaults := by
  cases site with
  | instPageFault on translated =>
    refine .inl ⟨.fetch,?_,trapCause_exception _ rfl⟩
    simp only [Machine.failedAccess,fetchFaults_of on translated,if_true]
  | illegalInst =>
    rw [trapCause_exception _ rfl] at paged
    exact absurd paged (show TrapCause.illegalInst.code.zeroExtend 64 ∉ [12,13,15] by decide)
  | @pageFault i pre op u va isStore fetched opcode site =>
    rw [failedAccess_data fetched opcode site.real]
    rcases site.dataFault opcode with matched | ⟨rfl,_,failed⟩
    · refine .inl ⟨_,matched,?_⟩
      rw [trapCause_exception _ rfl]
      cases isStore <;> rfl
    · exact .inr ⟨i,pre,fetched,opcode,failed⟩

theorem sourceFaults_step (running : m.regs.halt = false) (none : m.pendingInterrupt = none) (faults : m.StoreSourceFaults) :
    m.failedAccess = some .read ∧ ∃ m', step h m = .ok () m' ∧ m'.intc.trapCount ≠ m.intc.trapCount ∧
      m'.csr.read csrMcause = 15 := by
  obtain ⟨i,pre,fetched,opcode,failed⟩ := faults
  obtain ⟨u,va,site⟩ := dataFault_site opcode failed
  have same : m.deliverInterrupt = m := by simp only [Machine.deliverInterrupt,none]
  have ran := step_fetched h running (by rw [same]; exact fetched)
  rw [Exec.bind_ok (site.executed opcode)] at ran
  refine ⟨(failedAccess_data fetched opcode site.real).trans failed,_,ran,?_⟩
  have entered : (logStep m.deliverInterrupt.regs.pc i 2 (account .dmaStore i 2 (pageFaultOf pre u va true)).tickPeripherals).ledger =
      trapEntry m.ledger (InterruptController.pageFaultTrap ((pre.regs.pc-4).zeroExtend 64) (va.zeroExtend 64) true) := by
    rw [ledger_logStep,ledger_tick,← ledger_saveBefore m]
    rcases (fetch_ok fetched).ledger with kept | ⟨rfl,_⟩
    · rw [← kept]
      rfl
    · cases opcode
  generalize logStep _ _ _ _ = m' at entered
  have csr : m'.csr = _ := congrArg Prod.snd entered
  have count : m'.intc.trapCount = m.intc.trapCount+1 := congrArg Prod.fst entered
  constructor
  · rw [count]
    simp
  · rw [csr,trapEntry,InterruptController.takeTrapCsr_mcause,trapCause_exception _ rfl]
    rfl

end Sites

-- The one site that reports a read as a write is the source of a DMA_STORE.
theorem fault_causes_iff (h : Host) (m : Machine) (none : m.pendingInterrupt = none) :
    CauseMatches h m ↔ m.regs.halt = true ∨ ¬ m.StoreSourceFaults := by
  cases halted : m.regs.halt with
  | true =>
    refine ⟨fun _ => .inl rfl,?_⟩
    intro _ m' stepped counted
    cases stepped with
    | returned ran =>
      rw [step_halted h halted] at ran
      cases ran
      exact absurd rfl counted
    | thrown ran =>
      rw [step_halted h halted] at ran
      cases ran
  | false =>
    constructor
    · intro agrees
      refine .inr ?_
      intro faults
      obtain ⟨failed,m',ran,counted,cause⟩ := sourceFaults_step (h := h) halted none faults
      obtain ⟨access,same,code⟩ := agrees m' (.returned ran) counted (by rw [cause]; decide)
      rw [failed,Option.some.injEq] at same
      rw [cause,← same] at code
      exact absurd code (by decide)
    · rintro (impossible | sound) m' stepped counted paged
      · cases impossible
      · have effect := cycle_effect h m
        rw [← step_undelivered halted none] at effect
        cases stepped with
        | thrown ran =>
          rw [ran] at effect
          exact absurd (congrArg Prod.fst effect.untrapped) counted
        | returned ran =>
          rw [ran] at effect
          obtain ⟨t,site,_,cause⟩ := (CycleEffect.precise effect counted).reported
          rw [cause] at paged ⊢
          rcases site.access paged with found | faults
          · exact found
          · exact absurd faults sound

-- A DMA_STORE from r2 to r1 at 0x1000, under tables in the second page of the scratchpad
-- that map the page at 0x1000 to frame 0 and nothing else.
def dmaTables : ByteStore :=
  ((zeroStore 0x2000).write 0 (wordBytes (Enc.dmaStore 1 2 4))).write 0x1000 (wordBytes 0x401 ++ wordBytes 0 ++ wordBytes 0xF)

def storing (dest src : Word) : Machine :=
  let m := Machine.initial 0x2000 0x2000
  {m with
    mmu := {m.mmu with enabled := true}
    csr := m.csr.write csrSatp ((8 <<< 60) ||| 1)
    scratchpad := dmaTables
    regs := {RegisterFile.initial with gpr := Function.update (Function.update (fun _ => 0) 1 dest) 2 src,pc := 0x1000}}

theorem fault_causes_dest : (storing 0x2000 0x1000).failedAccess = some .write ∧
    CauseMatches (.ieee .scalar) (storing 0x2000 0x1000) := by
  refine ⟨by decide +kernel,(fault_causes_iff (.ieee .scalar) (storing 0x2000 0x1000) (by decide +kernel)).mpr (.inr ?_)⟩
  rintro ⟨i,pre,fetched,_,failed⟩
  have written : (fetch (saveBefore (storing 0x2000 0x1000))).Sat (fun i pre => pre.dataFault i = some .write)
      (fun _ _ => False) (fun _ => False) := by decide +kernel
  rw [fetched] at written
  rw [show pre.dataFault i = some .write from written] at failed
  cases failed

-- Reading a source there fails and the trap says that a store did.
theorem dma_source_cause : ¬ ∀ (h : Host) (m : Machine), m.mmu.enabled = true → m.pendingInterrupt = none → CauseMatches h m := by
  intro right
  have fails : (fetch (saveBefore (storing 0x1000 0x2000))).Sat (fun i pre => i.opcode = some .dmaStore ∧ pre.dataFault i = some .read)
      (fun _ _ => False) (fun _ => False) := by decide +kernel
  obtain ⟨i,pre,fetched,opcode,failed⟩ := fails.returns
  have none : (storing 0x1000 0x2000).pendingInterrupt = none := by decide +kernel
  obtain ⟨access,m',ran,counted,cause⟩ := sourceFaults_step (h := .ieee .scalar) rfl none ⟨i,pre,fetched,opcode,failed⟩
  obtain ⟨access',same,code⟩ := right (.ieee .scalar) (storing 0x1000 0x2000) rfl none m' (.returned ran) counted (by rw [cause]; decide)
  rw [access,Option.some.injEq] at same
  rw [cause,← same] at code
  exact absurd code (by decide)

end Novium
