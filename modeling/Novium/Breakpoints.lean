import Novium.SaveRestore

namespace Novium
open Storage Effects

-- What the host can do to the interrupt lines. Only the check in `step` looks at them, so a
-- line moved anywhere between two checks is moved at the loop test.
inductive HostLine (i : InterruptController) : InterruptController → Prop where
  | raiseTimer : HostLine i i.raiseTimer
  | clearTimer : HostLine i i.clearTimer
  | raiseExternal (id : Word) : HostLine i (i.raiseExternal id)
  | clearExternal : HostLine i i.clearExternal
  | raiseSoft : HostLine i i.raiseSoft
  | clearSoft : HostLine i i.clearSoft

-- A run of `run`, with the states in which it has called `step`, the last one first.
inductive Debugged (h : Host) (start : Machine) : List Machine → RunConfig → Prop where
  | start : Debugged h start [] (.loop start)
  | host (m : Machine) (turns : List Machine) (intc : InterruptController) : Debugged h start turns (.loop m) → HostLine m.intc intc →
      Debugged h start turns (.loop {m with intc := intc})
  | turn (m : Machine) (turns : List Machine) (c : RunConfig) : Debugged h start turns (.loop m) → m.live = true →
      runNext h (.loop m) = some c → Debugged h start (m :: turns) c
  | stop (m : Machine) (turns : List Machine) (c : RunConfig) : Debugged h start turns (.loop m) → m.live = false →
      runNext h (.loop m) = some c → Debugged h start turns c

def ExecutesAt (m : Machine) (pc : Word) : Prop :=
  m.regs.halt = false ∧ pc = m.deliverInterrupt.regs.pc ∧ ∃ i pre, fetch (saveBefore m.deliverInterrupt) = .ok i pre

def Machine.handlerAddress (m : Machine) (irq : Trap) : Word :=
  if m.csr.mtvec.getLsbD 0 then m.trapVector+(irq.cause.code.zeroExtend 32 &&& 0xFF)*4 else m.trapVector

-- An interrupt is due whose handler has a breakpoint on its first instruction, and that
-- instruction can be fetched.
def Overrun (d : Debugger) (m : Machine) : Prop :=
  ∃ irq, m.pendingInterrupt = some irq ∧ d.hasBreakpoint (m.handlerAddress irq) = true ∧
    ∃ i pre, fetch (saveBefore m.deliverInterrupt) = .ok i pre

section Delivery
variable {m : Machine} {irq : Trap}

theorem deliver_pc (pending : m.pendingInterrupt = some irq) : m.deliverInterrupt.regs.pc = m.handlerAddress irq := by
  have mtvec : (m.takeTrap irq).csr.mtvec = m.csr.mtvec := InterruptController.takeTrapCsr_other _ _ _ (by decide)
  have vector : (m.takeTrap irq).trapVector = m.trapVector := by
    unfold Machine.trapVector
    rw [mtvec]
  unfold Machine.deliverInterrupt
  rw [pending]
  dsimp only [Machine.setPc]
  rw [mtvec,vector]
  rfl

-- Between the test of the loop and the fetch only an interrupt moves the pc.
theorem executes_iff {d : Debugger} (same : m.debugger = d) (live : m.live = true) :
    (∀ pc, ExecutesAt m pc → d.hasBreakpoint pc = false) ↔ ¬ Overrun d m := by
  subst same
  unfold Machine.live at live
  rw [Bool.and_eq_true,Bool.not_eq_true',Bool.not_eq_true'] at live
  constructor
  · intro clear overrun
    obtain ⟨irq,pending,marked,fetched⟩ := overrun
    have unmarked := clear _ ⟨live.1,rfl,fetched⟩
    rw [deliver_pc pending,marked] at unmarked
    cases unmarked
  · intro clear pc executes
    obtain ⟨_,here,fetched⟩ := executes
    subst here
    cases pending : m.pendingInterrupt with
    | none =>
      have undelivered : m.deliverInterrupt = m := by
        unfold Machine.deliverInterrupt
        rw [pending]
      rw [undelivered]
      exact live.2
    | some irq =>
      rw [deliver_pc pending]
      cases marked : m.debugger.hasBreakpoint (m.handlerAddress irq) with
      | false => rfl
      | true => exact absurd ⟨irq,pending,marked,fetched⟩ clear

end Delivery

def RunConfig.Watched (d : Debugger) : RunConfig → Prop
  | .loop m | .done m | .thrown _ m => m.debugger = d
  | .undefined _ => True

theorem step_debugger (h : Host) (m : Machine) :
    (step h m).Sat (fun _ m' => m'.debugger = m.debugger) (fun _ m' => m'.debugger = m.debugger) (fun _ => True) := by
  cases ran : step h m with
  | ok _ m' => exact congrArg (fun s : TargetProfile × Debugger × Bool => s.2.1) (Stepped.lasts (.returned ran)).settings
  | thrown err m' => exact congrArg (fun s : TargetProfile × Debugger × Bool => s.2.1) (Stepped.lasts (.thrown ran)).settings
  | undefined why => trivial

theorem runNext_watched {h : Host} {m : Machine} {c : RunConfig} {d : Debugger} (same : m.debugger = d)
    (next : runNext h (.loop m) = some c) : c.Watched d := by
  have kept := step_debugger h m
  cases runNext_moves next with
  | stepped m m' live ran =>
    rw [ran] at kept
    exact kept.trans same
  | threw m m' err live ran =>
    rw [ran] at kept
    exact kept.trans same
  | stuck m why live ran => trivial
  | stopped m live => exact same

section Runs
variable {h : Host} {start : Machine} {turns : List Machine} {c : RunConfig}

theorem Debugged.watched (run : Debugged h start turns c) :
    c.Watched start.debugger ∧ ∀ m ∈ turns, m.debugger = start.debugger ∧ m.live = true := by
  induction run with
  | start =>
    refine ⟨rfl,?_⟩
    intro m listed
    cases listed
  | host m turns intc _ _ ih => exact ⟨ih.1,ih.2⟩
  | turn m turns c _ live next ih =>
    refine ⟨runNext_watched ih.1 next,?_⟩
    intro m' listed
    rcases List.mem_cons.mp listed with rfl | earlier
    · exact ⟨ih.1,live⟩
    · exact ih.2 m' earlier
  | stop m turns c _ _ next ih => exact ⟨runNext_watched ih.1 next,ih.2⟩

theorem breakpoints_iff (run : Debugged h start turns c) :
    (∀ m ∈ turns, ∀ pc, ExecutesAt m pc → start.debugger.hasBreakpoint pc = false) ↔
      ∀ m ∈ turns, ¬ Overrun start.debugger m := by
  have watched := run.watched.2
  constructor
  · intro clear m listed
    exact (executes_iff (watched m listed).1 (watched m listed).2).mp (clear m listed)
  · intro clear m listed
    exact (executes_iff (watched m listed).1 (watched m listed).2).mpr (clear m listed)

end Runs

-- MOVI r1,5; HALT with the timer interrupt enabled, its handler and a breakpoint at 4.
def watchedHandler : Machine :=
  let m := (Emulator.programmed [Enc.movi 1 5,Enc.halt]).core
  {m with
    csr := ((m.csr.write csrMstatus 8).write csrMie 0x80).write csrMtvec 4
    debugger := m.debugger.addBreakpoint 4}

theorem breakpoints_undisturbed : ExecutesAt watchedHandler 0 ∧
    ∀ m ∈ [watchedHandler], ∀ pc, ExecutesAt m pc → watchedHandler.debugger.hasBreakpoint pc = false := by
  have live : watchedHandler.live = true := by decide +kernel
  have fetched : (fetch (saveBefore watchedHandler.deliverInterrupt)).Sat (fun _ _ => True) (fun _ _ => False) (fun _ => False) := by
    decide +kernel
  have start : watchedHandler.deliverInterrupt.regs.pc = 0 := by decide +kernel
  obtain ⟨i,pre,read,_⟩ := fetched.returns
  refine ⟨⟨rfl,start.symm,i,pre,read⟩,(breakpoints_iff (.turn watchedHandler [] _ (.start (h := .ieee .scalar)) live rfl)).mpr ?_⟩
  intro m listed overrun
  rw [List.mem_singleton.mp listed] at overrun
  obtain ⟨irq,pending,_⟩ := overrun
  have quiet : watchedHandler.pendingInterrupt = none := by decide +kernel
  cases quiet.symm.trans pending

-- The host raises the timer line before the first turn.
theorem breakpoint_overrun : ¬ ∀ (h : Host) (start : Machine) (turns : List Machine) (c : RunConfig), Debugged h start turns c →
    ∀ m ∈ turns, ∀ pc, ExecutesAt m pc → start.debugger.hasBreakpoint pc = false := by
  intro clear
  have live : ({watchedHandler with intc := watchedHandler.intc.raiseTimer} : Machine).live = true := by decide +kernel
  have fetched : (fetch (saveBefore ({watchedHandler with intc := watchedHandler.intc.raiseTimer} : Machine).deliverInterrupt)).Sat
      (fun _ _ => True) (fun _ _ => False) (fun _ => False) := by decide +kernel
  have redirected : ({watchedHandler with intc := watchedHandler.intc.raiseTimer} : Machine).deliverInterrupt.regs.pc = 4 := by decide +kernel
  obtain ⟨i,pre,read,_⟩ := fetched.returns
  have unmarked := clear (.ieee .scalar) watchedHandler _ _ (.turn _ [] _ (.host watchedHandler [] _ .start .raiseTimer) live rfl)
    _ (List.mem_singleton_self _) 4 ⟨rfl,redirected.symm,i,pre,read⟩
  exact absurd unmarked (by decide)

end Novium
