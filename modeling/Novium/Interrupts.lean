import Novium.Cycle

namespace Novium
open Storage Effects StateTransition SmallStep
variable {h : Host} {m m' : Machine} {ins : Instruction} {t : Trap}

namespace InterruptController

theorem trapCause_interrupt (t : Trap) : (trapCause t).getLsbD 63 = t.isInterrupt := by
  unfold trapCause
  cases t.isInterrupt <;> simp

end InterruptController

-- An interrupt was taken before the instruction: the trap count tells when the
-- instruction trapped as well, MCAUSE tells when it did not.
def InterruptTaken (m m' : Machine) : Prop :=
  m'.intc.trapCount = m.intc.trapCount+2 ∨
    (m'.intc.trapCount = m.intc.trapCount+1 ∧ (m'.csr.read csrMcause).getLsbD 63 = true)

def TakesInterrupt (m : Machine) (o : Outcome EmulatorError Hazard Machine Unit) : Prop :=
  o.Sat (fun _ m' => InterruptTaken m m') (fun _ m' => InterruptTaken m m') (fun _ => False)

theorem CycleTraps.interruptTaken {base : Machine} (traps : CycleTraps base m') (interrupt : t.isInterrupt = true)
    (entered : base.ledger = trapEntry m.ledger t) : InterruptTaken m m' := by
  cases traps with
  | none same =>
    rw [entered] at same
    refine .inr ⟨congrArg Prod.fst same,?_⟩
    have csr : m'.csr = _ := congrArg Prod.snd same
    rw [csr,trapEntry,InterruptController.takeTrapCsr_mcause,InterruptController.trapCause_interrupt,interrupt]
  | one second _ same =>
    rw [entered] at same
    have count : m'.intc.trapCount = m.intc.trapCount+1+1 := congrArg Prod.fst same
    left
    rw [count,BitVec.add_assoc]
    rfl

theorem pendingInterrupt_interrupt (pending : m.pendingInterrupt = some t) : t.isInterrupt = true := by
  unfold Machine.pendingInterrupt InterruptController.pendingInterrupt at pending
  dsimp only at pending
  repeat' split at pending
  all_goals cases pending
  all_goals rfl

theorem deliverInterrupt_ledger (pending : m.pendingInterrupt = some t) :
    m.deliverInterrupt.ledger = trapEntry m.ledger t := by
  simp only [Machine.deliverInterrupt,pending]
  rfl

theorem step_takes_interrupt (h : Host) (running : m.regs.halt = false) (pending : m.pendingInterrupt = some t)
    (defined : ∀ why, step h m ≠ .undefined why) : TakesInterrupt m (step h m) := by
  have interrupt := pendingInterrupt_interrupt pending
  have entered := deliverInterrupt_ledger pending
  have same := step_running h running
  have effect := cycle_effect h m.deliverInterrupt
  rw [same] at defined ⊢
  cases ran : cycle h m.deliverInterrupt with
  | ok _ m' =>
    rw [ran] at effect
    exact CycleTraps.interruptTaken (CycleEffect.traps effect) interrupt entered
  | thrown e m' =>
    rw [ran] at effect
    exact CycleTraps.interruptTaken (CycleStopped.traps effect) interrupt entered
  | undefined why => exact defined why ran

theorem CycleTraps.uninterrupted (traps : CycleTraps m m') : ¬ InterruptTaken m m' := by
  intro taken
  cases traps with
  | none same =>
    have count : m'.intc.trapCount = m.intc.trapCount := congrArg Prod.fst same
    rcases taken with two | ⟨one,_⟩
    · rw [count] at two
      simp at two
    · rw [count] at one
      simp at one
  | one t synchronous same =>
    have count : m'.intc.trapCount = m.intc.trapCount+1 := congrArg Prod.fst same
    have csr : m'.csr = InterruptController.takeTrapCsr m.csr t := congrArg Prod.snd same
    rcases taken with two | ⟨_,cause⟩
    · rw [count] at two
      simp at two
    · rw [csr,InterruptController.takeTrapCsr_mcause,InterruptController.trapCause_interrupt,synchronous] at cause
      cases cause

theorem replay_takes_none (h : Host) (ins : Instruction) (m : Machine) : ¬ TakesInterrupt m (replay h ins m) := by
  have effect := replay_effect h ins m
  unfold TakesInterrupt
  cases ran : replay h ins m with
  | undefined why => exact id
  | thrown e m' =>
    rw [ran] at effect
    exact (CycleTraps.none (ledger_of_control effect.control)).uninterrupted
  | ok _ m' =>
    rw [ran] at effect
    rcases effect with ⟨after,rfl,executed | trapped⟩
    · exact (CycleTraps.none ((ledger_tick after).trans (ledger_of_control executed.control))).uninterrupted
    · obtain ⟨u,t,site,entered⟩ := trapped.ledger
      exact (CycleTraps.one t site.synchronous ((ledger_tick after).trans entered)).uninterrupted

-- What `run_fast` does after the outer loop test: the lookup or the translation may throw,
-- and without operations the block is left at once.
def FastConfig.entered (h : Host) (m : Machine) : Except EmulatorError DecodedBlock → Outcome EmulatorError Hazard Machine Unit
  | .error err => .thrown err m
  | .ok blk => match blk.ops[0]? with
    | some ins => replay h ins m
    | none => .ok () m

-- The machine at an instruction boundary inside `run_fast`, at the outer loop test or in
-- a block, and how the call goes on from it. With verbose on the boundaries are those of `step`.
def FastConfig.boundary (h : Host) : FastConfig → Option (Machine × Outcome EmulatorError Hazard Machine Unit)
  | .loop e => if e.core.live && !e.core.verbose then
      some (e.core,entered h e.core (e.blockCache.translate e.core.scratchpad e.core.regs.pc).1)
    else none
  | .block e blk i => if e.core.live then blk.ops[i]?.map fun ins => (e.core,replay h ins e.core) else none
  | _ => none

-- Delivery at a boundary, as `step` would do it.
def DeliversAt (h : Host) (c : FastConfig) : Prop := ∀ m went irq, c.boundary h = some (m,went) →
  m.pendingInterrupt = some irq → TakesInterrupt m went ∧ went = step h m

def NonePending : FastConfig → Prop
  | .loop e => e.core.live = true → e.core.verbose = false → e.core.pendingInterrupt = none
  | .block e blk i => ∀ ins, blk.ops[i]? = some ins → e.core.live = true → e.core.pendingInterrupt = none
  | _ => True

theorem uninterrupted_refl (m : Machine) : ¬ InterruptTaken m m := (CycleTraps.none rfl).uninterrupted

-- Neither a throwing translation nor a replayed instruction takes an interrupt.
theorem boundary_takes_none {c : FastConfig} {went : Outcome EmulatorError Hazard Machine Unit} (here : c.boundary h = some (m,went)) :
    ¬ TakesInterrupt m went := by
  cases c with
  | loop e =>
    simp only [FastConfig.boundary,Option.ite_none_right_eq_some,Option.some.injEq,Prod.mk.injEq] at here
    obtain ⟨_,rfl,rfl⟩ := here
    cases (e.blockCache.translate e.core.scratchpad e.core.regs.pc).1 with
    | error err => exact uninterrupted_refl e.core
    | ok blk =>
      unfold FastConfig.entered
      dsimp only
      cases blk.ops[0]? with
      | none => exact uninterrupted_refl e.core
      | some ins => exact replay_takes_none h ins e.core
  | block e blk i =>
    simp only [FastConfig.boundary,Option.ite_none_right_eq_some,Option.map_eq_some_iff,Prod.mk.injEq] at here
    obtain ⟨_,ins,_,rfl,rfl⟩ := here
    exact replay_takes_none h ins e.core
  | done e => cases here
  | thrown err e => cases here
  | undefined why => cases here

theorem nonePending_iff (h : Host) (c : FastConfig) : NonePending c ↔ ∀ m went, c.boundary h = some (m,went) → m.pendingInterrupt = none := by
  cases c with
  | loop e =>
    simp only [FastConfig.boundary,Option.ite_none_right_eq_some,Option.some.injEq,Prod.mk.injEq,Bool.and_eq_true,Bool.not_eq_true']
    constructor
    · rintro none m went ⟨⟨live,silent⟩,rfl,_⟩
      exact none live silent
    · intro none live silent
      exact none _ _ ⟨⟨live,silent⟩,rfl,rfl⟩
  | block e blk i =>
    simp only [FastConfig.boundary,Option.ite_none_right_eq_some,Option.map_eq_some_iff,Prod.mk.injEq]
    constructor
    · rintro none m went ⟨live,ins,op,rfl,_⟩
      exact none ins op live
    · intro none ins op live
      exact none _ _ ⟨live,ins,op,rfl,rfl⟩
  | done e => exact ⟨fun _ _ _ impossible => (by cases impossible),fun _ => trivial⟩
  | thrown err e => exact ⟨fun _ _ _ impossible => (by cases impossible),fun _ => trivial⟩
  | undefined why => exact ⟨fun _ _ _ impossible => (by cases impossible),fun _ => trivial⟩

theorem delivers_iff_none_pending (c : FastConfig) : DeliversAt h c ↔ NonePending c := by
  rw [nonePending_iff h]
  constructor
  · intro delivers m went here
    cases pending : m.pendingInterrupt with
    | none => rfl
    | some irq => exact absurd (delivers m went irq here pending).1 (boundary_takes_none here)
  · intro none m went irq here pending
    rw [none m went here] at pending
    cases pending

-- `step` always delivers; a run of `run_fast` delivers only when there is nothing to deliver.
theorem runFast_delivers_iff (h : Host) :
    (∀ m irq, m.regs.halt = false → m.pendingInterrupt = some irq → (∀ why, step h m ≠ .undefined why) →
      TakesInterrupt m (step h m)) ∧
    ∀ e, (∀ d, Reaches (fastNext h) (.loop e) d → DeliversAt h d) ↔
      ∀ d, Reaches (fastNext h) (.loop e) d → NonePending d := by
  refine ⟨fun m irq running pending defined => step_takes_interrupt h running pending defined,?_⟩
  intro e
  constructor
  · intro delivers d path
    exact (delivers_iff_none_pending d).mp (delivers d path)
  · intro none d path
    exact (delivers_iff_none_pending d).mpr (none d path)

-- The timer line is up and unmasked before the first instruction.
def interruptedProgram : Emulator :=
  let e := Emulator.programmed [Enc.movi 1 5,Enc.halt]
  {e with core := {e.core with
    csr := (e.core.csr.write csrMstatus 8).write csrMie 0x80
    intc := e.core.intc.raiseTimer}}

theorem runFast_ignores_timer :
    ¬ ∀ d, Reaches (fastNext (.ieee .scalar)) (.loop interruptedProgram) d → DeliversAt (.ieee .scalar) d := by
  intro delivers
  have none := (delivers_iff_none_pending _).mp (delivers _ .refl) (by decide) rfl
  have pending : interruptedProgram.core.pendingInterrupt = some ⟨.machineTimer,0,0,true⟩ := by decide +kernel
  cases none.symm.trans pending

end Novium
