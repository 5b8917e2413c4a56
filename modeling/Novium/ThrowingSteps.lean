import Novium.CApi
import Novium.ControlState
import Novium.Frames

namespace Novium
open Storage Effects Relation StateTransition
variable {h : Host} {m m' : Machine}

-- What a step that throws must not have touched.
structure Intact (m m' : Machine) : Prop where
  gpr : m'.regs.gpr = m.regs.gpr
  vr : m'.regs.vr = m.regs.vr
  status : m'.regs.status = m.regs.status
  halt : m'.regs.halt = m.regs.halt
  scratchpad : m'.scratchpad = m.scratchpad
  mainRam : m'.mainRam = m.mainRam
  csr : m'.csr = m.csr
  profiler : m'.profiler = m.profiler
  tickAccum : m'.tickAccum = m.tickAccum
  timer : m'.timer = m.timer

theorem Intact.trans {a b c : Machine} (first : Intact a b) (second : Intact b c) : Intact a c where
  gpr := second.gpr.trans first.gpr
  vr := second.vr.trans first.vr
  status := second.status.trans first.status
  halt := second.halt.trans first.halt
  scratchpad := second.scratchpad.trans first.scratchpad
  mainRam := second.mainRam.trans first.mainRam
  csr := second.csr.trans first.csr
  profiler := second.profiler.trans first.profiler
  tickAccum := second.tickAccum.trans first.tickAccum
  timer := second.timer.trans first.timer

theorem intact_saveBefore (m : Machine) : Intact m (saveBefore m) := by
  unfold saveBefore
  split
  · exact ⟨rfl,rfl,rfl,rfl,rfl,rfl,rfl,rfl,rfl,rfl⟩
  · exact ⟨rfl,rfl,rfl,rfl,rfl,rfl,rfl,rfl,rfl,rfl⟩

theorem intact_advancePc (m : Machine) : Intact m m.advancePc := ⟨rfl,rfl,rfl,rfl,rfl,rfl,rfl,rfl,rfl,rfl⟩

theorem intact_execute {i : Instruction} {err : EmulatorError} (threw : execute h i m = .thrown err m') : Intact m m' := by
  have stopped := execute_thrown threw
  have frame := execute_frame h i m
  rw [threw] at frame
  have csr : m'.csr = m.csr := congrArg Control.csr stopped.control
  exact ⟨by rw [stopped.regs],by rw [stopped.regs],by rw [stopped.regs],by rw [stopped.regs],stopped.scratchpad,
    stopped.mainRam,csr,frame.profiler,frame.tickAccum,frame.timer⟩

-- A read of the timer changes it at the IRQ register only, and then answers 0 or 1.
theorem readReg_effect (t : TimerDevice) (offset : Word) :
    (t.readReg offset).1 = t ∨ (t.readReg offset).2 = 0 ∨ (t.readReg offset).2 = 1 := by
  unfold TimerDevice.readReg
  split
  · exact .inl rfl
  · split
    · exact .inl rfl
    · split
      · exact .inl rfl
      · split
        · cases t.irqPending with
          | true => exact .inr (.inr rfl)
          | false => exact .inr (.inl rfl)
        · exact .inl rfl

-- What an untranslated fetch reads and leaves.
theorem fetch_bus {i : Instruction} {pre : Machine} (off : m.mmu.enabled = false) (fetched : fetch m = .ok i pre) :
    i = ⟨m.busWord m.regs.pc⟩ ∧ pre = {m.advancePc with timer := m.busTimer m.regs.pc} := by
  simp only [fetch,Exec.bind_apply,Exec.get_apply,Exec.ite_apply,off,Bool.false_eq_true,if_false] at fetched
  cases reached : m.addressable m.regs.pc with
  | true =>
    rw [Handlers.busRead_answers reached] at fetched
    cases fetched
    exact ⟨rfl,rfl⟩
  | false =>
    rcases Handlers.busRead_fails reached with ⟨e,ran⟩ | ran
    · rw [ran] at fetched
      cases fetched
    · rw [ran] at fetched
      cases fetched

-- A fetch from the timer that acknowledges the interrupt fetches a NOP.
theorem fetch_off {i : Instruction} {pre : Machine} (off : m.mmu.enabled = false) (fetched : fetch m = .ok i pre) :
    pre = m.advancePc ∨ i.opcode = some .nop := by
  obtain ⟨rfl,rfl⟩ := fetch_bus off fetched
  unfold Machine.busTimer
  split
  · rename_i device
    simp only [Machine.busWord,device]
    rcases readReg_effect m.timer (m.regs.pc-mmioBase) with same | zero | one
    · left
      rw [same]
      rfl
    · right
      rw [zero]
      decide
    · right
      rw [one]
      decide
  · exact .inl rfl

theorem nop_returns {i : Instruction} {err : EmulatorError} (nop : i.opcode = some .nop) :
    execute h i m ≠ .thrown err m' := by
  intro threw
  simp only [execute,nop,Exec.bind_apply,handler,onRegs,Exec.within,Handlers.opNop,Exec.pure_apply] at threw
  cases threw

-- The pc tells which half of the step threw.
structure LeftIntact (m m' : Machine) : Prop where
  intact : Intact m m'
  unfetched : (fetch (saveBefore m)).Sat (fun _ _ => False) (fun _ _ => True) (fun _ => False) → m'.regs.pc = m.regs.pc
  fetched : (fetch (saveBefore m)).Sat (fun _ _ => True) (fun _ _ => False) (fun _ => False) → m'.regs.pc = m.regs.pc+4

theorem saveBefore_regs (m : Machine) : (saveBefore m).regs = m.regs :=
  Machine.saveBefore_keeps Machine.regs (fun _ _ _ => rfl) m

theorem saveBefore_mmu (m : Machine) : (saveBefore m).mmu = m.mmu :=
  Machine.saveBefore_keeps Machine.mmu (fun _ _ _ => rfl) m

theorem step_left_intact {err : EmulatorError} (running : m.regs.halt = false) (quiet : m.pendingInterrupt = none)
    (off : m.mmu.enabled = false) (threw : step h m = .thrown err m') : LeftIntact m m' := by
  have undelivered : m.deliverInterrupt = m := by
    unfold Machine.deliverInterrupt
    rw [quiet]
  rw [step_running h running,undelivered] at threw
  simp only [cycle,Exec.bind_apply,Exec.get_apply,Exec.modify_apply] at threw
  have effect := fetch_effect (saveBefore m)
  cases fetched : fetch (saveBefore m) with
  | undefined why =>
    rw [fetched] at threw
    cases threw
  | thrown e pre =>
    rw [fetched] at threw effect
    cases (show pre = saveBefore m from effect)
    cases threw
    refine ⟨intact_saveBefore m,fun _ => by rw [saveBefore_regs],?_⟩
    rw [fetched]
    exact False.elim
  | ok i pre =>
    simp only [fetched] at threw
    cases ran : execute h i pre with
    | ok cycles after =>
      rw [ran] at threw
      cases threw
    | undefined why =>
      rw [ran] at threw
      cases threw
    | thrown e after =>
      rw [ran] at threw
      cases threw
      have off' : (saveBefore m).mmu.enabled = false := by rw [saveBefore_mmu,off]
      rcases fetch_off off' fetched with rfl | nop
      · refine ⟨((intact_saveBefore m).trans (intact_advancePc _)).trans (intact_execute ran),?_,?_⟩
        · rw [fetched]
          exact False.elim
        · intro _
          rw [(execute_thrown ran).regs]
          change (saveBefore m).regs.pc+4 = m.regs.pc+4
          rw [saveBefore_regs]
      · exact absurd ran (nop_returns nop)

-- A run that ends in an error was at its loop test one step before.
structure RunTrail (h : Host) (m : Machine) (c : RunConfig) : Prop where
  looping : ∀ n, c = .loop n → ReflTransGen (Stepped h) m n
  threw : ∀ err n, c = .thrown err n → ∃ last, Reaches (runNext h) (.loop m) (.loop last) ∧
    ReflTransGen (Stepped h) m last ∧ last.regs.halt = false ∧ step h last = .thrown err n

theorem run_trail {c : RunConfig} (path : Reaches (runNext h) (.loop m) c) : RunTrail h m c := by
  induction path with
  | refl =>
    refine ⟨?_,fun _ _ impossible => (by cases impossible)⟩
    intro n same
    cases same
    exact .refl
  | tail before next ih =>
    cases runNext_moves next with
    | stepped last n live ran =>
      refine ⟨?_,fun _ _ impossible => (by cases impossible)⟩
      intro n' same
      cases same
      exact .tail (ih.looping last rfl) (.returned ran)
    | threw last n err live ran =>
      refine ⟨fun _ impossible => (by cases impossible),?_⟩
      intro err' n' same
      cases same
      simp only [Machine.live,Bool.and_eq_true,Bool.not_eq_true'] at live
      exact ⟨last,before,ih.looping last rfl,live.1,ran⟩
    | stuck => exact ⟨fun _ impossible => (by cases impossible),fun _ _ impossible => (by cases impossible)⟩
    | stopped => exact ⟨fun _ impossible => (by cases impossible),fun _ _ impossible => (by cases impossible)⟩

theorem throwing_step_intact (h : Host) (m m' : Machine) (off : m.mmu.enabled = false) :
    (∀ err, m.regs.halt = false → m.pendingInterrupt = none → step h m = .thrown err m' → LeftIntact m m') ∧
    (m.regs.halt = false → m.pendingInterrupt = none → aismStep h m = .ok () m' →
      step h m = .ok () m' ∨ LeftIntact m m') ∧
    (AismRun h m m' → Reaches (runNext h) (.loop m) (.done m') ∨ ∃ last, Reaches (runNext h) (.loop m) (.loop last) ∧
      (last.pendingInterrupt = none → LeftIntact last m')) := by
  refine ⟨?_,?_,?_⟩
  · intro err running quiet threw
    exact step_left_intact running quiet off threw
  · intro running quiet answered
    simp only [aismStep,Exec.bind_apply,Exec.attempt,Exec.pure_apply] at answered
    cases ran : step h m with
    | ok u n =>
      rw [ran] at answered
      cases answered
      exact .inl rfl
    | thrown err n =>
      rw [ran] at answered
      cases answered
      exact .inr (step_left_intact running quiet off ran)
    | undefined why =>
      rw [ran] at answered
      cases answered
  · intro ran
    cases ran with
    | returned path => exact .inl path
    | swallowed path =>
      obtain ⟨last,reached,steps,running,threw⟩ := (run_trail path).threw _ _ rfl
      refine .inr ⟨last,reached,?_⟩
      intro quiet
      have disabled : last.mmu.enabled = false := (run_keeps_control steps).mmu.1.trans off
      exact step_left_intact running quiet disabled threw

-- A tile of size zero: the pc is past the word and nothing else has moved.
def emptyTile : Machine := (Emulator.programmed [Enc.matmulTile 0 1 2 0]).core

theorem throwing_step_intact_tile : ∃ err m', step (.ieee .scalar) emptyTile = .thrown err m' ∧ LeftIntact emptyTile m' := by
  have ends : (step (.ieee .scalar) emptyTile).Sat (fun _ _ => False) (fun _ _ => True) (fun _ => False) := by decide +kernel
  cases ran : step (.ieee .scalar) emptyTile with
  | ok u n => simp [ran] at ends
  | undefined why => simp [ran] at ends
  | thrown err m' =>
    exact ⟨err,m',rfl,(throwing_step_intact (.ieee .scalar) emptyTile m' rfl).1 err rfl (by decide +kernel) ran⟩

end Novium
