import Novium.CApi
import Novium.Coherence
import Novium.SaveRestore
import Novium.Unwatched

namespace Novium
open Storage Effects StateTransition SmallStep Relation

namespace Debugger

def clearBreakpoints (d : Debugger) : Debugger := {d with breakpoints := ∅}
def enableSingleStep (d : Debugger) : Debugger := {d with singleStep := true}
def disableSingleStep (d : Debugger) : Debugger := {d with singleStep := false}

end Debugger

-- `try { return ...; } catch (...) { return 0; }`
def aismRead32 (addr : Word) : Emu Word := fun m =>
  match Bus.read32 addr m with
  | .ok value m' => .ok value m'
  | .thrown _ m' => .ok 0 m'
  | .undefined why => .undefined why

-- `run_fast` need not return either.
inductive AismRunFast (h : Host) (e : Emulator) : Emulator → Prop where
  | returned : Reaches (fastNext h) (.loop e) (.done e') → AismRunFast h e e'
  | swallowed : Reaches (fastNext h) (.loop e) (.thrown err e') → AismRunFast h e e'

inductive DebugCall where
  | step | run | runFast
  | read32 (addr : Word)
  | addBreakpoint (addr : Word)
  | removeBreakpoint (addr : Word)
  | clearBreakpoints | enableSingleStep | disableSingleStep
  | setVerbose (on : Bool)
  deriving DecidableEq

def Emulator.debug (e : Emulator) (f : Debugger → Debugger) : Emulator :=
  {e with core := {e.core with debugger := f e.core.debugger}}

-- A call that returns. The fast loop is asked for in verbose mode only, where it traces every step.
inductive DebugCall.Returns (h : Host) (e : Emulator) : DebugCall → Emulator → Prop where
  | step : aismStep h e.core = .ok () m → Returns h e .step {e with core := m}
  | run : AismRun h e.core m → Returns h e .run {e with core := m}
  | runFast : e.core.verbose = true → AismRunFast h e e' → Returns h e .runFast e'
  | read32 (addr value : Word) : aismRead32 addr e.core = .ok value m → Returns h e (.read32 addr) {e with core := m}
  | addBreakpoint (addr : Word) : Returns h e (.addBreakpoint addr) (e.debug (·.addBreakpoint addr))
  | removeBreakpoint (addr : Word) : Returns h e (.removeBreakpoint addr) (e.debug (·.removeBreakpoint addr))
  | clearBreakpoints : Returns h e .clearBreakpoints (e.debug Debugger.clearBreakpoints)
  | enableSingleStep : Returns h e .enableSingleStep (e.debug Debugger.enableSingleStep)
  | disableSingleStep : Returns h e .disableSingleStep (e.debug Debugger.disableSingleStep)
  | setVerbose (on : Bool) : Returns h e (.setVerbose on) {e with core := {e.core with verbose := on}}

inductive DebugSession (h : Host) (start : Emulator) : List DebugCall → Emulator → Prop where
  | start : DebugSession h start [] start
  | call (c : DebugCall) : DebugSession h start calls e → c.Returns h e e' → DebugSession h start (calls ++ [c]) e'

-- So many steps and nothing else, errors caught.
inductive Plays (h : Host) : Nat → Machine → Machine → Prop where
  | stay : Plays h 0 m m
  | step : Stepped h m k → Plays h n k m' → Plays h (n+1) m m'

theorem Watched.refl (m : Machine) : Watched m m := .of m.watch rfl

theorem Watched.symm {m n : Machine} (related : Watched m n) : Watched n m := by
  cases related with
  | under w => exact .of m.watch rfl

theorem Watched.trans {m n k : Machine} (first : Watched m n) (second : Watched n k) : Watched m k := by
  cases first with
  | under w =>
    cases second with
    | under v => exact .of v rfl

theorem Watched.flushed (m : Machine) : Watched m m.flushUart := .printed m.watch rfl m.uart.flush_rxBuffer rfl rfl

section Plays
variable {h : Host} {m m' k n : Machine} {i j : Nat}

theorem Stepped.watched (stepped : Stepped h m m') (related : Watched m n) : ∃ n', Stepped h n n' ∧ Watched m' n' := by
  have same := related.step h
  cases stepped with
  | returned ran =>
    rw [ran] at same
    generalize other : step h n = o at same
    cases same with
    | ok _ related => exact ⟨_,.returned other,related⟩
    | right excused => cases excused
  | thrown ran =>
    rw [ran] at same
    generalize other : step h n = o at same
    cases same with
    | thrown related => exact ⟨_,.thrown other,related⟩
    | right excused => cases excused

theorem Stepped.unique (first : Stepped h m k) (second : Stepped h m n) : k = n := by
  cases first with
  | returned ran =>
    cases second with
    | returned ran' => cases ran.symm.trans ran'; rfl
    | thrown ran' => cases ran.symm.trans ran'
  | thrown ran =>
    cases second with
    | returned ran' => cases ran.symm.trans ran'
    | thrown ran' => cases ran.symm.trans ran'; rfl

theorem Plays.append (first : Plays h i m k) (second : Plays h j k m') : Plays h (i+j) m m' := by
  induction first with
  | stay =>
    rw [Nat.zero_add]
    exact second
  | step stepped _ ih =>
    rw [Nat.succ_add]
    exact .step stepped (ih second)

theorem Plays.one (stepped : Stepped h m m') : Plays h 1 m m' := .step stepped .stay

theorem Plays.watched (plays : Plays h i m m') (related : Watched m n) : ∃ n', Plays h i n n' ∧ Watched m' n' := by
  induction plays generalizing n with
  | stay => exact ⟨n,.stay,related⟩
  | step stepped _ ih =>
    obtain ⟨k,first,between⟩ := stepped.watched related
    obtain ⟨n',rest,ends⟩ := ih between
    exact ⟨n',.step first rest,ends⟩

theorem Plays.halted (plays : Plays h i m m') (halt : m.regs.halt = true) : m' = m := by
  induction plays with
  | stay => rfl
  | step stepped _ ih =>
    cases stepped.unique (.returned (step_halted h halt))
    exact ih halt

theorem Plays.meet (first : Plays h i m k) (second : Plays h j m n) (halt : k.regs.halt = true) (halt' : n.regs.halt = true) :
    k = n := by
  induction first generalizing j with
  | stay => exact (second.halted halt).symm
  | step stepped rest ih =>
    cases second with
    | stay => exact (Plays.step stepped rest).halted halt'
    | step stepped' rest' =>
      cases stepped.unique stepped'
      exact ih rest' halt

end Plays

structure Survives (h : Host) (P : Machine → Prop) : Prop where
  stepped : P m → Stepped h m m' → P m'
  flushed : P m → P m.flushUart
  debugged : P m → ∀ d, P {m with debugger := d}

section Calls
variable {h : Host} {P : Machine → Prop} {m m' : Machine} {e e' : Emulator}

theorem Survives.runNext (survives : Survives h P) {c : RunConfig} (path : Reaches (runNext h) (.loop m) c) (start : P m) :
    ∀ m', c.machine = some m' → P m' := by
  induction path with
  | refl =>
    intro m' here
    cases here
    exact start
  | tail _ next ih =>
    intro m' here
    cases runNext_moves next with
    | stepped k k' live ran =>
      cases here
      exact survives.stepped (ih k rfl) (.returned ran)
    | threw k k' err live ran =>
      cases here
      exact survives.stepped (ih k rfl) (.thrown ran)
    | stuck k why live ran => cases here
    | stopped k live =>
      cases here
      exact survives.flushed (ih k rfl)

theorem Survives.run (survives : Survives h P) (ran : AismRun h m m') (start : P m) : P m' := by
  cases ran with
  | returned path => exact survives.runNext path start m' rfl
  | swallowed path => exact survives.runNext path start m' rfl

-- `run_fast` in verbose mode stays at its outer loop and calls `step`.
theorem Survives.fastNext (survives : Survives h P) {c : FastConfig} (verbose : e.core.verbose = true)
    (path : Reaches (fastNext h) (.loop e) c) (start : P e.core) :
    ((∀ e' blk i, c ≠ .block e' blk i) ∧ ∀ e', c = .loop e' → e'.core.verbose = true) ∧ ∀ e', c.emulator = some e' → P e'.core := by
  induction path with
  | refl =>
    refine ⟨⟨(fun _ _ _ impossible => by cases impossible),fun e' here => ?_⟩,fun e' here => ?_⟩
    · cases here
      exact verbose
    · cases here
      exact start
  | @tail b c _ next ih =>
    obtain ⟨⟨unblocked,tracing⟩,kept⟩ := ih
    cases fastNext_moves next with
    | traced k live traced =>
      have before := kept k rfl
      cases ran : Novium.step h k.core with
      | ok u m' =>
        have verbose : m'.verbose = k.core.verbose :=
          congrArg (fun s : TargetProfile × Debugger × Bool => s.2.2) (Stepped.lasts (.returned ran)).settings
        refine ⟨⟨(fun _ _ _ impossible => by cases impossible),fun e' here => ?_⟩,fun e' here => ?_⟩
        · cases here
          exact verbose.trans traced
        · cases here
          exact survives.stepped before (.returned ran)
      | thrown err m' =>
        refine ⟨⟨(fun _ _ _ impossible => by cases impossible),(fun _ impossible => by cases impossible)⟩,fun e' here => ?_⟩
        cases here
        exact survives.stepped before (.thrown ran)
      | undefined why =>
        exact ⟨⟨(fun _ _ _ impossible => by cases impossible),(fun _ impossible => by cases impossible)⟩,
          fun e' impossible => by cases impossible⟩
    | stopped k live =>
      refine ⟨⟨(fun _ _ _ impossible => by cases impossible),(fun _ impossible => by cases impossible)⟩,fun e' here => ?_⟩
      cases here
      exact survives.flushed (kept k rfl)
    | entered k blk cache live silent found => cases (tracing k rfl).symm.trans silent
    | unread k err cache live silent found => cases (tracing k rfl).symm.trans silent
    | replayed | ended | left => exact absurd rfl (unblocked _ _ _)

theorem Survives.runFast (survives : Survives h P) (verbose : e.core.verbose = true) (ran : AismRunFast h e e')
    (start : P e.core) : P e'.core := by
  cases ran with
  | returned path => exact (survives.fastNext verbose path start).2 e' rfl
  | swallowed path => exact (survives.fastNext verbose path start).2 e' rfl

theorem aismStep_stepped (ran : aismStep h m = .ok () m') : Stepped h m m' := by
  simp only [aismStep,Exec.bind_apply,Exec.attempt,Exec.pure_apply] at ran
  generalize stepped : step h m = o at ran
  cases o with
  | ok u k =>
    cases ran
    exact .returned stepped
  | thrown err k =>
    cases ran
    exact .thrown stepped
  | undefined why => cases ran

theorem aismRead32_same {addr value : Word} (other : addr ≠ mmioBase+0x0C) (ran : aismRead32 addr m = .ok value m') : m' = m := by
  have same : m.busTimer addr = m.timer := by
    unfold Machine.busTimer TimerDevice.readReg
    split
    · have offset : ¬ addr-mmioBase = 0x0C := fun irq => other (by bv_omega)
      rw [if_neg offset]
      split <;> (try split) <;> (try split) <;> rfl
    · rfl
  unfold aismRead32 at ran
  cases reached : m.addressable addr with
  | true =>
    rw [Handlers.busRead_answers reached,same] at ran
    cases ran
    rfl
  | false =>
    rcases Handlers.busRead_fails reached with ⟨err,failed⟩ | failed
    · rw [failed] at ran
      cases ran
      rfl
    · rw [failed] at ran
      cases ran

theorem Survives.call (survives : Survives h P) {c : DebugCall} (quiet : c ≠ .read32 (mmioBase+0x0C))
    (switched : ∀ on m, c = .setVerbose on → P m → P {m with verbose := on}) (returns : c.Returns h e e') (start : P e.core) :
    P e'.core := by
  cases returns with
  | step ran => exact survives.stepped start (aismStep_stepped ran)
  | run ran => exact survives.run ran start
  | runFast verbose ran => exact survives.runFast verbose ran start
  | read32 addr value ran =>
    have same := aismRead32_same (fun irq => quiet (congrArg DebugCall.read32 irq)) ran
    subst same
    exact start
  | setVerbose on => exact switched on _ rfl start
  | _ => exact survives.debugged start _

theorem Survives.session (survives : Survives h P) {calls : List DebugCall} (quiet : .read32 (mmioBase+0x0C) ∉ calls)
    (switched : ∀ on m, .setVerbose on ∈ calls → P m → P {m with verbose := on}) (session : DebugSession h e calls e')
    (start : P e.core) : P e'.core := by
  induction session with
  | start => exact start
  | call c _ returns ih =>
    have here {calls : List DebugCall} : c ∈ calls ++ [c] := List.mem_append_right _ List.mem_cons_self
    refine survives.call (fun same => quiet (same ▸ here)) (fun on m same => switched on m (same ▸ here)) returns ?_
    exact ih (fun listed => quiet (List.mem_append_left _ listed)) fun on m listed => switched on m (List.mem_append_left _ listed)

-- So many steps of the start lead where the emulator is, but for what is only watched.
def Reenacts (h : Host) (start m : Machine) : Prop := ∃ n k, Plays h n start k ∧ Watched k m

theorem reenacts_survives (h : Host) (start : Machine) : Survives h (Reenacts h start) where
  stepped := by
    rintro m m' ⟨n,k,plays,same⟩ stepped
    obtain ⟨k',stepped',same'⟩ := stepped.watched same.symm
    exact ⟨n+1,k',plays.append (.one stepped'),same'.symm⟩
  flushed := by
    rintro m ⟨n,k,plays,same⟩
    exact ⟨n,k,plays,same.trans (.flushed m)⟩
  debugged := by
    rintro m ⟨n,k,plays,same⟩ d
    exact ⟨n,k,plays,same.trans (.of_watch rfl)⟩

theorem DebugSession.reenacts {calls : List DebugCall} (session : DebugSession h e calls e')
    (quiet : .read32 (mmioBase+0x0C) ∉ calls) : Reenacts h e.core e'.core := by
  refine (reenacts_survives h e.core).session quiet ?_ session ⟨0,_,.stay,.refl _⟩
  rintro on m _ ⟨n,k,plays,same⟩
  exact ⟨n,k,plays,same.trans (.of_watch rfl)⟩

-- Debugging is transparent. However breakpoints are set, single steps and runs mixed, words read
-- (but for the register that a read acknowledges) and the trace switched, the emulator is where so
-- many plain steps lead; and a session that ends halted ends where an uninterrupted run does.
theorem debugging_transparent {calls : List DebugCall} (session : DebugSession h e calls e')
    (quiet : .read32 (mmioBase+0x0C) ∉ calls) : (∃ n m, Plays h n e.core m ∧ Watched m e'.core) ∧
      ∀ start last, Watched e.core start → Reaches (runNext h) (.loop start) (.done last) →
        e'.core.regs.halt = true → last.regs.halt = true → Watched last e'.core := by
  obtain ⟨n,k,plays,ends⟩ := session.reenacts quiet
  refine ⟨⟨n,k,plays,ends⟩,?_⟩
  intro start last alike path halt halt'
  obtain ⟨j,final,other,lasts⟩ := (reenacts_survives h start).runNext path ⟨0,_,.stay,.refl _⟩ last rfl
  obtain ⟨k',played,same⟩ := plays.watched alike
  have regs : ∀ {a b : Machine}, Watched a b → a.regs = b.regs := fun related => by cases related; rfl
  have met := played.meet other (by rw [← regs same,regs ends]; exact halt) (by rw [regs lasts]; exact halt')
  subst met
  exact (lasts.symm.trans same.symm).trans ends

end Calls

-- MOVI r1,5; HALT stopped at its second instruction and let go.
theorem debugging_transparent_stopped : ∃ e' last,
    DebugSession (.ieee .scalar) (.programmed [Enc.movi 1 5,Enc.halt]) [.addBreakpoint 4,.run,.clearBreakpoints,.run] e' ∧
      Reaches (runNext (.ieee .scalar)) (.loop (Emulator.programmed [Enc.movi 1 5,Enc.halt]).core) (.done last) ∧
      Watched last e'.core ∧ last.regs.gpr 1 = 5 := by
  obtain ⟨c,stopping,found⟩ := reaches_of_any (by decide +kernel :
    (after (runNext (.ieee .scalar)) 2 (.loop ((Emulator.programmed [Enc.movi 1 5,Enc.halt]).debug (·.addBreakpoint 4)).core)).any (fun
      | .done m => (after (runNext (.ieee .scalar)) 2 (.loop {m with debugger := m.debugger.clearBreakpoints})).any (fun
        | .done k => k.regs.halt
        | _ => false)
      | _ => false) = true)
  obtain ⟨d,running,ended⟩ := reaches_of_any (by decide +kernel :
    (after (runNext (.ieee .scalar)) 3 (.loop (Emulator.programmed [Enc.movi 1 5,Enc.halt]).core)).any (fun
      | .done m => m.regs.halt && m.regs.gpr 1 == 5
      | _ => false) = true)
  cases c with
  | done m =>
    obtain ⟨b,resumed,halts⟩ := reaches_of_any found
    cases d with
    | done last =>
      rw [Bool.and_eq_true,beq_iff_eq] at ended
      cases b with
      | done k =>
        have begun : DebugSession (.ieee .scalar) (.programmed [Enc.movi 1 5,Enc.halt]) _ _ := .call _ .start (.addBreakpoint 4)
        have session := ((begun.call _ (.run (.returned stopping))).call _ .clearBreakpoints).call _ (.run (.returned resumed))
        have same := (debugging_transparent session (by decide)).2 _ last (.of_watch rfl) running halts ended.1
        exact ⟨_,last,session,running,same,ended.2⟩
      | loop k | thrown err k | undefined why => cases halts
    | loop m | thrown err m | undefined why => cases ended
  | loop m | thrown err m | undefined why => cases found

end Novium
