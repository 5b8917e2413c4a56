import Novium.Course

namespace Novium
open Storage Effects

inductive Load where
  | program (bytes : List Byte)
  | data (addr : Word) (bytes : List Byte)
  | tensor (addr : Word) (lanes : List Word)
  | mainRam (addr : Word) (bytes : List Byte)

namespace Emulator

def load (e : Emulator) : Load → Except EmulatorError Emulator
  | .program bytes => e.loadProgram bytes
  | .data addr bytes => e.loadData addr bytes
  | .tensor addr lanes => e.loadTensor addr lanes
  | .mainRam addr bytes => e.loadMainRam addr bytes

def loadAll (e : Emulator) : List Load → Except EmulatorError Emulator
  | [] => .ok e
  | l :: rest => match e.load l with
    | .error err => .error err
    | .ok e => e.loadAll rest

def fresh (e : Emulator) : Emulator :=
  {Emulator.initial e.core.scratchpad.size e.core.mainRam.size with
    core := {Machine.initial e.core.scratchpad.size e.core.mainRam.size with target := e.core.target,accel := e.core.accel}}

end Emulator

-- What `reset` leaves alone and a program can notice is as the constructor made it:
-- the timer, the receive register, the timing of the AXI fabric and the bus windows.
structure AsConstructed (m : Machine) : Prop where
  timer : m.timer = .initial
  rx : m.uart.readReg 0x04 = 0
  outstanding : m.axi.cfg.maxOutstanding = 8
  latency : m.axi.cfg.latencyCycles = 2
  burst : m.axi.cfg.dataWidth*m.axi.cfg.burstLen = 64*16
  shared : m.shared = none

def SameObserved (m n : Machine) : Prop := n.visible = m.visible ∧ n.profiler = m.profiler

theorem SameCourse.observed {m n : Machine} (related : SameCourse true m n) : SameObserved m n := by
  refine ⟨?_,congrArg Course.profiler related.same⟩
  have regs : n.regs = m.regs := congrArg Course.regs related.same
  have scratchpad : n.scratchpad = m.scratchpad := congrArg Course.scratchpad related.same
  have mainRam : n.mainRam = m.mainRam := congrArg Course.mainRam related.same
  unfold Machine.visible
  rw [regs,scratchpad,mainRam,related.csr rfl]

structure SameStart (a b : Emulator) : Prop where
  core : SameCourse true a.core b.core
  cache : b.blockCache = a.blockCache

theorem initial_masked : CSRFile.initial.mstatusMie = false := by decide

theorem reset_course {e : Emulator} (clean : AsConstructed e.core) : SameStart e.reset e.fresh where
  core := {
    same := by
      have rx : e.core.uart.readReg = UartDevice.initial.readReg := by
        funext offset
        by_cases receive : offset = 0x04
        · rw [receive,clean.rx]
          rfl
        · simp only [UartDevice.readReg,if_neg receive]
      unfold Machine.course
      simp only [Emulator.reset,Emulator.clearBlocks,Machine.reset,clean.timer,clean.shared,rx]
      rfl
    csr := fun _ => rfl
    left := ⟨rfl,.inl initial_masked⟩
    right := ⟨rfl,.inl initial_masked⟩
    flow := ⟨clean.outstanding.symm,clean.latency.symm,clean.burst.symm,rfl,.inl rfl⟩}
  cache := rfl

inductive LoadedAlike : Except EmulatorError Emulator → Except EmulatorError Emulator → Prop where
  | ok : SameStart a b → LoadedAlike (.ok a) (.ok b)
  | error : LoadedAlike (.error err) (.error err)

section Loading
variable {a b : Emulator}

theorem SameStart.loadData (start : SameStart a b) (addr : Word) (data : List Byte) :
    LoadedAlike (a.loadData addr data) (b.loadData addr data) := by
  have scratchpad : b.core.scratchpad = a.core.scratchpad := congrArg Course.scratchpad start.core.same
  unfold Emulator.loadData
  rw [scratchpad]
  cases VirtualSRAM.writeBytes a.core.scratchpad addr data with
  | error err => exact .error
  | ok ram => exact .ok ⟨(SameCourse.lockstep true).withScratchpad start.core ram,start.cache⟩

theorem SameStart.load (start : SameStart a b) (l : Load) : LoadedAlike (a.load l) (b.load l) := by
  cases l with
  | data addr bytes => exact start.loadData addr bytes
  | tensor addr lanes => exact start.loadData addr _
  | program bytes =>
    have scratchpad : b.core.scratchpad = a.core.scratchpad := congrArg Course.scratchpad start.core.same
    unfold Emulator.load Emulator.loadProgram
    dsimp only
    rw [scratchpad]
    split
    · exact .error
    · cases VirtualSRAM.writeBytes a.core.scratchpad textBase bytes with
      | error err => exact .error
      | ok ram => exact .ok ⟨(SameCourse.lockstep true).withScratchpad start.core ram,rfl⟩
  | mainRam addr bytes =>
    have mainRam : b.core.mainRam = a.core.mainRam := congrArg Course.mainRam start.core.same
    have size : b.core.mainRam.size = a.core.mainRam.size := by rw [mainRam]
    have written : b.core.mainRam.write addr.toNat bytes = a.core.mainRam.write addr.toNat bytes := by rw [mainRam]
    unfold Emulator.load Emulator.loadMainRam
    dsimp only
    rw [size,written]
    split
    · exact .ok ⟨(SameCourse.lockstep true).withMainRam start.core _,start.cache⟩
    · exact .error

theorem SameStart.loadAll (start : SameStart a b) (loads : List Load) : LoadedAlike (a.loadAll loads) (b.loadAll loads) := by
  induction loads generalizing a b with
  | nil => exact .ok start
  | cons l rest ih =>
    have first := start.load l
    unfold Emulator.loadAll
    generalize a.load l = x at first ⊢
    generalize b.load l = y at first ⊢
    cases first with
    | error => exact .error
    | ok next => exact ih next

end Loading

-- Resetting equals constructing: the same loads are accepted and every run shows the
-- same registers, memories, CSRs and counters at every step.
def ResetsToFresh (h : Host) (e : Emulator) (loads : List Load) : Prop :=
  (∀ err, e.reset.loadAll loads = .error err ↔ e.fresh.loadAll loads = .error err) ∧
  ∀ a b, e.reset.loadAll loads = .ok a → e.fresh.loadAll loads = .ok b → ∀ n, RunAlike h SameObserved a b n

theorem reset_equals_fresh (h : Host) (e : Emulator) (clean : AsConstructed e.core) (loads : List Load) :
    ResetsToFresh h e loads := by
  have loaded := (reset_course clean).loadAll loads
  unfold ResetsToFresh
  generalize e.reset.loadAll loads = x at loaded ⊢
  generalize e.fresh.loadAll loads = y at loaded ⊢
  cases loaded with
  | error => exact ⟨fun _ => Iff.rfl,fun _ _ impossible => by cases impossible⟩
  | ok start =>
    refine ⟨?_,?_⟩
    · intro err
      constructor
      · intro impossible
        cases impossible
      · intro impossible
        cases impossible
    · intro a b left right n
      cases left
      cases right
      exact ((SameCourse.lockstep true).runs h start.core start.cache n).mono fun _ _ related => related.observed

-- The guest wrote 1 to the timer's control register and is then reset.
def timerStarted : Emulator :=
  let e := Emulator.initial 512 256
  {e with core := {e.core with timer := e.core.timer.writeReg 0x08 1}}

-- Reads the control register into r3; the address is built in r1 from two halves.
def readsTimerControl : List Load :=
  [.program ([Enc.movi 1 0x3F0,Enc.movi 2 0x8000,Enc.mul 1 1 2,Enc.add 1 1 1,Enc.load 3 1 8].flatMap wordBytes)]

def gprAfter (n : Nat) (loaded : Except EmulatorError Emulator) (k : Fin numGpr) : Option Word :=
  match loaded with
  | .error _ => none
  | .ok e => match Exec.calls (step (.ieee .scalar)) n e.core with
    | .ok _ m => some (m.regs.gpr k)
    | _ => none

theorem gprAfter_agree {a b : Except EmulatorError Emulator} {n : Nat} {k : Fin numGpr}
    (alike : ∀ x y, a = .ok x → b = .ok y → RunAlike (.ieee .scalar) SameObserved x y n)
    (loaded : (gprAfter n a k).isSome = true) (loaded' : (gprAfter n b k).isSome = true) : gprAfter n b k = gprAfter n a k := by
  cases a with
  | error err => cases loaded
  | ok x =>
    cases b with
    | error err => cases loaded'
    | ok y =>
      have agree := (alike x y rfl rfl).step
      unfold gprAfter at loaded loaded' ⊢
      dsimp only at loaded loaded' ⊢
      generalize Exec.calls (step (.ieee .scalar)) n x.core = o at agree loaded ⊢
      generalize Exec.calls (step (.ieee .scalar)) n y.core = p at agree loaded' ⊢
      cases agree with
      | ok _ observed => exact congrArg (fun v : Visible => some (v.regs.gpr k)) observed.1
      | thrown => cases loaded
      | undefined => cases loaded
      | left impossible => cases impossible
      | right impossible => cases impossible

theorem reset_keeps_timer : ¬ ∀ (h : Host) (e : Emulator) (loads : List Load), ResetsToFresh h e loads := by
  intro resets
  have alike := (resets (.ieee .scalar) timerStarted readsTimerControl).2
  have same := gprAfter_agree (fun x y left right => alike x y left right 5) (by decide +kernel : (gprAfter 5 _ 3).isSome = true)
    (by decide +kernel)
  have started : gprAfter 5 (timerStarted.reset.loadAll readsTimerControl) 3 = some 1 := by decide +kernel
  have stopped : gprAfter 5 (timerStarted.fresh.loadAll readsTimerControl) 3 = some 0 := by decide +kernel
  rw [started,stopped] at same
  cases same

-- Memory, registers and CSRs left over by an earlier program do not matter.
def leftover : Emulator :=
  let e := Emulator.programmed [Enc.movi 1 5,Enc.halt]
  {e with core := {e.core with
    regs := {e.core.regs with halt := true,pc := 8}
    csr := e.core.csr.write csrMtvec 0x100
    tickAccum := 7}}

theorem reset_equals_fresh_leftover : AsConstructed leftover.core ∧
    ResetsToFresh (.ieee .avx2) leftover readsTimerControl := by
  have clean : AsConstructed leftover.core := ⟨rfl,rfl,rfl,rfl,rfl,rfl⟩
  exact ⟨clean,reset_equals_fresh (.ieee .avx2) leftover clean readsTimerControl⟩

end Novium
