import Novium.ControlState
import Novium.Course
import Novium.Frames

namespace Novium
open Storage Effects Relation SmallStep

-- What `save_state` keeps. The halt flag is not among the fields.
structure State where
  status : StatusFlags
  gpr : Fin numGpr → Word
  vr : Fin numVr → Fin vecWidth → Word
  pc : Word
  tickAccum : DWord
  profiler : Profiler

namespace Machine

def saveState (m : Machine) : State := ⟨m.regs.status,m.regs.gpr,m.regs.vr,m.regs.pc,m.tickAccum,m.profiler⟩

def restoreState (m : Machine) (s : State) : Machine :=
  {m with
    regs := {m.regs with status := s.status,gpr := Function.update s.gpr 0 0,vr := s.vr,pc := s.pc}
    tickAccum := s.tickAccum
    profiler := s.profiler}

end Machine

-- The states an emulator can be in. `host` stands for the calls that leave the
-- registers alone: they are not handed out for writing.
inductive Reached (h : Host) : Machine → Prop where
  | initial (scratchpadBytes mainRamBytes : Nat) : Reached h (.initial scratchpadBytes mainRamBytes)
  | step : Reached h m → Stepped h m m' → Reached h m'
  | replay : Reached h m → replay h i m = .ok () m' → Reached h m'
  | replayThrown : Reached h m → Novium.replay h i m = .thrown err m' → Reached h m'
  | host : Reached h m → m'.regs = m.regs → Reached h m'
  | reset : Reached h m → Reached h m.reset
  | restore : Reached h m → Reached h (m.restoreState s)

def Machine.settings (m : Machine) : TargetProfile × Debugger × Bool := (m.target,m.debugger,m.verbose)

def Machine.lasting (m : Machine) : (Fin numGpr → Word) × (ByteStore × ByteStore × UartDevice × Option ByteStore) ×
    TargetProfile × Debugger × Bool :=
  (m.regs.gpr,m.storage,m.settings)

theorem lasting_deliver (m : Machine) : m.deliverInterrupt.lasting = m.lasting :=
  Machine.deliverInterrupt_keeps Machine.lasting (fun _ _ _ _ => rfl) m

theorem lasting_saveBefore (m : Machine) : (saveBefore m).lasting = m.lasting :=
  Machine.saveBefore_keeps Machine.lasting (fun _ _ _ => rfl) m

theorem lasting_logStep (pc : Word) (i : Instruction) (cycles : Word) (m : Machine) :
    (logStep pc i cycles m).lasting = m.lasting := Machine.logStep_keeps Machine.lasting (fun _ _ => rfl) pc i cycles m

theorem lasting_tick (m : Machine) : m.tickPeripherals.lasting = m.lasting :=
  Machine.tickPeripherals_keeps Machine.lasting (fun _ => rfl) m

-- What an instruction does to them: storage is moved by the storing instructions only.
structure Lasts (writes : Prop) (m m' : Machine) : Prop where
  zero : m.regs.gpr 0 = 0 → m'.regs.gpr 0 = 0
  storage : ¬ writes → m'.storage = m.storage
  settings : m'.settings = m.settings

theorem Lasts.within {writes : Prop} {m m' n n' : Machine} (lasts : Lasts writes m m') (before : m.lasting = n.lasting)
    (after : n'.lasting = m'.lasting) : Lasts writes n n' := by
  simp only [Machine.lasting,Prod.mk.injEq] at before after
  obtain ⟨gpr,storage,settings⟩ := before
  obtain ⟨gpr',storage',settings'⟩ := after
  refine ⟨?_,?_,?_⟩
  · rw [gpr',← gpr]
    exact lasts.zero
  · rw [storage',← storage]
    exact lasts.storage
  · rw [settings',← settings]
    exact lasts.settings

theorem settings_of_control {m m' : Machine} (same : m'.control = m.control) : m'.settings = m.settings :=
  congrArg (fun c : Control => (c.target,c.debugger,c.verbose)) same

section Steps
variable {h : Host} {m m' : Machine} {i : Instruction} {cycles : Word}

def Instruction.stores (i : Instruction) : Prop := ∃ op, i.opcode = some op ∧ op.stores i = true

theorem execute_lasts (ran : execute h i m = .ok cycles m') : Lasts i.stores m m' := by
  have charged := execute_frame h i m
  rw [ran] at charged
  refine ⟨charged.zero,?_,?_⟩
  · intro reads
    apply charged.storage
    intro op opcode
    simpa using fun stores => reads ⟨op,opcode,stores⟩
  · rcases execute_ok ran with effect | ⟨u,t,profiler,accum,_,rfl⟩
    · exact settings_of_control effect.control
    · rfl

theorem execute_thrown_lasts {err : EmulatorError} (threw : execute h i m = .thrown err m') : Lasts False m m' := by
  have stopped := execute_thrown threw
  have unframed := execute_frame h i m
  rw [threw] at unframed
  refine ⟨?_,fun _ => unframed.storage,settings_of_control stopped.control⟩
  rw [stopped.regs]
  exact fun zero => zero

theorem fetch_lasting {pre : Machine} (fetched : fetch (saveBefore m.deliverInterrupt) = .ok i pre) :
    pre.lasting = m.lasting := fetched_keeps Machine.lasting (fun _ _ _ _ _ _ _ _ => rfl) fetched

-- The instruction of the next step returns and is a storing one.
def Machine.stepStores (h : Host) (m : Machine) : Prop := m.regs.halt = false ∧ ∃ i pre cycles after,
  fetch (saveBefore m.deliverInterrupt) = .ok i pre ∧ execute h i pre = .ok cycles after ∧ i.stores

theorem Stepped.lasts (stepped : Stepped h m m') : Lasts (m.stepStores h) m m' := by
  have weaken : ∀ {writes : Prop}, (writes → m.stepStores h) → Lasts writes m m' → Lasts (m.stepStores h) m m' := by
    intro writes fewer lasts
    exact ⟨lasts.zero,fun quiet => lasts.storage fun writes => quiet (fewer writes),lasts.settings⟩
  cases halt : m.regs.halt with
  | true =>
    have idle := step_halted h halt
    cases stepped with
    | returned ran =>
      rw [idle] at ran
      cases ran
      exact ⟨fun zero => zero,fun _ => rfl,rfl⟩
    | thrown ran =>
      rw [idle] at ran
      cases ran
  | false =>
    rcases stepped.cases with rfl | ran | stopped
    · exact ⟨fun zero => zero,fun _ => rfl,rfl⟩
    · cases ran with
      | ran fetched executed =>
        refine weaken (fun stores => ⟨halt,_,_,_,_,fetched,executed,stores⟩) ?_
        exact (execute_lasts executed).within (fetch_lasting fetched) ((lasting_logStep ..).trans (lasting_tick _))
    · cases stopped with
      | fetch =>
        have same := (lasting_saveBefore m.deliverInterrupt).trans (lasting_deliver m)
        refine Lasts.within (m := m) (n := m) ⟨fun zero => zero,fun _ => rfl,rfl⟩ rfl same
      | execute fetched threw =>
        have stops := (execute_thrown_lasts threw).within (n := m) (fetch_lasting fetched) rfl
        exact weaken False.elim stops

theorem replay_zero (zero : m.regs.gpr 0 = 0) :
    (replay h i m).Sat (fun _ m' => m'.regs.gpr 0 = 0) (fun _ m' => m'.regs.gpr 0 = 0) (fun _ => True) := by
  simp only [replay,Exec.sat_bind,Exec.modify_apply,Outcome.sat_ok]
  cases ran : execute h i m.advancePc with
  | ok cycles after =>
    have kept := (execute_lasts ran).within (n := m) rfl (lasting_tick after)
    exact kept.zero zero
  | thrown err after => exact (execute_thrown_lasts ran).zero zero
  | undefined why => trivial

theorem Reached.zero (reached : Reached h m) : m.regs.gpr 0 = 0 := by
  induction reached with
  | initial => rfl
  | step _ stepped ih => exact stepped.lasts.zero ih
  | @replay n i n' _ ran ih =>
    have effect := replay_zero (h := h) (i := i) ih
    rw [ran] at effect
    exact effect
  | @replayThrown n i err n' _ ran ih =>
    have effect := replay_zero (h := h) (i := i) ih
    rw [ran] at effect
    exact effect
  | host _ same ih =>
    rw [same]
    exact ih
  | reset => rfl
  | restore => simp [Machine.restoreState]

end Steps

structure Silent (h : Host) (m m' : Machine) : Prop where
  stepped : Stepped h m m'
  unwritten : ¬ m.stepStores h

-- What the run from `s` left behind and the saved state does not hold.
structure Rewindable (s m : Machine) : Prop where
  halt : m.regs.halt = s.regs.halt
  timer : m.timer = s.timer
  flow : SameFlow s.axi m.axi

section Runs
variable {h : Host} {s m : Machine}

theorem silent_stepped (path : ReflTransGen (Silent h) s m) : ReflTransGen (Stepped h) s m := by
  induction path with
  | refl => exact .refl
  | tail _ silent ih => exact .tail ih silent.stepped

theorem silent_lasts (path : ReflTransGen (Silent h) s m) : m.storage = s.storage ∧ m.settings = s.settings := by
  induction path with
  | refl => exact ⟨rfl,rfl⟩
  | tail _ silent ih =>
    have lasts := silent.stepped.lasts
    exact ⟨(lasts.storage silent.unwritten).trans ih.1,lasts.settings.trans ih.2⟩

theorem Plain.run (plain : Plain s) (path : ReflTransGen (Stepped h) s m) : Plain m := by
  have kept := run_keeps_control path
  refine ⟨kept.mmu.1.trans plain.untranslated,?_⟩
  rcases plain.undeliverable with masked | disabled
  · exact .inl (run_keeps_masked masked path)
  · exact .inr ((kept.csr.other csrMie (by decide)).trans disabled)

theorem restored_regs (zero : s.regs.gpr 0 = 0) (halt : m.regs.halt = s.regs.halt) :
    (m.restoreState s.saveState).regs = s.regs := by
  have gpr : Function.update s.regs.gpr 0 0 = s.regs.gpr := by
    rw [← zero]
    exact Function.update_eq_self 0 s.regs.gpr
  simp only [Machine.restoreState,Machine.saveState,gpr,halt]

theorem restored_course (reached : Reached h s) (plain : Plain s) (path : ReflTransGen (Silent h) s m)
    (rewindable : Rewindable s m) : SameCourse false s (m.restoreState s.saveState) := by
  have steps := silent_stepped path
  obtain ⟨storage,settings⟩ := silent_lasts path
  simp only [Machine.storage,Machine.settings,Prod.mk.injEq] at storage settings
  obtain ⟨scratchpad,mainRam,uart,shared⟩ := storage
  obtain ⟨target,debugger,verbose⟩ := settings
  have vector : m.csr.mtvec = s.csr.mtvec := (run_keeps_control steps).csr.other csrMtvec (by decide)
  have regs := restored_regs reached.zero rewindable.halt
  have rest := plain.run steps
  refine ⟨?_,(fun impossible => by cases impossible),plain,⟨rest.1,rest.2⟩,rewindable.flow⟩
  unfold Machine.course
  rw [regs]
  simp only [Machine.restoreState,Machine.saveState,scratchpad,mainRam,uart,shared,target,debugger,verbose,vector,rewindable.timer]

end Runs

-- Calling `restore_state` after the run and then `run` goes through the same states
-- as calling `run` where the state was saved.
def Rewinds (h : Host) (s m : Machine) : Prop := ∀ n, Option.Rel (RunConfig.Alike fun x y => y.course = x.course)
  (after (runNext h) n (.loop s)) (after (runNext h) n (.loop (m.restoreState s.saveState)))

theorem restore_rewinds (h : Host) (s m : Machine) (reached : Reached h s) (plain : Plain s)
    (path : ReflTransGen (Silent h) s m) (rewindable : Rewindable s m) : Rewinds h s m := by
  intro n
  have start := restored_course reached plain path rewindable
  have kit := SameCourse.lockstep false
  exact rel_mono (after_rel (fun _ _ => kit.runNext h) (.loop start) n) fun _ _ alike => alike.mono fun _ _ same => same.same

-- Executable companion of `Silent` for a step that returns.
def silently (h : Host) (m : Machine) : Option Machine :=
  match fetch (saveBefore m.deliverInterrupt) with
  | .ok i _ => if (i.opcode.any fun op => op.stores i) then none else match step h m with
    | .ok _ m' => some m'
    | _ => none
  | _ => none

theorem silent_of_silently {h : Host} {m m' : Machine} (ran : silently h m = some m') : Silent h m m' := by
  unfold silently at ran
  split at ran
  · rename_i i pre fetched
    split at ran
    · cases ran
    · rename_i reads
      split at ran
      · rename_i u _ stepped
        cases ran
        refine ⟨.returned stepped,?_⟩
        intro stores
        obtain ⟨_,i',pre',_,_,fetched',_,op,opcode,stores⟩ := stores
        cases fetched.symm.trans fetched'
        exact reads (by simp [opcode,stores])
      · cases ran
  · cases ran

def Machine.drained (s m : Machine) : Bool :=
  !m.regs.halt && m.timer == s.timer && m.axi.cfg == s.axi.cfg && m.axi.pending.isEmpty

theorem rewindable_of_drained {s m : Machine} (running : s.regs.halt = false) (empty : s.axi.pending = [])
    (drained : s.drained m = true) : Rewindable s m := by
  simp only [Machine.drained,Bool.and_eq_true,Bool.not_eq_true',beq_iff_eq,List.isEmpty_iff] at drained
  obtain ⟨⟨⟨halt,timer⟩,cfg⟩,pending⟩ := drained
  refine ⟨halt.trans running.symm,timer,?_⟩
  exact ⟨by rw [cfg],by rw [cfg],by rw [cfg],by rw [pending,empty],.inl empty⟩

theorem restore_rewinds_movi : ∃ m, ReflTransGen (Silent (.ieee .scalar)) (Emulator.programmed [Enc.movi 1 5,Enc.halt]).core m ∧
    Rewinds (.ieee .scalar) (Emulator.programmed [Enc.movi 1 5,Enc.halt]).core m := by
  have ran : (silently (.ieee .scalar) (Emulator.programmed [Enc.movi 1 5,Enc.halt]).core).any
      (fun m => (Emulator.programmed [Enc.movi 1 5,Enc.halt]).core.drained m) = true := by decide +kernel
  obtain ⟨m,stepped,drained⟩ := (Option.any_eq_true _ _).mp ran
  have path := ReflTransGen.single (silent_of_silently stepped)
  exact ⟨m,path,restore_rewinds _ _ m (.host (.initial 512 256) rfl) ⟨rfl,.inl (by decide)⟩ path
    (rewindable_of_drained rfl rfl drained)⟩

-- The run executes HALT; the restored machine is still halted and does not move.
theorem restore_stays_halted : ¬ ∀ (h : Host) (s m : Machine), Reached h s → s.timer.ctrl = false → Plain s →
    ReflTransGen (Silent h) s m → Rewinds h s m := by
  intro rewinds
  have ran : (silently (.ieee .scalar) (Emulator.programmed [Enc.halt]).core).any (fun m => m.regs.halt) = true := by decide +kernel
  obtain ⟨m,stepped,halted⟩ := (Option.any_eq_true _ _).mp ran
  have silent := silent_of_silently stepped
  have reached : Reached (.ieee .scalar) (Emulator.programmed [Enc.halt]).core := .host (.initial 512 256) rfl
  have alike := rewinds _ _ m reached rfl ⟨rfl,.inl (by decide)⟩ (.single silent) 1
  have idle : (m.restoreState (Emulator.programmed [Enc.halt]).core.saveState).live = false := by
    have stays : (m.restoreState (Emulator.programmed [Enc.halt]).core.saveState).regs.halt = true := halted
    simp [Machine.live,stays]
  cases silent.stepped with
  | returned ran =>
    simp only [after,runNext,idle,ran,Option.bind_some] at alike
    cases alike with
    | some alike => cases alike
  | thrown ran =>
    simp only [after,runNext,idle,ran,Option.bind_some] at alike
    cases alike with
    | some alike => cases alike

end Novium
