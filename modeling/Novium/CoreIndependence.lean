import Novium.Cluster
import Novium.Lockstep
import Novium.RunFast

namespace Novium
open Storage Effects Relation StateTransition

-- The next step neither fetches, loads nor stores through the window.
structure Machine.Private (m : Machine) : Prop where
  reads : ∀ addr, Touches m.deliverInterrupt addr → ¬ SharedWindow addr
  writes : ∀ addr, Stores m.deliverInterrupt addr → ¬ SharedWindow addr

-- The complete state but for the window.
inductive Alone (m : Machine) : Machine → Prop where
  | detached : Alone m m.detach

theorem deviceAt_detach {m : Machine} {addr : Word} (outside : ¬ SharedWindow addr) : m.detach.deviceAt addr = m.deviceAt addr := by
  have missed : (decide ((0x80000000 : Word) ≤ addr) && decide (addr < 0x80000000+0x01000000)) = false := by
    rw [← Bool.not_eq_true,Bool.and_eq_true_iff,decide_eq_true_iff,decide_eq_true_iff]
    exact outside
  unfold Machine.deviceAt Machine.devices
  cases m.shared with
  | none => rfl
  | some ram =>
    simp only [Machine.detach,Option.isSome_none,Option.isSome_some,Bool.false_eq_true,if_false,if_true,List.append_nil,
      List.find?_append,List.find?_singleton,missed,Option.or_none]

theorem routes_detach {m : Machine} {addr : Word} (outside : ¬ SharedWindow addr) : Routes addr m m.detach :=
  ⟨deviceAt_detach outside,fun found => absurd (window_of_deviceAt found) outside⟩

theorem Alone.overlaid : Alone = Overlaid fun _ a b => b = (a.1,none) := by
  funext m n
  refine propext ⟨?_,?_⟩
  · intro alone
    cases alone with
    | detached => exact .overlay m.accel none rfl
  · intro related
    cases related with
    | overlay on ram same =>
      cases same
      exact .detached

theorem Alone.lockstep : Lockstep true (fun addr => ¬ SharedWindow addr) (fun addr => ¬ SharedWindow addr) Alone := by
  have routes : ∀ {on : Bool} {ram : Option ByteStore} {addr : Word} (m : Machine), (on,ram) = (m.accel,none) → ¬ SharedWindow addr →
      Routes addr m (m.overlay on ram) := by
    intro on ram addr m same outside
    cases same
    exact routes_detach outside
  rw [Alone.overlaid]
  exact Overlaid.lockstep ⟨fun same _ => same,fun same _ => same,routes,routes,
    fun _ _ outside found => absurd (window_of_deviceAt found) outside⟩

-- One call of `step` on an emulator that has not halted.
def Advances (h : Host) (m m' : Machine) : Prop := m.regs.halt = false ∧ step h m = .ok () m'

variable {h : Host} {c c' : Cluster} {m m' : Machine} {ram : ByteStore}

theorem Machine.Private.advances (own : (m.attach ram).Private) (running : m.regs.halt = false)
    (ran : step h (m.attach ram) = .ok () m') : Advances h m.detach m'.detach := by
  have agree := Alone.lockstep.step h (.detached (m := m.attach ram)) (fun _ => own.reads) (fun _ => own.writes)
  have detached : (m.attach ram).detach = m.detach := rfl
  rw [ran,detached] at agree
  refine ⟨running,?_⟩
  cases other : step h m.detach with
  | ok u n =>
    rw [other] at agree
    cases agree with
    | ok _ alone =>
      cases alone
      rfl
  | thrown err n =>
    rw [other] at agree
    cases agree
  | undefined why =>
    rw [other] at agree
    cases agree with
    | right excused => cases excused.1

-- A move after which no step has thrown, by a core that keeps off the window.
structure PrivateMove (h : Host) (a b : ClusterActivity) : Prop where
  moves : ClusterMoves h a b
  own : ∀ m, a.stepping = some m → m.Private
  calm : ∀ err c, b ≠ .inside (.thrown err c)

-- What each core would have done by itself.
def Apart (h : Host) (c c' : Cluster) : Prop := c'.cores.length = c.cores.length ∧
  ∀ (i : Nat) (m : Machine), c.cores[i]? = some m → ∃ m', c'.cores[i]? = some m' ∧ ReflTransGen (Advances h) m.detach m'.detach

theorem Apart.refl (h : Host) (c : Cluster) : Apart h c c := ⟨rfl,fun _ m here => ⟨m,here,.refl⟩⟩

theorem Apart.of_cores {d : Cluster} (apart : Apart h c c') (same : d.cores = c'.cores) : Apart h c d := by
  unfold Apart
  rw [same]
  exact apart

theorem Apart.put {n n' : Machine} {i : Nat} (apart : Apart h c c') (here : c'.cores[i]? = some n)
    (step : Advances h n.detach n'.detach) : Apart h c (c'.put i n') := by
  obtain ⟨length,cores⟩ := apart
  refine ⟨(List.length_set ..).trans length,?_⟩
  intro j m first
  obtain ⟨m',found,path⟩ := cores j m first
  by_cases same : i = j
  · subst same
    cases here.symm.trans found
    refine ⟨n'.detach,?_,path.tail step⟩
    exact List.getElem?_set_self (List.getElem?_eq_some_iff.mp here).1
  · refine ⟨m',?_,path⟩
    exact (List.getElem?_set_ne same).trans found

theorem PrivateMove.apart {a b : ClusterActivity} (move : PrivateMove h a b) (before : ∀ d, a.cluster = some d → Apart h c d) :
    ∀ d, b.cluster = some d → Apart h c d := by
  obtain ⟨moves,own,calm⟩ := move
  intro d after
  obtain ⟨e,shown,deed⟩ := moves.cores after
  have apart := before e shown
  cases stepping : a.stepping with
  | none =>
    rw [stepping] at deed
    cases deed with
    | still cores ram => exact apart.of_cores cores
  | some n =>
    rw [stepping] at deed
    cases deed with
    | stepped i here running ran put =>
      rw [put]
      exact apart.put here ((own _ stepping).advances running ran)
    | threw i here running ran put thrown => exact absurd thrown (calm _ _)

theorem private_apart {a b : ClusterActivity} (path : ReflTransGen (PrivateMove h) a b)
    (before : ∀ d, a.cluster = some d → Apart h c d) : ∀ d, b.cluster = some d → Apart h c d := by
  induction path with
  | refl => exact before
  | tail _ move ih => exact move.apart ih

-- A call of `run` returns for one of two reasons.
def OfRun (b : Bounds) : ClusterConfig → Prop
  | .loop b' _ | .turn b' _ _ | .quantum b' _ _ _ _ => b' = b
  | .done c => c.allHalted = true ∨ ¬ c.deterministic.globalClock-b.start < b.maxCycles
  | .sweep _ _ => False
  | .thrown _ _ | .undefined _ => True

theorem OfRun.next {b : Bounds} {k k' : ClusterConfig} (of : OfRun b k) (next : k.next h = some k') : OfRun b k' := by
  cases k with
  | done _ => cases next
  | thrown _ _ => cases next
  | undefined _ => cases next
  | sweep _ _ => cases of
  | loop b' c =>
    cases of
    simp only [ClusterConfig.next,Option.some.injEq] at next
    subst next
    split
    · rfl
    · rename_i ends
      rw [Bool.and_eq_true_iff,not_and_or,Bool.not_eq_true',decide_eq_true_iff,Bool.not_eq_false] at ends
      exact ends
  | turn b' c i =>
    cases of
    simp only [ClusterConfig.next,Option.some.injEq] at next
    subst next
    cases c.cores[i]? with
    | none =>
      dsimp only
      split
      · rename_i halted
        exact .inl halted
      · rfl
    | some m =>
      dsimp only
      split
      · rfl
      · rfl
  | quantum b' c i before q =>
    cases of
    simp only [ClusterConfig.next,Option.some.injEq] at next
    subst next
    cases c.cores[i]? with
    | none => trivial
    | some m =>
      dsimp only
      split
      · cases step h (m.attach c.sharedRam) with
        | ok u m' => rfl
        | thrown err m' => trivial
        | undefined why => trivial
      · split
        · trivial
        · rfl

-- One step of a call, with what `PrivateMove` asks.
def PrivateNext (h : Host) (k k' : ClusterConfig) : Prop := PrivateMove h (.inside k) (.inside k')

theorem PrivateNext.next {k k' : ClusterConfig} (move : PrivateNext h k k') : k.next h = some k' := by
  obtain ⟨moves,_,_⟩ := move
  cases moves with
  | next next => exact next

theorem run_ends {b : Bounds} {k k' : ClusterConfig} (path : ReflTransGen (PrivateNext h) k k') (of : OfRun b k) : OfRun b k' := by
  induction path with
  | refl => exact of
  | tail _ move ih => exact ih.next move.next

-- Every core is where it halts when it is stepped by itself.
def HaltsApart (h : Host) (c c' : Cluster) : Prop := c'.cores.length = c.cores.length ∧
  ∀ (i : Nat) (m : Machine), c.cores[i]? = some m → ∃ m', c'.cores[i]? = some m' ∧
    ReflTransGen (Advances h) m.detach m'.detach ∧ m'.regs.halt = true

theorem Apart.halts (apart : Apart h c c') (halted : c'.allHalted = true) : HaltsApart h c c' := by
  obtain ⟨length,cores⟩ := apart
  refine ⟨length,?_⟩
  intro i m here
  obtain ⟨m',found,path⟩ := cores i m here
  exact ⟨m',found,path,List.all_eq_true.mp halted m' (List.mem_of_getElem? found)⟩

theorem cores_independent (h : Host) (c c' : Cluster) :
    (ReflTransGen (PrivateMove h) (.idle c) (.idle c') → c'.allHalted = true → HaltsApart h c c') ∧
    (ReflTransGen (PrivateNext h) (c.run uint64Max) (.done c') →
      c'.deterministic.globalClock-c.deterministic.globalClock ≠ uint64Max → HaltsApart h c c') := by
  have start : ∀ d, (ClusterActivity.idle c).cluster = some d → Apart h c d := by
    intro d here
    cases here
    exact .refl h c
  refine ⟨?_,?_⟩
  · intro path halted
    exact (private_apart path start c' rfl).halts halted
  · intro path short
    have lifted : ReflTransGen (PrivateMove h) (.inside (c.run uint64Max)) (.inside (.done c')) :=
      ReflTransGen.lift ClusterActivity.inside (fun _ _ move => move) _ _ path
    apply (private_apart lifted start c' rfl).halts
    rcases run_ends path rfl with halted | stops
    · exact halted
    · apply absurd _ short
      have least : uint64Max ≤ c'.deterministic.globalClock-c.deterministic.globalClock := BitVec.not_lt.mp stops
      have most := (c'.deterministic.globalClock-c.deterministic.globalClock).isLt
      have bound : uint64Max.toNat ≤ (c'.deterministic.globalClock-c.deterministic.globalClock).toNat := least
      have value := uint64Max_toNat
      apply BitVec.eq_of_toNat_eq
      omega

theorem PrivateNext.silent {k k' : ClusterConfig} (next : k.next h = some k') (still : k.stepping = none)
    (calm : ∀ err c, k' ≠ .thrown err c) : PrivateNext h k k' := by
  refine ⟨.next next,?_,?_⟩
  · intro m stepping
    cases still.symm.trans stepping
  · intro err c same
    cases same
    exact calm err c rfl

theorem single_round {b : Bounds} {e : DeterministicEngine} (running : m.regs.halt = false)
    (room : e.globalClock-b.start < b.maxCycles) (quantum : e.quantum = 1) (own : (m.attach ram).Private)
    (ran : step h (m.attach ram) = .ok () m') : ∃ e' : DeterministicEngine, e'.quantum = 1 ∧
      e'.globalClock = e.globalClock+(m'.profiler.cycleCount-m.profiler.cycleCount) ∧
      ReflTransGen (PrivateNext h) (.loop b (single m ram e)) (.turn b (single m'.detach (m'.shared.getD ram) e') 1) := by
  have first : PrivateNext h (.loop b (single m ram e)) (.turn b (single m ram e) 0) := by
    apply PrivateNext.silent _ rfl fun _ _ impossible => (by cases impossible)
    simp [ClusterConfig.next,single,Cluster.allHalted,running,room]
  have second : PrivateNext h (.turn b (single m ram e) 0) (.quantum b (single m ram e) 0 m.profiler.cycleCount 0) := by
    apply PrivateNext.silent _ rfl fun _ _ impossible => (by cases impossible)
    simp [ClusterConfig.next,single,running]
  have third : PrivateNext h (.quantum b (single m ram e) 0 m.profiler.cycleCount 0)
      (.quantum b (single m'.detach (m'.shared.getD ram) e) 0 m.profiler.cycleCount 1) := by
    refine ⟨.next ?_,?_,fun _ _ impossible => (by cases impossible)⟩
    · simp [ClusterConfig.next,single,running,ran,ClusterConfig.ofStep,Cluster.put]
    · intro n stepping
      simp [ClusterActivity.stepping,ClusterConfig.stepping,single,running] at stepping
      rw [← stepping]
      exact own
  obtain ⟨due,e',ticked,same,clock⟩ := e.tick_some (by rw [quantum]; decide) (BitVec.ofNat 32 0)
    (m'.profiler.cycleCount-m.profiler.cycleCount)
  have fourth : PrivateNext h (.quantum b (single m'.detach (m'.shared.getD ram) e) 0 m.profiler.cycleCount 1)
      (.turn b (single m'.detach (m'.shared.getD ram) e') 1) := by
    have cycles : m'.detach.profiler = m'.profiler := rfl
    apply PrivateNext.silent
    · simp [ClusterConfig.next,single,cycles,ticked]
    · simp [ClusterConfig.stepping,single]
    · exact fun _ _ impossible => (by cases impossible)
  exact ⟨e',same.trans quantum,clock,((ReflTransGen.single first).tail second).tail third |>.tail fourth⟩

theorem private_of_quiet (quiet : Quiet m) (below : m.regs.pc < mmioBase) (inside : m.regs.pc.toNat+4 ≤ m.scratchpad.size)
    (load : (⟨m.scratchpad.word m.regs.pc.toNat⟩ : Instruction).opcode ≠ some .load)
    (store : (⟨m.scratchpad.word m.regs.pc.toNat⟩ : Instruction).opcode ≠ some .store) : m.Private := by
  have saved := saveBefore_silent quiet.verbose
  have fetched := fetch_plain quiet.mmu below inside
  refine ⟨?_,?_⟩
  · intro addr touches window
    rw [quiet.deliver] at touches
    cases touches with
    | fetch from_pc =>
      simp only [Machine.fetchAddress,quiet.mmu,Bool.false_eq_true,if_false,Option.some.injEq] at from_pc
      have low : addr.toNat < mmioBase.toNat := by rw [← from_pc]; exact below
      have high : (0x80000000 : Word).toNat ≤ addr.toNat := window.1
      have base : mmioBase.toNat = 0x03F00000 := rfl
      have start : (0x80000000 : Word).toNat = 0x80000000 := rfl
      omega
    | load got loads =>
      rw [saved,fetched] at got
      cases got
      simp [Machine.loads,load] at loads
  · intro addr stores window
    rw [quiet.deliver] at stores
    cases stores with
    | store got storesTo =>
      rw [saved,fetched] at got
      cases got
      simp [Machine.storesTo,store] at storesTo

-- Executable companion of a path of `PrivateNext` whose cores neither load nor store.
def Machine.tame (m : Machine) : Bool :=
  decide (m.verbose = false ∧ m.mmu.enabled = false ∧ m.csr.mstatusMie = false ∧ m.csr.mtvec = 0 ∧ m.regs.pc < mmioBase ∧
    m.regs.pc.toNat+4 ≤ m.scratchpad.size ∧ (⟨m.scratchpad.word m.regs.pc.toNat⟩ : Instruction).opcode ≠ some .load ∧
    (⟨m.scratchpad.word m.regs.pc.toNat⟩ : Instruction).opcode ≠ some .store)

def tamely (h : Host) : Nat → ClusterConfig → Option ClusterConfig
  | 0,k => some k
  | n+1,k => if k.stepping.all Machine.tame then (k.next h).bind (tamely h n) else none

theorem Machine.tame_iff : m.tame = true ↔ Quiet m ∧ m.regs.pc < mmioBase ∧ m.regs.pc.toNat+4 ≤ m.scratchpad.size ∧
    (⟨m.scratchpad.word m.regs.pc.toNat⟩ : Instruction).opcode ≠ some .load ∧
    (⟨m.scratchpad.word m.regs.pc.toNat⟩ : Instruction).opcode ≠ some .store := by
  rw [tame,decide_eq_true_eq]
  constructor
  · rintro ⟨verbose,mmu,masked,unvectored,rest⟩
    exact ⟨⟨verbose,mmu,masked,unvectored⟩,rest⟩
  · rintro ⟨⟨verbose,mmu,masked,unvectored⟩,rest⟩
    exact ⟨verbose,mmu,masked,unvectored,rest⟩

theorem path_of_tamely {n : Nat} {k k' : ClusterConfig} (ran : tamely h n k = some k') (calm : ∀ err c, k' ≠ .thrown err c) :
    ReflTransGen (PrivateNext h) k k' := by
  induction n generalizing k with
  | zero =>
    cases ran
    exact .refl
  | succ n ih =>
    simp only [tamely,Option.ite_none_right_eq_some,Option.bind_eq_some_iff] at ran
    obtain ⟨tame,next,step,rest⟩ := ran
    refine .head ⟨.next step,?_,?_⟩ (ih rest)
    · intro m due
      change k.stepping = some m at due
      rw [due,Option.all_some,Machine.tame_iff] at tame
      obtain ⟨quiet,below,inside,load,store⟩ := tame
      exact private_of_quiet quiet below inside load store
    · intro err c same
      cases same
      cases n with
      | zero =>
        cases rest
        exact calm err c rfl
      | succ n =>
        simp only [tamely,ClusterConfig.next,Option.bind_none] at rest
        split at rest
        · cases rest
        · cases rest

-- Two cores under a quantum of two; after a step of each the first halts in the second round, the second in the third.
def staggered : Cluster := ⟨2,[(Emulator.programmed [Enc.movi 1 1,Enc.movi 2 2,Enc.add 3 1 2,Enc.halt]).core,
  (Emulator.programmed [Enc.movi 1 7,Enc.mul 2 1 1,Enc.movi 3 3,Enc.sub 4 2 3,Enc.mul 5 4 4,Enc.halt]).core],zeroStore 16,.initial 2⟩

theorem PrivateMove.stepAll (h : Host) (c : Cluster) : PrivateMove h (.idle c) (.inside (.sweep c 0)) :=
  ⟨.stepAll,fun _ due => (by cases due),fun _ _ same => (by cases same)⟩

theorem PrivateMove.run (h : Host) (c : Cluster) : PrivateMove h (.idle c) (.inside (c.run uint64Max)) :=
  ⟨.run uint64Max,fun _ due => (by cases due),fun _ _ same => (by cases same)⟩

theorem PrivateMove.returned (h : Host) (c : Cluster) : PrivateMove h (.inside (.done c)) (.idle c) :=
  ⟨.returned,fun _ due => (by cases due),fun _ _ same => (by cases same)⟩

-- One call of step_all and then one of run; the calls together, and the run by itself.
theorem cores_independent_staggered : ∃ c₁ c',
    ReflTransGen (PrivateNext (.ieee .scalar)) (.sweep staggered 0) (.done c₁) ∧
    ReflTransGen (PrivateNext (.ieee .scalar)) (c₁.run uint64Max) (.done c') ∧
    HaltsApart (.ieee .scalar) staggered c' ∧ HaltsApart (.ieee .scalar) c₁ c' := by
  have ends : (tamely (.ieee .scalar) 3 (.sweep staggered 0)).any
      (fun | .done c₁ => (tamely (.ieee .scalar) 25 (c₁.run uint64Max)).any
              (fun | .done c' => c'.allHalted && c'.deterministic.globalClock-c₁.deterministic.globalClock != uint64Max | _ => false)
           | _ => false) = true := by decide +kernel
  obtain ⟨k₁,swept,later⟩ := (Option.any_eq_true _ _).mp ends
  cases k₁ with
  | done c₁ =>
    obtain ⟨k,ran,holds⟩ := (Option.any_eq_true _ _).mp later
    cases k with
    | done c' =>
      obtain ⟨halted,short⟩ := Bool.and_eq_true_iff.mp holds
      have sweep := path_of_tamely swept fun _ _ impossible => (by cases impossible)
      have run := path_of_tamely ran fun _ _ impossible => (by cases impossible)
      have first : ReflTransGen (PrivateMove (.ieee .scalar)) (.idle staggered) (.idle c₁) :=
        .tail (.head (.stepAll _ _) (ReflTransGen.lift ClusterActivity.inside (fun _ _ move => move) _ _ sweep)) (.returned _ _)
      have second : ReflTransGen (PrivateMove (.ieee .scalar)) (.idle c₁) (.idle c') :=
        .tail (.head (.run _ _) (ReflTransGen.lift ClusterActivity.inside (fun _ _ move => move) _ _ run)) (.returned _ _)
      exact ⟨c₁,c',sweep,run,(cores_independent _ _ _).1 (first.trans second) halted,
        (cores_independent _ _ _).2 run (by simpa using short)⟩
    | _ => cases holds
  | _ => cases later

theorem execute_taken (h : Host) {i : Instruction} (opcode : i.opcode = some .beq) (rd : i.rd = 0) (ra : i.ra = 0) (m : Machine) :
    execute h i m = .ok 3 (account .beq i 3 (m.setPc (m.regs.pc+i.offset))) := by
  simp [execute,opcode,handler,onRegs,Exec.within,Handlers.opBeq,Handlers.branch,Handlers.readGpr,rd,ra,RegisterFile.readGpr,
    Exec.bind_apply,cycleWeight,Machine.setPc]

-- A core that branches to itself: three cycles a step, and three divides 2^64-1.
structure Spins (i : Instruction) (m : Machine) : Prop where
  running : m.regs.halt = false
  pc : m.regs.pc = 0
  quiet : Quiet m
  inside : 4 ≤ m.scratchpad.size
  word : m.scratchpad.word 0 = i.raw

structure SpinWord (i : Instruction) : Prop where
  opcode : i.opcode = some .beq
  rd : i.rd = 0
  ra : i.ra = 0
  offset : i.offset = -4

namespace Spins
variable {i : Instruction}

theorem attach (spins : Spins i m) (ram : ByteStore) : Spins i (m.attach ram) := by
  obtain ⟨running,pc,⟨verbose,mmu,masked,unvectored⟩,inside,word⟩ := spins
  exact ⟨running,pc,⟨verbose,mmu,masked,unvectored⟩,inside,word⟩

theorem detach (spins : Spins i m) : Spins i m.detach := by
  obtain ⟨running,pc,⟨verbose,mmu,masked,unvectored⟩,inside,word⟩ := spins
  exact ⟨running,pc,⟨verbose,mmu,masked,unvectored⟩,inside,word⟩

theorem tick (spins : Spins i m) : Spins i m.tickPeripherals := by
  have regs : m.tickPeripherals.regs = m.regs := congrArg Visible.regs (visible_tick m)
  have scratchpad : m.tickPeripherals.scratchpad = m.scratchpad := congrArg Visible.scratchpad (visible_tick m)
  refine ⟨?_,?_,spins.quiet.tick,?_,?_⟩
  · rw [regs]
    exact spins.running
  · rw [regs]
    exact spins.pc
  · rw [scratchpad]
    exact spins.inside
  · rw [scratchpad]
    exact spins.word

theorem taken (spins : Spins i m) : Spins i (account .beq i 3 (m.advancePc.setPc 0)) := by
  obtain ⟨running,_,⟨verbose,mmu,masked,unvectored⟩,inside,word⟩ := spins
  exact ⟨running,rfl,⟨verbose,mmu,masked,unvectored⟩,inside,word⟩

theorem branches (h : Host) (shape : SpinWord i) (spins : Spins i m) :
    m.Private ∧ Novium.step h m = .ok () (account .beq i 3 (m.advancePc.setPc 0)).tickPeripherals := by
  obtain ⟨running,pc,quiet,inside,word⟩ := spins
  have below : m.regs.pc < mmioBase := by
    rw [pc]
    decide
  have within : m.regs.pc.toNat+4 ≤ m.scratchpad.size := by
    rw [pc]
    exact inside
  have code : (⟨m.scratchpad.word m.regs.pc.toNat⟩ : Instruction) = i := by
    rw [pc]
    exact congrArg Instruction.mk word
  have replayed := step_eq_replay (h := h) quiet.verbose quiet.mmu quiet.masked running below within
  have own : m.Private := by
    apply private_of_quiet quiet below within
    · rw [code,shape.opcode]
      decide
    · rw [code,shape.opcode]
      decide
  have back : m.advancePc.regs.pc+i.offset = 0 := by
    change m.regs.pc+4+i.offset = 0
    rw [pc,shape.offset]
    decide
  have taken := execute_taken h shape.opcode shape.rd shape.ra m.advancePc
  rw [back] at taken
  rw [code] at replayed
  unfold replay at replayed
  rw [Exec.bind_ok (Exec.modify_apply _ _),Exec.bind_ok taken,Exec.modify_apply] at replayed
  exact ⟨own,replayed⟩

theorem step (h : Host) (ram : ByteStore) (shape : SpinWord i) (spins : Spins i m) :
    ∃ m', Novium.step h (m.attach ram) = .ok () m' ∧ (m.attach ram).Private ∧ Spins i m'.detach ∧ m'.shared = some ram ∧
      m'.profiler.cycleCount = m.profiler.cycleCount+3 := by
  obtain ⟨own,ran⟩ := (spins.attach ram).branches h shape
  refine ⟨_,ran,own,(spins.attach ram).taken.tick.detach,?_,?_⟩
  · exact Machine.tickPeripherals_keeps Machine.shared (fun _ => rfl) _
  · exact congrArg Profiler.cycleCount (Machine.tickPeripherals_keeps Machine.profiler (fun _ => rfl) _)

end Spins

theorem spin_rounds (h : Host) {i : Instruction} (shape : SpinWord i) (spins : Spins i m) (ram : ByteStore) {e : DeterministicEngine}
    (quantum : e.quantum = 1) (start : e.globalClock = 0) (n : Nat) (room : 3*n ≤ 2^64-1) :
    ∃ m' e', Spins i m' ∧ e'.quantum = 1 ∧ e'.globalClock.toNat = 3*n ∧
      ReflTransGen (PrivateNext h) (.loop ⟨0,uint64Max⟩ (single m ram e)) (.loop ⟨0,uint64Max⟩ (single m' ram e')) := by
  induction n with
  | zero => exact ⟨m,e,spins,quantum,by rw [start]; rfl,.refl⟩
  | succ n ih =>
    obtain ⟨mid,f,going,one,clock,path⟩ := ih (by omega)
    obtain ⟨m',ran,own,spins',shared,cycles⟩ := going.step h ram shape
    have before : f.globalClock-(0 : DWord) < uint64Max := by
      have bound := uint64Max_toNat
      have whole : f.globalClock-(0 : DWord) = f.globalClock := BitVec.sub_zero _
      rw [whole]
      change f.globalClock.toNat < uint64Max.toNat
      omega
    obtain ⟨e',one',clock',round⟩ := single_round (b := ⟨0,uint64Max⟩) going.running before one own ran
    rw [shared,Option.getD_some] at round
    have spent : m'.profiler.cycleCount-mid.profiler.cycleCount = 3 := by
      rw [cycles,BitVec.add_comm,BitVec.add_sub_cancel]
    rw [spent] at clock'
    have again : PrivateNext h (.turn ⟨0,uint64Max⟩ (single m'.detach ram e') 1) (.loop ⟨0,uint64Max⟩ (single m'.detach ram e')) := by
      apply PrivateNext.silent _ rfl fun _ _ impossible => (by cases impossible)
      simp [ClusterConfig.next,single,Cluster.allHalted,spins'.running]
    refine ⟨m'.detach,e',spins',one',?_,(path.trans round).tail again⟩
    have three : (3 : DWord).toNat = 3 := rfl
    rw [clock',BitVec.toNat_add,clock,three]
    omega

-- The bound that stands for no bound is reached after 2^64-1 cycles.
def spinner : Machine := (Emulator.programmed [Enc.beq 0 0 (-4)]).core

theorem unbounded_run_stops_short : ¬ ∀ (h : Host) (c c' : Cluster), c.quantum ≠ 0 →
    ReflTransGen (PrivateNext h) (c.run uint64Max) (.done c') → HaltsApart h c c' := by
  intro independent
  have shape : SpinWord ⟨Enc.beq 0 0 (-4)⟩ := ⟨by decide,by decide,by decide,by decide⟩
  have spins : Spins ⟨Enc.beq 0 0 (-4)⟩ spinner := ⟨rfl,rfl,⟨rfl,rfl,rfl,rfl⟩,by decide,by decide⟩
  obtain ⟨m',e',spins',_,clock,path⟩ := spin_rounds (.ieee .scalar) shape spins (zeroStore 16) (e := .initial 1) rfl rfl
    6148914691236517205 (by decide)
  have stops : PrivateNext (.ieee .scalar) (.loop ⟨0,uint64Max⟩ (single m' (zeroStore 16) e')) (.done (single m' (zeroStore 16) e')) := by
    apply PrivateNext.silent _ rfl fun _ _ impossible => (by cases impossible)
    have reached : uint64Max ≤ e'.globalClock := by
      have bound := uint64Max_toNat
      change uint64Max.toNat ≤ e'.globalClock.toNat
      omega
    simp [ClusterConfig.next,single,reached]
  obtain ⟨_,cores⟩ := independent _ (single spinner (zeroStore 16) (.initial 1)) _ (by decide) (path.tail stops)
  obtain ⟨n,found,_,halted⟩ := cores 0 spinner rfl
  cases found
  rw [spins'.running] at halted
  cases halted

end Novium
