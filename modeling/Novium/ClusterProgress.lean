import Novium.Charges
import Novium.CoreIndependence

namespace Novium
open Storage Effects Relation SmallStep StateTransition
variable {h : Host} {b : Bounds} {c c' : Cluster} {m m' : Machine} {i : Nat} {before q : DWord} {k k' : ClusterConfig}

def Cluster.live (c : Cluster) : Nat := c.cores.countP fun m => !m.regs.halt

def Bounds.passed (b : Bounds) (c : Cluster) : Nat := (c.deterministic.globalClock-b.start).toNat

-- The steps that bring a bounded run to its end: not into the trap of an unknown
-- opcode, with defined behaviour, and without the clock going round.
def ClusterConfig.Metered (h : Host) (k : ClusterConfig) : Prop :=
  ∀ b c i before q m, k = .quantum b c i before q → k.stepping = some m →
    m.Legal ∧ (∀ why, step h m ≠ .undefined why) ∧
      b.passed c+(m.profiler.cycleCount-before).toNat+m.stepCharge < 2^64

def Fair (h : Host) (k : ClusterConfig) : Prop := ∀ k', Reaches (ClusterConfig.next h) k k' → k'.Metered h

theorem Fair.next (fair : Fair h k) (next : k.next h = some k') : Fair h k' := fun k'' path => fair k'' (path.head next)

theorem Fair.reaches (fair : Fair h k) (path : Reaches (ClusterConfig.next h) k k') : Fair h k' :=
  fun k'' rest => fair k'' (path.trans rest)

def Finished (b : Bounds) : ClusterConfig → Prop
  | .done c => c.allHalted = true ∨ b.maxCycles ≤ c.deterministic.globalClock-b.start
  | .thrown _ _ => True
  | _ => False

def Ends (h : Host) (b : Bounds) (k : ClusterConfig) : Prop := ∃ k', Reaches (ClusterConfig.next h) k k' ∧ Finished b k'

theorem Ends.head (next : k.next h = some k') (ends : Ends h b k') : Ends h b k := by
  obtain ⟨last,path,finished⟩ := ends
  exact ⟨last,path.head next,finished⟩

theorem Ends.after (path : Reaches (ClusterConfig.next h) k k') (ends : Ends h b k') : Ends h b k := by
  obtain ⟨last,rest,finished⟩ := ends
  exact ⟨last,path.trans rest,finished⟩

-- What goes down with every step: cores still running first, then the cycles left
-- before the clock would go round, those of the current turn included.
def rank (b : Bounds) (c : Cluster) (pending : Nat) : Nat := c.live*2^64+(2^64-1-(b.passed c+pending))

theorem live_put (m' : Machine) (here : c.cores[i]? = some m) (running : m.regs.halt = false) :
    (c.put i m').live+1 = c.live+(if m'.regs.halt then 0 else 1) := by
  obtain ⟨inside,same⟩ := List.getElem?_eq_some_iff.mp here
  have counted : 0 < c.cores.countP fun m => !m.regs.halt := by
    rw [List.countP_pos_iff]
    exact ⟨m,List.mem_of_getElem? here,by rw [running]; rfl⟩
  have replaced := List.countP_set (p := fun m => !m.regs.halt) (a := m'.detach) inside
  have halt : m'.detach.regs.halt = m'.regs.halt := rfl
  rw [same,running,halt] at replaced
  unfold Cluster.live Cluster.put
  dsimp only
  rw [replaced]
  cases m'.regs.halt with
  | true =>
    simp only [Bool.not_false,Bool.not_true,if_true,Bool.false_eq_true,if_false]
    omega
  | false =>
    simp only [Bool.not_false,if_true,Bool.false_eq_true,if_false]
    omega

-- One step of a metered core.
theorem rank_step (before : DWord) (here : c.cores[i]? = some m) (running : m.regs.halt = false) (legal : (m.attach c.sharedRam).Legal)
    (room : b.passed c+(m.profiler.cycleCount-before).toNat+(m.attach c.sharedRam).stepCharge < 2^64)
    (ran : step h (m.attach c.sharedRam) = .ok () m') :
    (m'.profiler.cycleCount-before).toNat = (m.profiler.cycleCount-before).toNat+(m.attach c.sharedRam).stepCharge ∧
      rank b (c.put i m') (m'.profiler.cycleCount-before).toNat < rank b c (m.profiler.cycleCount-before).toNat := by
  have attached : (m.attach c.sharedRam).profiler = m.profiler := rfl
  obtain ⟨cycles,works⟩ := step_charged legal running ran
  rw [attached] at cycles
  have pending : (m'.profiler.cycleCount-before).toNat =
      (m.profiler.cycleCount-before).toNat+(m.attach c.sharedRam).stepCharge := by
    have moved : m'.profiler.cycleCount-before = (m.profiler.cycleCount-before)+BitVec.ofNat 64 (m.attach c.sharedRam).stepCharge := by
      rw [cycles,BitVec.sub_eq_add_neg,BitVec.sub_eq_add_neg,BitVec.add_assoc,BitVec.add_assoc,BitVec.add_comm (BitVec.ofNat 64 _)]
    rw [moved,BitVec.toNat_add,BitVec.toNat_ofNat,Nat.add_mod_mod]
    exact Nat.mod_eq_of_lt (by omega)
  refine ⟨pending,?_⟩
  have live := live_put m' here running
  have passed : b.passed (c.put i m') = b.passed c := rfl
  unfold rank
  rw [passed,pending]
  rcases works with busy | halted
  · cases stopped : m'.regs.halt with
    | true =>
      rw [stopped,if_pos rfl] at live
      omega
    | false =>
      rw [stopped,if_neg Bool.false_ne_true] at live
      omega
  · rw [halted,if_pos rfl] at live
    omega

-- What the rest of a turn leaves.
structure Turned (b : Bounds) (i : Nat) (c c' : Cluster) (budget : Nat) : Prop where
  quantum : c'.quantum = c.quantum
  engine : c'.deterministic.quantum = c.deterministic.quantum
  length : c'.cores.length = c.cores.length
  later : ∀ j, i < j → c'.cores[j]? = c.cores[j]?
  rank : rank b c' 0 ≤ budget

theorem rank_tick {e : DeterministicEngine} {cycles : DWord} (room : b.passed c+cycles.toNat < 2^64)
    (clock : e.globalClock = c.deterministic.globalClock+cycles) :
    rank b {c with deterministic := e} 0 = rank b c cycles.toNat := by
  have passed : b.passed {c with deterministic := e} = b.passed c+cycles.toNat := by
    unfold Bounds.passed at room ⊢
    dsimp only
    have moved : e.globalClock-b.start = (c.deterministic.globalClock-b.start)+cycles := by
      rw [clock,BitVec.sub_eq_add_neg,BitVec.sub_eq_add_neg,BitVec.add_assoc,BitVec.add_assoc,BitVec.add_comm cycles]
    rw [moved]
    exact BitVec.toNat_add_of_lt room
  unfold rank
  rw [passed]
  rfl

-- The count of a turn's steps does not come round.
theorem toNat_counted (below : q < c.quantum) : (q+1).toNat = q.toNat+1 := by
  have less : q.toNat < c.quantum.toNat := below
  have top := c.quantum.isLt
  apply BitVec.toNat_add_of_lt
  change q.toNat+1 < 2^64
  omega

theorem next_due (before : DWord) (here : c.cores[i]? = some m) (due : (decide (q < c.quantum) && !m.regs.halt) = true) :
    (ClusterConfig.quantum b c i before q).next h =
        some (.ofStep c i (.quantum b · i before (q+1)) (step h (m.attach c.sharedRam))) ∧
      (ClusterConfig.quantum b c i before q).stepping = some (m.attach c.sharedRam) := by
  refine ⟨?_,?_⟩
  · unfold ClusterConfig.next
    simp only [here,due,if_true]
  · unfold ClusterConfig.stepping
    simp only [here,Option.filter_some,due,if_true,Option.map_some]

-- The turn is over: its cycles go to the clock.
theorem next_over {e : DeterministicEngine} {barrier : Bool} (here : c.cores[i]? = some m)
    (stops : (decide (q < c.quantum) && !m.regs.halt) = false)
    (ticked : c.deterministic.tick (BitVec.ofNat 32 i) (m.profiler.cycleCount-before) = some (barrier,e)) :
    (ClusterConfig.quantum b c i before q).next h = some (.turn b {c with deterministic := e} (i+1)) := by
  unfold ClusterConfig.next
  simp only [here,stops,Bool.false_eq_true,if_false,ticked]

theorem turn_over (positive : c.deterministic.quantum ≠ 0) (here : c.cores[i]? = some m)
    (room : b.passed c+(m.profiler.cycleCount-before).toNat < 2^64) (stops : (decide (q < c.quantum) && !m.regs.halt) = false) :
    ∃ c', Reaches (ClusterConfig.next h) (.quantum b c i before q) (.turn b c' (i+1)) ∧
      Turned b i c c' (rank b c (m.profiler.cycleCount-before).toNat) := by
  obtain ⟨barrier,e,ticked,same,clock⟩ :=
    c.deterministic.tick_some positive (BitVec.ofNat 32 i) (m.profiler.cycleCount-before)
  exact ⟨{c with deterministic := e},.single (next_over here stops ticked),rfl,same,rfl,fun _ _ => rfl,
    Nat.le_of_eq (rank_tick room clock)⟩

theorem Turned.of_put {budget budget' : Nat} (turned : Turned b i (c.put i m') c' budget)
    (less : budget < budget') : Turned b i c c' budget' ∧ Novium.rank b c' 0 < budget' := by
  obtain ⟨quantum,engine,length,later,rank⟩ := turned
  refine ⟨⟨quantum,engine,length.trans (List.length_set ..),?_,by omega⟩,by omega⟩
  intro j after
  rw [later j after]
  exact List.getElem?_set_ne (by omega)

theorem quantum_turn (positive : c.deterministic.quantum ≠ 0) (here : c.cores[i]? = some m)
    (room : b.passed c+(m.profiler.cycleCount-before).toNat < 2^64) (fair : Fair h (.quantum b c i before q)) :
    Ends h b (.quantum b c i before q) ∨ ∃ c', Reaches (ClusterConfig.next h) (.quantum b c i before q) (.turn b c' (i+1)) ∧
      Turned b i c c' (rank b c (m.profiler.cycleCount-before).toNat) ∧
      (q < c.quantum → m.regs.halt = false → rank b c' 0 < rank b c (m.profiler.cycleCount-before).toNat) := by
  induction remaining : c.quantum.toNat-q.toNat using Nat.strong_induction_on generalizing c m q with
  | _ left ih =>
    cases due : decide (q < c.quantum) && !m.regs.halt with
    | false =>
      obtain ⟨c',path,turned⟩ := turn_over (h := h) positive here room due
      refine .inr ⟨c',path,turned,?_⟩
      intro goes running
      rw [decide_eq_true goes,running] at due
      cases due
    | true =>
      obtain ⟨next,stepping⟩ := next_due (h := h) (b := b) before here due
      obtain ⟨goes,running⟩ := Bool.and_eq_true_iff.mp due
      have running : m.regs.halt = false := by simpa using running
      obtain ⟨legal,defined,limit⟩ := fair _ .refl b c i before q _ rfl stepping
      cases ran : step h (m.attach c.sharedRam) with
      | undefined why => exact absurd ran (defined why)
      | thrown err m' =>
        rw [ran] at next
        exact .inl ⟨_,.single next,trivial⟩
      | ok u m' =>
        rw [ran] at next
        obtain ⟨pending,less⟩ := rank_step (b := b) before here running legal limit ran
        have within : i < c.cores.length := (List.getElem?_eq_some_iff.mp here).1
        have found : (c.put i m').cores[i]? = some m'.detach := List.getElem?_set_self within
        have more := toNat_counted (of_decide_eq_true goes)
        have closer : (c.put i m').quantum.toNat-(q+1).toNat < left := by
          have below : q.toNat < c.quantum.toNat := of_decide_eq_true goes
          change c.quantum.toNat-(q+1).toNat < left
          omega
        have fits : b.passed (c.put i m')+(m'.detach.profiler.cycleCount-before).toNat < 2^64 := by
          change b.passed c+(m'.profiler.cycleCount-before).toNat < 2^64
          rw [pending]
          exact Nat.lt_of_le_of_lt (Nat.le_of_eq (Nat.add_assoc _ _ _).symm) limit
        have steady : (c.put i m').deterministic.quantum ≠ 0 := positive
        rcases ih _ closer steady found fits (fair.next next) rfl with ends | ⟨c',path,turned,_⟩
        · exact .inl (ends.head next)
        · obtain ⟨turned,drop⟩ := turned.of_put less
          exact .inr ⟨c',path.head next,turned,fun _ _ => drop⟩

-- What the rest of a round leaves.
structure Rounded (b : Bounds) (i : Nat) (c c' : Cluster) : Prop where
  quantum : c'.quantum = c.quantum
  engine : c'.deterministic.quantum = c.deterministic.quantum
  length : c'.cores.length = c.cores.length
  rank : rank b c' 0 ≤ rank b c 0
  drops : ∀ (j : Nat) (m : Machine), i ≤ j → c.cores[j]? = some m → m.regs.halt = false → Novium.rank b c' 0 < Novium.rank b c 0

theorem Rounded.of_turn {d : Cluster} (turned : Turned b i c d (Novium.rank b c 0)) (drop : Novium.rank b d 0 < Novium.rank b c 0)
    (rest : Rounded b (i+1) d c') : Rounded b i c c' := by
  obtain ⟨quantum,engine,length,rank,_⟩ := rest
  exact ⟨quantum.trans turned.quantum,engine.trans turned.engine,length.trans turned.length,by omega,fun _ _ _ _ _ => by omega⟩

theorem Rounded.of_halted (here : c.cores[i]? = some m) (halted : m.regs.halt = true) (rest : Rounded b (i+1) c c') :
    Rounded b i c c' := by
  refine ⟨rest.quantum,rest.engine,rest.length,rest.rank,?_⟩
  intro j n after found running
  apply rest.drops j n ?_ found running
  apply Nat.lt_of_le_of_ne after
  intro same
  rw [← same,here] at found
  cases found
  rw [halted] at running
  cases running

theorem round_rest (positive : c.deterministic.quantum ≠ 0) (works : c.quantum ≠ 0) (inside : i ≤ c.cores.length)
    (fair : Fair h (.turn b c i)) : Ends h b (.turn b c i) ∨
      ∃ c', Reaches (ClusterConfig.next h) (.turn b c i) (.turn b c' c.cores.length) ∧ Rounded b i c c' := by
  induction remaining : c.cores.length-i generalizing c i with
  | zero =>
    have last : i = c.cores.length := by omega
    subst last
    refine .inr ⟨c,.refl,rfl,rfl,rfl,Nat.le_refl _,?_⟩
    intro j m after found
    have within := (List.getElem?_eq_some_iff.mp found).1
    omega
  | succ left ih =>
    have within : i < c.cores.length := by omega
    have here : c.cores[i]? = some c.cores[i] := List.getElem?_eq_getElem within
    generalize c.cores[i] = m at here
    cases halted : m.regs.halt with
    | true =>
      have next : (ClusterConfig.turn b c i).next h = some (.turn b c (i+1)) := by
        unfold ClusterConfig.next
        simp only [here,halted,if_true]
      rcases ih positive works (by omega) (fair.next next) (by omega) with ends | ⟨c',path,rounded⟩
      · exact .inl (ends.head next)
      · exact .inr ⟨c',path.head next,rounded.of_halted here halted⟩
    | false =>
      have next : (ClusterConfig.turn b c i).next h = some (.quantum b c i m.profiler.cycleCount 0) := by
        unfold ClusterConfig.next
        simp only [here,halted,Bool.false_eq_true,if_false]
      have fresh : (m.profiler.cycleCount-m.profiler.cycleCount).toNat = 0 := by
        rw [BitVec.sub_self]
        rfl
      have room : b.passed c+(m.profiler.cycleCount-m.profiler.cycleCount).toNat < 2^64 := by
        rw [fresh]
        exact (c.deterministic.globalClock-b.start).isLt
      have first : (0 : DWord) < c.quantum := by
        change 0 < c.quantum.toNat
        apply Nat.pos_of_ne_zero
        intro zero
        exact works (BitVec.eq_of_toNat_eq zero)
      rcases quantum_turn positive here room (fair.next next) with ends | ⟨d,path,turned,drop⟩
      · exact .inl (ends.head next)
      · rw [fresh] at turned drop
        have onward : Reaches (ClusterConfig.next h) (.turn b c i) (.turn b d (i+1)) := path.head next
        have steady : d.deterministic.quantum ≠ 0 := by
          rw [turned.engine]
          exact positive
        have going : d.quantum ≠ 0 := by
          rw [turned.quantum]
          exact works
        have size := turned.length
        rcases ih steady going (by omega) (fair.reaches onward) (by omega) with ends | ⟨c',rest,rounded⟩
        · exact .inl (ends.after onward)
        · rw [size] at rest
          exact .inr ⟨c',onward.trans rest,rounded.of_turn turned (drop first halted)⟩

theorem loop_ends (positive : c.deterministic.quantum ≠ 0) (works : c.quantum ≠ 0) (fair : Fair h (.loop b c)) :
    Ends h b (.loop b c) := by
  induction left : rank b c 0 using Nat.strong_induction_on generalizing c with
  | _ left ih =>
    cases goes : !c.allHalted && decide (c.deterministic.globalClock-b.start < b.maxCycles) with
    | false =>
      have next : (ClusterConfig.loop b c).next h = some (.done c) := by
        unfold ClusterConfig.next
        simp only [goes,Bool.false_eq_true,if_false]
      refine ⟨_,.single next,?_⟩
      rcases Bool.and_eq_false_iff.mp goes with halted | stops
      · exact .inl (by simpa using halted)
      · exact .inr (BitVec.not_lt.mp (of_decide_eq_false stops))
    | true =>
      have next : (ClusterConfig.loop b c).next h = some (.turn b c 0) := by
        unfold ClusterConfig.next
        simp only [goes,if_true]
      rcases round_rest positive works (Nat.zero_le _) (fair.next next) with ends | ⟨c',path,rounded⟩
      · exact ends.head next
      · have onward : Reaches (ClusterConfig.next h) (.loop b c) (.turn b c' c.cores.length) := path.head next
        have ended : c'.cores[c.cores.length]? = none := List.getElem?_eq_none (Nat.le_of_eq rounded.length)
        cases halted : c'.allHalted with
        | true =>
          have last : (ClusterConfig.turn b c' c.cores.length).next h = some (.done c') := by
            unfold ClusterConfig.next
            simp only [ended,halted,if_true]
          exact ⟨_,onward.tail last,.inl halted⟩
        | false =>
          have again : (ClusterConfig.turn b c' c.cores.length).next h = some (.loop b c') := by
            unfold ClusterConfig.next
            simp only [ended,halted,Bool.false_eq_true,if_false]
          have round : Reaches (ClusterConfig.next h) (.loop b c) (.loop b c') := onward.tail again
          have running : c.allHalted = false := by simpa using (Bool.and_eq_true_iff.mp goes).1
          obtain ⟨m,listed,busy⟩ : ∃ m ∈ c.cores, m.regs.halt = false := by simpa [Cluster.allHalted] using running
          obtain ⟨j,found⟩ := List.getElem?_of_mem listed
          have drop := rounded.drops j m (Nat.zero_le _) found busy
          have steady : c'.deterministic.quantum ≠ 0 := by
            rw [rounded.engine]
            exact positive
          have going : c'.quantum ≠ 0 := by
            rw [rounded.quantum]
            exact works
          rw [left] at drop
          exact (ih _ drop steady going (fair.reaches round) rfl).after round

theorem bounded_run_terminates (h : Host) (c : Cluster) (maxCycles : DWord) (works : c.quantum ≠ 0)
    (positive : c.deterministic.quantum ≠ 0)
    (metered : ∀ k, Reaches (ClusterConfig.next h) (c.run maxCycles) k → k.Metered h) :
    ∃ k, Reaches (ClusterConfig.next h) (c.run maxCycles) k ∧
      ((∃ c', k = .done c' ∧
        (c'.allHalted = true ∨ maxCycles ≤ c'.deterministic.globalClock-c.deterministic.globalClock)) ∨
      ∃ err c', k = .thrown err c') := by
  obtain ⟨k,path,finished⟩ := loop_ends (b := ⟨c.deterministic.globalClock,maxCycles⟩) positive works metered
  refine ⟨k,path,?_⟩
  cases k with
  | done c' => exact .inl ⟨c',rfl,finished⟩
  | thrown err c' => exact .inr ⟨err,c',rfl⟩
  | loop => exact finished.elim
  | turn => exact finished.elim
  | quantum => exact finished.elim
  | sweep => exact finished.elim
  | undefined => exact finished.elim

theorem legal_of_quiet (quiet : Quiet m) : m.Legal := by
  intro i pre fetched _
  have effect := fetch_ok fetched
  rw [quiet.deliver,saveBefore_silent quiet.verbose] at effect
  cases effect with
  | word => exact quiet.unvectored
  | fault on =>
    rw [quiet.mmu] at on
    cases on

-- Executable companion of `Metered`, of a run that does not end by a throw or with every core halted.
def ClusterConfig.spins (h : Host) (k : ClusterConfig) : Bool :=
  match k with
  | .quantum b c _ before _ => k.stepping.all fun m => m.tame &&
      decide (b.passed c+(m.profiler.cycleCount-before).toNat+m.stepCharge < 2^64) &&
      decide ((step h m).Sat (fun _ _ => True) (fun _ _ => True) (fun _ => False))
  | .done c => !c.allHalted
  | .thrown _ _ => false
  | _ => true

theorem metered_of_spins (spins : k.spins h = true) : k.Metered h := by
  rintro b c i before q m rfl stepping
  simp only [ClusterConfig.spins,stepping,Option.all_some,Bool.and_eq_true,decide_eq_true_eq] at spins
  obtain ⟨⟨tame,room⟩,defined⟩ := spins
  refine ⟨legal_of_quiet (Machine.tame_iff.mp tame).1,?_,room⟩
  intro why stuck
  rw [stuck] at defined
  exact defined

-- One core branches to itself; a turn of two steps takes six cycles.
def spinning : Cluster := ⟨2,[(Emulator.programmed [Enc.beq 0 0 (-4)]).core],zeroStore 16,.initial 2⟩

-- The bound ends the run, after two rounds.
theorem bounded_run_terminates_spinning : ∃ c', Reaches (ClusterConfig.next (.ieee .scalar)) (spinning.run 10) (.done c') ∧
    c'.allHalted = false ∧ 10 ≤ c'.deterministic.globalClock := by
  have settled : Always (ClusterConfig.next (.ieee .scalar)) (fun k => k.spins (.ieee .scalar) = true) (spinning.run 10) :=
    always_of_settles (by decide +kernel : settles _ _ 16 _ = true)
  obtain ⟨k,path,⟨c',rfl,ends⟩ | ⟨err,c',rfl⟩⟩ := bounded_run_terminates (.ieee .scalar) spinning 10 (by decide) (by decide)
    fun k path => metered_of_spins (settled k path)
  · have running : (!c'.allHalted) = true := settled _ path
    rw [Bool.not_eq_true'] at running
    refine ⟨c',path,running,?_⟩
    rcases ends with halted | passed
    · cases running.symm.trans halted
    · change 10 ≤ c'.deterministic.globalClock-0 at passed
      simpa using passed
  · cases settled _ path

-- A core whose trap vector points at a word that is no instruction.
structure TrapsForever (m : Machine) : Prop where
  running : m.regs.halt = false
  pc : m.regs.pc = 4
  off : m.mmu.enabled = false
  verbose : m.verbose = false
  masked : m.csr.mstatusMie = false
  vector : m.csr.mtvec = 4
  inside : 8 ≤ m.scratchpad.size
  word : (⟨m.scratchpad.word 4⟩ : Instruction).opcode = none

namespace TrapsForever

theorem attach (traps : TrapsForever m) (ram : ByteStore) : TrapsForever (m.attach ram) := by
  obtain ⟨running,pc,off,verbose,masked,vector,inside,word⟩ := traps
  exact ⟨running,pc,off,verbose,masked,vector,inside,word⟩

theorem detach (traps : TrapsForever m) : TrapsForever m.detach := by
  obtain ⟨running,pc,off,verbose,masked,vector,inside,word⟩ := traps
  exact ⟨running,pc,off,verbose,masked,vector,inside,word⟩

theorem tick (traps : TrapsForever m) : TrapsForever m.tickPeripherals := by
  have regs : m.tickPeripherals.regs = m.regs := congrArg Visible.regs (visible_tick m)
  have mmu : m.tickPeripherals.mmu = m.mmu := Machine.tickPeripherals_keeps Machine.mmu (fun _ => rfl) m
  have verbose : m.tickPeripherals.verbose = m.verbose := Machine.tickPeripherals_keeps Machine.verbose (fun _ => rfl) m
  have csr : m.tickPeripherals.csr = m.csr := congrArg Visible.csr (visible_tick m)
  have scratchpad : m.tickPeripherals.scratchpad = m.scratchpad := congrArg Visible.scratchpad (visible_tick m)
  refine ⟨?_,?_,?_,?_,?_,?_,?_,?_⟩
  · rw [regs]
    exact traps.running
  · rw [regs]
    exact traps.pc
  · rw [mmu]
    exact traps.off
  · rw [verbose]
    exact traps.verbose
  · rw [csr]
    exact traps.masked
  · rw [csr]
    exact traps.vector
  · rw [scratchpad]
    exact traps.inside
  · rw [scratchpad]
    exact traps.word

-- Trap entry is back where the core was.
theorem enterTrap (traps : TrapsForever m) (t : Trap) : TrapsForever (m.advancePc.enterTrap t) := by
  have regs := m.advancePc.enterTrap_regs t
  have csr : (m.advancePc.enterTrap t).csr = InterruptController.takeTrapCsr m.csr t := rfl
  have vector : m.advancePc.trapVector = 4 := by
    unfold Machine.trapVector
    change (m.csr.mtvec &&& ~~~(3#64)).truncate 32 = (4 : Word)
    rw [traps.vector]
    decide
  refine ⟨?_,?_,traps.off,traps.verbose,?_,?_,traps.inside,traps.word⟩
  · rw [regs]
    exact traps.running
  · rw [regs]
    exact vector
  · rw [csr,CSRFile.mstatusMie,InterruptController.takeTrapCsr_mstatus,InterruptController.trapMstatus_mie]
  · rw [csr]
    exact (InterruptController.takeTrapCsr_other m.csr t _ (by decide)).trans traps.vector

theorem traps_again (h : Host) (traps : TrapsForever m) :
    ∃ t, Novium.step h m = .ok () (m.advancePc.enterTrap t).tickPeripherals := by
  obtain ⟨running,pc,off,verbose,masked,vector,inside,word⟩ := traps
  have below : m.regs.pc < mmioBase := by
    rw [pc]
    decide
  have within : m.regs.pc.toNat+4 ≤ m.scratchpad.size := by
    rw [pc]
    exact inside
  have opcode : (⟨m.scratchpad.word m.regs.pc.toNat⟩ : Instruction).opcode = none := by
    rw [pc]
    exact word
  have replayed := step_eq_replay (h := h) verbose off masked running below within
  generalize (⟨m.scratchpad.word m.regs.pc.toNat⟩ : Instruction) = i at replayed opcode
  have vectored : m.advancePc.csr.mtvec ≠ 0 := by
    change m.csr.mtvec ≠ 0
    rw [vector]
    decide
  have trapped : execute h i m.advancePc = .ok 2 (m.advancePc.enterTrap
      (InterruptController.illegalInstTrap ((m.advancePc.regs.pc-4).zeroExtend 64) i.raw)) := by
    simpa [execute,opcode,illegal,Exec.bind_apply] using vectored
  unfold replay at replayed
  rw [Exec.bind_ok (Exec.modify_apply _ _),Exec.bind_ok trapped,Exec.modify_apply] at replayed
  exact ⟨_,replayed⟩

theorem step (h : Host) (ram : ByteStore) (traps : TrapsForever m) :
    ∃ m', Novium.step h (m.attach ram) = .ok () m' ∧ TrapsForever m'.detach ∧ m'.profiler = m.profiler := by
  obtain ⟨t,ran⟩ := (traps.attach ram).traps_again h
  refine ⟨_,ran,((traps.attach ram).enterTrap t).tick.detach,?_⟩
  rw [Machine.tickPeripherals_keeps Machine.profiler (fun _ => rfl)]
  rfl

end TrapsForever

-- Where a run of such a core can stand. The clock stays where it was.
inductive Endless : ClusterConfig → Prop where
  | loop : TrapsForever n → e.quantum = 1 → e.globalClock = 0 → Endless (.loop ⟨0,1⟩ (single n ram e))
  | turn (j : Nat) : j = 0 ∨ j = 1 → TrapsForever n → e.quantum = 1 → e.globalClock = 0 →
      Endless (.turn ⟨0,1⟩ (single n ram e) j)
  | quantum (steps : DWord) : TrapsForever n → e.quantum = 1 → e.globalClock = 0 →
      Endless (.quantum ⟨0,1⟩ (single n ram e) 0 n.profiler.cycleCount steps)

theorem Endless.next (endless : Endless k) (next : k.next h = some k') : Endless k' := by
  cases endless with
  | @loop n ram e traps one start =>
    have running : (single n ram e).allHalted = false := by simp [Cluster.allHalted,single,traps.running]
    have early : (single n ram e).deterministic.globalClock-0 < (1 : DWord) := by
      change e.globalClock-0 < (1 : DWord)
      rw [start]
      decide
    simp only [ClusterConfig.next,running,early,decide_true,Bool.not_false,Bool.and_self,if_true,Option.some.injEq] at next
    subst next
    exact .turn 0 (.inl rfl) traps one start
  | @turn n ram e j place traps one start =>
    rcases place with rfl | rfl
    · simp only [ClusterConfig.next,single,List.getElem?_cons_zero,traps.running,Bool.false_eq_true,if_false,
        Option.some.injEq] at next
      subst next
      exact .quantum 0 traps one start
    · have running : (single n ram e).allHalted = false := by simp [Cluster.allHalted,single,traps.running]
      have stops : (single n ram e).cores[1]? = none := rfl
      simp only [ClusterConfig.next,stops,running,Bool.false_eq_true,if_false,Option.some.injEq] at next
      subst next
      exact .loop traps one start
  | @quantum n ram e steps traps one start =>
    have here : (single n ram e).cores[0]? = some n := rfl
    cases due : decide (steps < (single n ram e).quantum) && !n.regs.halt with
    | true =>
      obtain ⟨n',ran,traps',profiler⟩ := traps.step h ram
      have steps := (next_due (h := h) (b := ⟨0,1⟩) n.profiler.cycleCount here due).1
      have attached : n.attach (single n ram e).sharedRam = n.attach ram := rfl
      rw [attached,ran,next] at steps
      cases steps
      have cycles : n.profiler.cycleCount = n'.detach.profiler.cycleCount := congrArg Profiler.cycleCount profiler.symm
      rw [cycles]
      exact .quantum _ traps' one start
    | false =>
      obtain ⟨barrier,e',ticked,same,clock⟩ := e.tick_some (by rw [one]; decide) (BitVec.ofNat 32 0)
        (n.profiler.cycleCount-n.profiler.cycleCount)
      cases (next_over (h := h) (b := ⟨0,1⟩) here due ticked).symm.trans next
      rw [start,BitVec.sub_self] at clock
      exact .turn 1 (.inr rfl) traps (same.trans one) clock

theorem Endless.reaches (endless : Endless k) (path : Reaches (ClusterConfig.next h) k k') : Endless k' := by
  induction path with
  | refl => exact endless
  | tail _ next ih => exact ih.next next

-- MTVEC points at the word 0xFFFFFFFF.
def trapping : Machine :=
  {(Emulator.programmed [Enc.nop,0xFFFFFFFF]).core with
    regs := {RegisterFile.initial with pc := 4}
    csr := CSRFile.initial.write csrMtvec 4}

theorem trapping_run_never_ends : ¬ ∀ (h : Host) (c : Cluster) (maxCycles : DWord), c.quantum ≠ 0 → c.deterministic.quantum ≠ 0 →
    ∃ k, Reaches (ClusterConfig.next h) (c.run maxCycles) k ∧
      ((∃ c', k = .done c' ∧
        (c'.allHalted = true ∨ maxCycles ≤ c'.deterministic.globalClock-c.deterministic.globalClock)) ∨
      ∃ err c', k = .thrown err c') := by
  intro terminates
  have traps : TrapsForever trapping := ⟨rfl,rfl,rfl,rfl,by decide,by decide,by decide,by decide⟩
  have endless : Endless ((single trapping (zeroStore 16) (.initial 1)).run 1) := .loop traps rfl rfl
  obtain ⟨k,path,ends⟩ := terminates (.ieee .scalar) (single trapping (zeroStore 16) (.initial 1)) 1 (by decide) (by decide)
  have going := endless.reaches path
  rcases ends with ⟨c',rfl,_⟩ | ⟨err,c',rfl⟩
  · cases going
  · cases going

end Novium
