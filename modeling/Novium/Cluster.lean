import Novium.Cycle

namespace Novium
open Storage Effects StateTransition

def maxCores : Nat := 16

structure DeterministicEngine where
  quantum : DWord
  globalClock : DWord
  seq : DWord
  clocks : Fin maxCores → DWord

namespace DeterministicEngine

def initial (quantum : DWord) : DeterministicEngine := ⟨quantum,0,0,fun _ => 0⟩

-- The answer is whether a barrier is due. The clocks have moved by the time the
-- remainder by a quantum of zero is taken.
def tick (e : DeterministicEngine) (coreId : Word) (cycles : DWord) : Option (Bool × DeterministicEngine) :=
  let core : Fin maxCores := ⟨coreId.toNat % maxCores,Nat.mod_lt _ (by decide)⟩
  let clock := e.globalClock+cycles
  let e' := {e with
    clocks := Function.update e.clocks core (e.clocks core+cycles),globalClock := clock,seq := e.seq+1}
  if e.quantum = 0 then none else some (clock % e.quantum == 0,e')

theorem tick_some {e : DeterministicEngine} (positive : e.quantum ≠ 0) (coreId : Word) (cycles : DWord) :
    ∃ due e', e.tick coreId cycles = some (due,e') ∧ e'.quantum = e.quantum ∧ e'.globalClock = e.globalClock+cycles := by
  unfold tick
  dsimp only
  rw [if_neg positive]
  exact ⟨_,_,rfl,rfl,rfl⟩

end DeterministicEngine

namespace Machine

def attach (m : Machine) (ram : ByteStore) : Machine := {m with shared := some ram}
def detach (m : Machine) : Machine := {m with shared := none}

end Machine

-- The addresses the cluster registers on every core's bus.
def SharedWindow (addr : Word) : Prop := 0x80000000 ≤ addr ∧ addr < 0x81000000

instance (addr : Word) : Decidable (SharedWindow addr) := inferInstanceAs (Decidable (0x80000000 ≤ addr ∧ addr < 0x81000000))

theorem deviceAt_window {m : Machine} {addr : Word} (window : SharedWindow addr) (attached : m.shared.isSome = true) :
    m.deviceAt addr = some .shared := by
  obtain ⟨low,high⟩ := window
  have least : (0x80000000 : Word).toNat ≤ addr.toNat := low
  have start : (0x80000000 : Word).toNat = 0x80000000 := rfl
  have base : mmioBase.toNat = 0x03F00000 := rfl
  have timer : (mmioBase+0x1000).toNat = 0x03F01000 := rfl
  have uart : (mmioBase+uartBase+0x1000).toNat = 0x03F02000 := rfl
  have device : mmioBase ≤ addr := by
    change mmioBase.toNat ≤ addr.toNat
    omega
  have notTimer : ¬ addr < mmioBase+0x1000 := by
    change ¬ addr.toNat < (mmioBase+0x1000).toNat
    omega
  have notUart : ¬ addr < mmioBase+uartBase+0x1000 := by
    change ¬ addr.toNat < (mmioBase+uartBase+0x1000).toNat
    omega
  have high' : addr < (0x80000000 : Word)+0x01000000 := high
  unfold Machine.deviceAt Machine.devices
  rw [if_pos device,if_pos attached]
  simp only [List.cons_append,List.nil_append,List.find?_cons,decide_eq_false notTimer,decide_eq_false notUart,
    decide_eq_true low,decide_eq_true high',Bool.and_false,Bool.and_true]
  rfl

theorem window_of_deviceAt {m : Machine} {addr : Word} (found : m.deviceAt addr = some .shared) : SharedWindow addr := by
  obtain ⟨d,listed,kind,inside⟩ := Machine.deviceAt_some found
  rcases Machine.mem_devices.mp listed with rfl | rfl | ⟨_,rfl⟩
  · cases kind
  · cases kind
  · exact inside

-- The cores are kept detached: the RAM behind their window is the cluster's.
structure Cluster where
  quantum : DWord
  cores : List Machine
  sharedRam : ByteStore
  deterministic : DeterministicEngine

namespace Cluster

def initial (numCores scratchpadPerCore sharedRam : Nat) (quantum : DWord) : Cluster :=
  ⟨quantum,List.replicate numCores (.initial scratchpadPerCore sharedRam),zeroStore sharedRam,.initial quantum⟩

def allHalted (c : Cluster) : Bool := c.cores.all fun m => m.regs.halt

def put (c : Cluster) (i : Nat) (m : Machine) : Cluster :=
  {c with cores := c.cores.set i m.detach,sharedRam := m.shared.getD c.sharedRam}

end Cluster

def single (m : Machine) (ram : ByteStore) (e : DeterministicEngine) : Cluster := ⟨1,[m],ram,e⟩

structure Bounds where
  start : DWord
  maxCycles : DWord

-- Where a call of `run` or `step_all` stands: at the outer loop test, at core `i` of
-- the round, before a step of that core's quantum, or at core `i` of `step_all`.
inductive ClusterConfig where
  | loop (b : Bounds) (c : Cluster)
  | turn (b : Bounds) (c : Cluster) (i : Nat)
  | quantum (b : Bounds) (c : Cluster) (i : Nat) (before q : DWord)
  | sweep (c : Cluster) (i : Nat)
  | done (c : Cluster)
  | thrown (err : EmulatorError) (c : Cluster)
  | undefined (why : Hazard)

namespace ClusterConfig

def ofStep (c : Cluster) (i : Nat) (continued : Cluster → ClusterConfig) : Outcome EmulatorError Hazard Machine Unit → ClusterConfig
  | .ok _ m => continued (c.put i m)
  | .thrown err m => .thrown err (c.put i m)
  | .undefined why => .undefined why

def next (h : Host) : ClusterConfig → Option ClusterConfig
  | .loop b c => some (
    if !c.allHalted && c.deterministic.globalClock-b.start < b.maxCycles then .turn b c 0 else .done c)
  | .turn b c i => some (
    match c.cores[i]? with
    | none => if c.allHalted then .done c else .loop b c
    | some m => if m.regs.halt then .turn b c (i+1) else .quantum b c i m.profiler.cycleCount 0)
  | .quantum b c i before q => some (
    match c.cores[i]? with
    | none => .undefined .outOfBounds
    | some m =>
      if q < c.quantum && !m.regs.halt then ofStep c i (.quantum b · i before (q+1)) (step h (m.attach c.sharedRam))
      else match c.deterministic.tick (BitVec.ofNat 32 i) (m.profiler.cycleCount-before) with
        | none => .undefined .zeroQuantum
        | some (_,engine) => .turn b {c with deterministic := engine} (i+1))
  | .sweep c i => some (
    match c.cores[i]? with
    | none => .done c
    | some m => if m.regs.halt then .sweep c (i+1) else ofStep c i (.sweep · (i+1)) (step h (m.attach c.sharedRam)))
  | .done _ | .thrown _ _ | .undefined _ => none

def cluster : ClusterConfig → Option Cluster
  | .loop _ c | .turn _ c _ | .quantum _ c _ _ _ | .sweep c _ | .done c | .thrown _ c => some c
  | .undefined _ => none

def stepping : ClusterConfig → Option Machine
  | .quantum _ c i _ q => (c.cores[i]?.filter fun m => q < c.quantum && !m.regs.halt).map (·.attach c.sharedRam)
  | .sweep c i => (c.cores[i]?.filter fun m => !m.regs.halt).map (·.attach c.sharedRam)
  | _ => none

end ClusterConfig

inductive ClusterActivity where
  | idle (c : Cluster)
  | inside (k : ClusterConfig)

def ClusterActivity.cluster : ClusterActivity → Option Cluster
  | .idle c => some c
  | .inside k => k.cluster

def ClusterActivity.stepping : ClusterActivity → Option Machine
  | .idle _ => none
  | .inside k => k.stepping

def Cluster.run (c : Cluster) (maxCycles : DWord) : ClusterConfig := .loop ⟨c.deterministic.globalClock,maxCycles⟩ c

-- What `run` is called with when the caller gives no bound.
def uint64Max : DWord := 0xFFFFFFFFFFFFFFFF

theorem uint64Max_toNat : uint64Max.toNat = 2^64-1 := rfl

inductive ClusterMoves (h : Host) : ClusterActivity → ClusterActivity → Prop where
  | run (maxCycles : DWord) : ClusterMoves h (.idle c) (.inside (c.run maxCycles))
  | stepAll : ClusterMoves h (.idle c) (.inside (.sweep c 0))
  | next : k.next h = some k' → ClusterMoves h (.inside k) (.inside k')
  | returned : ClusterMoves h (.inside (.done c)) (.idle c)
  | threw : ClusterMoves h (.inside (.thrown err c)) (.idle c)

-- All that a move inside a call can do to the cores: nothing, or one step of the core
-- that is due.
inductive CoreMoves (h : Host) (c : Cluster) : Option Machine → ClusterConfig → Prop where
  | still : k.cluster = some c' → c'.cores = c.cores → c'.sharedRam = c.sharedRam → CoreMoves h c none k
  | stepped (i : Nat) : c.cores[i]? = some m → m.regs.halt = false → step h (m.attach c.sharedRam) = .ok () m' →
      k.cluster = some (c.put i m') → CoreMoves h c (some (m.attach c.sharedRam)) k
  | threw (i : Nat) : c.cores[i]? = some m → m.regs.halt = false → step h (m.attach c.sharedRam) = .thrown err m' →
      CoreMoves h c (some (m.attach c.sharedRam)) (.thrown err (c.put i m'))
  | stuck (why : Hazard) : CoreMoves h c stepping (.undefined why)

variable {h : Host} {c : Cluster} {k k' : ClusterConfig}

theorem CoreMoves.ofStep {i : Nat} {m : Machine} (here : c.cores[i]? = some m) (running : m.regs.halt = false)
    {continued : Cluster → ClusterConfig} (goes : ∀ c, (continued c).cluster = some c) :
    CoreMoves h c (some (m.attach c.sharedRam)) (.ofStep c i continued (step h (m.attach c.sharedRam))) := by
  cases ran : step h (m.attach c.sharedRam) with
  | ok u m' => exact .stepped i here running ran (goes _)
  | thrown err m' => exact .threw i here running ran
  | undefined why => exact .stuck why

theorem next_moves (next : k.next h = some k') (here : k.cluster = some c) : CoreMoves h c k.stepping k' := by
  cases k with
  | done _ => cases next
  | thrown _ _ => cases next
  | undefined _ => cases next
  | loop b c =>
    cases here
    simp only [ClusterConfig.next,Option.some.injEq] at next
    subst next
    split
    · exact .still rfl rfl rfl
    · exact .still rfl rfl rfl
  | turn b c i =>
    cases here
    simp only [ClusterConfig.next,Option.some.injEq] at next
    subst next
    cases c.cores[i]? with
    | none =>
      dsimp only
      split
      · exact .still rfl rfl rfl
      · exact .still rfl rfl rfl
    | some m =>
      dsimp only
      split
      · exact .still rfl rfl rfl
      · exact .still rfl rfl rfl
  | quantum b c i before q =>
    cases here
    simp only [ClusterConfig.next,Option.some.injEq] at next
    subst next
    cases found : c.cores[i]? with
    | none => exact .stuck _
    | some m =>
      dsimp only [ClusterConfig.stepping]
      rw [found]
      cases due : decide (q < c.quantum) && !m.regs.halt with
      | true =>
        have running : m.regs.halt = false := by simpa using (Bool.and_eq_true_iff.mp due).2
        rw [if_pos rfl,Option.filter_some,if_pos due]
        exact .ofStep found running fun _ => rfl
      | false =>
        rw [if_neg Bool.false_ne_true,Option.filter_some,due,if_neg Bool.false_ne_true]
        split
        · exact .stuck _
        · exact .still rfl rfl rfl
  | sweep c i =>
    cases here
    simp only [ClusterConfig.next,Option.some.injEq] at next
    subst next
    cases found : c.cores[i]? with
    | none =>
      dsimp only [ClusterConfig.stepping]
      rw [found]
      exact .still rfl rfl rfl
    | some m =>
      dsimp only [ClusterConfig.stepping]
      rw [found]
      cases halted : m.regs.halt with
      | true =>
        rw [if_pos rfl,Option.filter_some,halted]
        exact .still rfl rfl rfl
      | false =>
        rw [if_neg Bool.false_ne_true,Option.filter_some,halted]
        exact .ofStep found halted fun _ => rfl

theorem next_cluster (next : k.next h = some k') : ∃ c, k.cluster = some c := by
  cases k with
  | undefined why => cases next
  | loop b c => exact ⟨c,rfl⟩
  | turn b c i => exact ⟨c,rfl⟩
  | quantum b c i before q => exact ⟨c,rfl⟩
  | sweep c i => exact ⟨c,rfl⟩
  | done c => exact ⟨c,rfl⟩
  | thrown err c => exact ⟨c,rfl⟩

-- All that a move between two activities that show a cluster can do to it: nothing, or
-- one step of the core that is due.
inductive ActivityMoves (h : Host) (c c' : Cluster) (b : ClusterActivity) : Option Machine → Prop where
  | still : c'.cores = c.cores → c'.sharedRam = c.sharedRam → ActivityMoves h c c' b none
  | stepped (i : Nat) : c.cores[i]? = some m → m.regs.halt = false → step h (m.attach c.sharedRam) = .ok () m' →
      c' = c.put i m' → ActivityMoves h c c' b (some (m.attach c.sharedRam))
  | threw (i : Nat) : c.cores[i]? = some m → m.regs.halt = false → step h (m.attach c.sharedRam) = .thrown err m' →
      c' = c.put i m' → b = .inside (.thrown err c') → ActivityMoves h c c' b (some (m.attach c.sharedRam))

theorem ClusterMoves.cores {a b : ClusterActivity} {c' : Cluster} (moves : ClusterMoves h a b) (after : b.cluster = some c') :
    ∃ c, a.cluster = some c ∧ ActivityMoves h c c' b a.stepping := by
  cases moves with
  | run => exact ⟨c',after,.still rfl rfl⟩
  | stepAll => exact ⟨c',after,.still rfl rfl⟩
  | returned => exact ⟨c',after,.still rfl rfl⟩
  | threw => exact ⟨c',after,.still rfl rfl⟩
  | @next k' k next =>
    obtain ⟨c,shown⟩ := next_cluster next
    have deed := next_moves next shown
    refine ⟨c,shown,?_⟩
    change ActivityMoves h c c' _ k.stepping
    generalize k.stepping = due at deed
    cases deed with
    | still cluster cores ram =>
      cases cluster.symm.trans after
      exact .still cores ram
    | stepped i here running ran cluster =>
      cases cluster.symm.trans after
      exact .stepped i here running ran rfl
    | threw i here running ran =>
      cases after
      exact .threw i here running ran rfl rfl
    | stuck => cases after

theorem due_core {a : ClusterActivity} {m : Machine} (due : a.stepping = some m) (here : a.cluster = some c) :
    ∃ (j : Nat) (n : Machine), c.cores[j]? = some n ∧ n.regs.halt = false ∧ m = n.attach c.sharedRam := by
  cases a with
  | idle c => cases due
  | inside k =>
    cases k with
    | loop b c => cases due
    | turn b c i => cases due
    | done c => cases due
    | thrown err c => cases due
    | undefined why => cases due
    | quantum b c i before q =>
      cases here
      obtain ⟨n,found,rfl⟩ := Option.map_eq_some_iff.mp due
      obtain ⟨found,running⟩ := Option.filter_eq_some_iff.mp found
      exact ⟨i,n,found,by simpa using (Bool.and_eq_true_iff.mp running).2,rfl⟩
    | sweep c i =>
      cases here
      obtain ⟨n,found,rfl⟩ := Option.map_eq_some_iff.mp due
      obtain ⟨found,running⟩ := Option.filter_eq_some_iff.mp found
      exact ⟨i,n,found,by simpa using running,rfl⟩

theorem moves_due {a b : ClusterActivity} {c' : Cluster} {m : Machine} (moves : ClusterMoves h a b) (due : a.stepping = some m)
    (here : a.cluster = some c) (after : b.cluster = some c') : ∃ (j : Nat) (n m' : Machine), c.cores[j]? = some n ∧
      m = n.attach c.sharedRam ∧ c' = c.put j m' ∧ (step h m = .ok () m' ∨ ∃ err, step h m = .thrown err m') := by
  obtain ⟨d,shown,deed⟩ := moves.cores after
  cases here.symm.trans shown
  rw [due] at deed
  cases deed with
  | stepped j found running ran put => exact ⟨j,_,_,found,rfl,put,.inl ran⟩
  | threw j found running ran put => exact ⟨j,_,_,found,rfl,put,.inr ⟨_,ran⟩⟩

end Novium
