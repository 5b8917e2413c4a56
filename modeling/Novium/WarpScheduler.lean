import Mathlib.Data.List.Nodup
import Novium.Isa
import Novium.RoundRobin

namespace Novium
open RoundRobin

structure WarpConfig where
  warpSize : Word
  maxWarpsPerSm : Word
  numSms : Word
  deriving DecidableEq, Repr

-- The product is taken in 32 bits.
def WarpConfig.warps (cfg : WarpConfig) : Nat := (cfg.maxWarpsPerSm*cfg.numSms).toNat

-- A warp's entry is 0 when it is ready, else the cycles it still stalls for.
structure WarpScheduler where
  cfg : WarpConfig
  state : List Word
  scheduled : DWord
  stalls : DWord
  rr : Nat
  sized : state.length = cfg.warps

def warpId (w : Nat) : Word := BitVec.ofNat 32 w

namespace WarpScheduler

def configure (cfg : WarpConfig) : WarpScheduler :=
  ⟨cfg,List.replicate cfg.warps 0,0,0,0,List.length_replicate⟩

def reset (s : WarpScheduler) : WarpScheduler := configure s.cfg

def isReady (s : WarpScheduler) (w : Nat) : Bool := s.state[w]? == some 0

def visited (s : WarpScheduler) : List Nat := (List.range s.state.length).map fun i => (s.rr+i) % s.state.length

def schedule (s : WarpScheduler) : WarpScheduler × Word :=
  match s.visited.find? s.isReady with
  | some id => ({s with rr := (id+1) % s.state.length,scheduled := s.scheduled+1},warpId id)
  | none => (s,-1)

-- `warp_id` is an int, and a negative one is refused.
def valid (s : WarpScheduler) (id : Word) : Bool := !id.msb && id.toNat < s.state.length

def markReady (s : WarpScheduler) (id : Word) : WarpScheduler :=
  if s.valid id then {s with state := s.state.set id.toNat 0,sized := List.length_set.trans s.sized} else s

def markStalled (s : WarpScheduler) (id cycles : Word) : WarpScheduler :=
  if s.valid id then {s with
    state := s.state.set id.toNat cycles
    stalls := s.stalls+1
    sized := List.length_set.trans s.sized}
  else s

def tickState (cycles stall : Word) : Word := if 0 < stall then (if cycles < stall then stall-cycles else 0) else stall

def tick (s : WarpScheduler) (cycles : Word) : WarpScheduler :=
  {s with state := s.state.map (tickState cycles),sized := (List.length_map _).trans s.sized}

def activeWarps (s : WarpScheduler) : Word := BitVec.ofNat 32 (s.state.countP (· == 0))

def ring (s : WarpScheduler) : List Nat := (List.range s.state.length).rotate s.rr

def readyWarps (s : WarpScheduler) : List Nat := (List.range s.state.length).filter s.isReady

variable {s : WarpScheduler} {w id : Nat}

theorem visited_ring (s : WarpScheduler) : s.visited = s.ring := by
  apply List.ext_getElem
  · simp [visited,ring]
  · intro i _ _
    simp [visited,ring,List.getElem_rotate,Nat.add_comm]

theorem mem_ring : w ∈ s.ring ↔ w < s.state.length := by
  rw [ring,List.mem_rotate,List.mem_range]

theorem isReady_bound (ready : s.isReady w = true) : w < s.state.length := by
  unfold isReady at ready
  rw [beq_iff_eq] at ready
  exact (List.getElem?_eq_some_iff.mp ready).1

theorem warpId_inj {v : Nat} (first : v < s.state.length) (second : w < s.state.length) (same : warpId v = warpId w) : v = w := by
  have fits := (s.cfg.maxWarpsPerSm*s.cfg.numSms).isLt
  have sized : s.state.length = (s.cfg.maxWarpsPerSm*s.cfg.numSms).toNat := s.sized
  have equal := congrArg BitVec.toNat same
  rw [warpId,warpId,BitVec.toNat_ofNat,BitVec.toNat_ofNat,Nat.mod_eq_of_lt (by omega),Nat.mod_eq_of_lt (by omega)] at equal
  exact equal

theorem warpId_none (listed : w < s.state.length) : warpId w ≠ -1 := by
  have fits := (s.cfg.maxWarpsPerSm*s.cfg.numSms).isLt
  have sized : s.state.length = (s.cfg.maxWarpsPerSm*s.cfg.numSms).toNat := s.sized
  intro same
  have equal := congrArg BitVec.toNat same
  rw [warpId,BitVec.toNat_ofNat,Nat.mod_eq_of_lt (by omega),show (-1 : Word).toNat = 2^32-1 by decide] at equal
  omega

theorem ring_turn (found : s.ring.find? s.isReady = some id) :
    (List.range s.state.length).rotate ((id+1) % s.state.length) = turn s.isReady s.ring := by
  have index := found
  rw [List.find?_eq_getElem?_findIdx,List.getElem?_eq_some_iff] at index
  obtain ⟨inside,place⟩ := index
  have here : (s.rr+s.ring.findIdx s.isReady) % s.state.length = id := by
    rw [← place]
    simp [ring,List.getElem_rotate,Nat.add_comm]
  have wrapped : ∀ k, (List.range s.state.length).rotate (k % s.state.length) = (List.range s.state.length).rotate k := by
    intro k
    have whole := List.rotate_mod (List.range s.state.length) k
    rw [List.length_range] at whole
    exact whole
  calc (List.range s.state.length).rotate ((id+1) % s.state.length)
      = (List.range s.state.length).rotate ((s.rr+s.ring.findIdx s.isReady+1) % s.state.length) := by rw [← here,Nat.mod_add_mod]
    _ = (List.range s.state.length).rotate (s.rr+s.ring.findIdx s.isReady+1) := wrapped _
    _ = turn s.isReady s.ring := by rw [turn,ring,List.rotate_rotate,Nat.add_assoc]

-- All a call of `schedule` can do: a turn of the ring, or nothing when no warp is ready.
theorem schedule_cases (s : WarpScheduler) :
    (∃ id, s.ring.find? s.isReady = some id ∧ s.schedule.2 = warpId id ∧ s.schedule.1.state = s.state ∧
      s.schedule.1.ring = turn s.isReady s.ring) ∨
    ((∀ w, s.isReady w = false) ∧ s.schedule = (s,-1)) := by
  unfold schedule
  rw [visited_ring]
  cases found : s.ring.find? s.isReady with
  | none =>
    refine .inr ⟨?_,rfl⟩
    intro w
    rw [List.find?_eq_none] at found
    by_contra ready
    rw [Bool.not_eq_false] at ready
    exact found w (mem_ring.mpr (isReady_bound ready)) ready
  | some id =>
    exact .inl ⟨id,rfl,rfl,rfl,ring_turn found⟩

end WarpScheduler

inductive WarpOp where
  | schedule
  | markReady (id : Word)
  | markStalled (id cycles : Word)
  | tick (cycles : Word)
  deriving DecidableEq, Repr

namespace WarpScheduler

def perform (s : WarpScheduler) : WarpOp → WarpScheduler
  | .schedule => s.schedule.1
  | .markReady id => s.markReady id
  | .markStalled id cycles => s.markStalled id cycles
  | .tick cycles => s.tick cycles

def answers (s : WarpScheduler) : List WarpOp → List Word
  | [] => []
  | .schedule :: ops => s.schedule.2 :: s.schedule.1.answers ops
  | op :: ops => (s.perform op).answers ops

def Throughout (holds : WarpScheduler → Prop) (s : WarpScheduler) : List WarpOp → Prop
  | [] => holds s
  | op :: ops => holds s ∧ (s.perform op).Throughout holds ops

instance decidableThroughout (holds : WarpScheduler → Prop) [DecidablePred holds] :
    (s : WarpScheduler) → (ops : List WarpOp) → Decidable (s.Throughout holds ops)
  | s,[] => inferInstanceAs (Decidable (holds s))
  | s,op :: ops =>
    have := decidableThroughout holds (s.perform op) ops
    inferInstanceAs (Decidable (holds s ∧ (s.perform op).Throughout holds ops))

section Runs
variable {s : WarpScheduler} {w : Nat} {ops : List WarpOp} {op : WarpOp} {holds : WarpScheduler → Prop}

theorem Throughout.now (throughout : s.Throughout holds ops) : holds s := by
  cases ops with
  | nil => exact throughout
  | cons op ops => exact throughout.1

-- Only `schedule` moves the ring, and no operation resizes it.
theorem perform_ring (other : op ≠ .schedule) : (s.perform op).ring = s.ring := by
  cases op with
  | schedule => exact absurd rfl other
  | markReady id =>
    unfold perform markReady
    dsimp only
    split
    · simp only [ring,List.length_set]
    · rfl
  | markStalled id cycles =>
    unfold perform markStalled
    dsimp only
    split
    · simp only [ring,List.length_set]
    · rfl
  | tick cycles => simp only [perform,tick,ring,List.length_map]

theorem ring_length (s : WarpScheduler) : s.ring.length = s.state.length := by
  rw [ring,List.length_rotate,List.length_range]

theorem schedule_served (ready : s.isReady w = true) :
    s.schedule.2 = warpId w ∨ s.schedule.1.ring.idxOf w < s.ring.idxOf w := by
  rcases s.schedule_cases with ⟨id,found,answer,_,moved⟩ | ⟨idle,_⟩
  · rcases turn_waiting found (mem_ring.mpr (isReady_bound ready)) ready with rfl | closer
    · exact .inl answer
    · rw [moved]
      exact .inr closer
  · rw [idle w] at ready
    cases ready

theorem answers_other (other : op ≠ .schedule) : s.answers (op :: ops) = (s.perform op).answers ops := by
  cases op with
  | schedule => exact absurd rfl other
  | markReady | markStalled | tick => rfl

-- A warp that stays ready waits for no more calls than there are warps ahead of it.
theorem served_within (stays : s.Throughout (fun s => s.isReady w = true) ops) {calls : Nat} (ahead : s.ring.idxOf w < calls)
    (enough : calls ≤ (s.answers ops).length) : warpId w ∈ (s.answers ops).take calls := by
  induction ops generalizing s calls with
  | nil => exact absurd enough (by simp only [answers,List.length_nil]; omega)
  | cons op ops ih =>
    obtain ⟨ready,later⟩ := stays
    by_cases call : op = .schedule
    · subst call
      have later : s.schedule.1.Throughout (fun s => s.isReady w = true) ops := later
      obtain ⟨rest,rfl⟩ := Nat.exists_eq_add_of_lt (Nat.zero_lt_of_lt ahead)
      rw [Nat.zero_add] at ahead enough ⊢
      simp only [answers,List.length_cons,List.take_succ_cons,List.mem_cons] at enough ⊢
      rcases schedule_served ready with served | closer
      · exact .inl served.symm
      · exact .inr (ih later (by omega) (by omega))
    · rw [answers_other call] at enough ⊢
      refine ih later ?_ enough
      rw [perform_ring call]
      exact ahead

def queue (s : WarpScheduler) : List Nat := s.ring.filter s.isReady

theorem queue_perm (s : WarpScheduler) : s.queue.Perm s.readyWarps := (List.rotate_perm _ _).filter _

theorem queue_other (other : op ≠ .schedule) (constant : (s.perform op).readyWarps = s.readyWarps) : (s.perform op).queue = s.queue := by
  have moved := perform_ring (s := s) other
  unfold queue
  rw [moved]
  apply List.filter_congr
  intro v member
  have listed := mem_ring.mp member
  have listed' : v < (s.perform op).state.length := by
    rw [← mem_ring,moved]
    exact member
  have same : v ∈ (s.perform op).readyWarps ↔ v ∈ s.readyWarps := by rw [constant]
  simp only [readyWarps,List.mem_filter,List.mem_range,listed,listed',true_and] at same
  exact Bool.eq_iff_iff.mpr same

theorem schedule_queue (some : s.queue ≠ []) : ∃ id rest, s.queue = id :: rest ∧ s.schedule.2 = warpId id ∧
    s.schedule.1.queue = rest ++ [id] := by
  rcases s.schedule_cases with ⟨id,found,answer,kept,moved⟩ | ⟨idle,_⟩
  · obtain ⟨rest,first,last⟩ := turn_filter found
    have ready : s.schedule.1.isReady = s.isReady := by
      funext v
      simp only [isReady,kept]
    refine ⟨id,rest,first,answer,?_⟩
    rw [queue,ready,moved]
    exact last
  · refine absurd ?_ some
    unfold queue
    rw [List.filter_eq_nil_iff]
    intro v _
    rw [idle v]
    decide

-- While the ready warps stay the same the answers run through the queue.
theorem answers_queue {ready : List Nat} (constant : s.Throughout (fun s => s.readyWarps = ready) ops) {calls : Nat}
    (once : calls ≤ s.queue.length) (enough : calls ≤ (s.answers ops).length) :
    (s.answers ops).take calls = (s.queue.take calls).map warpId := by
  induction ops generalizing s calls with
  | nil =>
    have none : calls = 0 := Nat.le_zero.mp enough
    rw [none]
    rfl
  | cons op ops ih =>
    obtain ⟨now,later⟩ := constant
    by_cases call : op = .schedule
    · subst call
      cases calls with
      | zero => rfl
      | succ calls =>
        have some : s.queue ≠ [] := by
          intro none
          rw [none] at once
          cases once
        obtain ⟨id,rest,queued,answer,next⟩ := schedule_queue some
        rw [queued,List.length_cons] at once
        simp only [answers,List.length_cons] at enough
        have later : s.schedule.1.Throughout (fun s => s.readyWarps = ready) ops := later
        have after : (s.schedule.1.answers ops).take calls = (s.schedule.1.queue.take calls).map warpId :=
          ih later (by rw [next,List.length_append]; omega) (by omega)
        rw [next,List.take_append_of_le_length (by omega)] at after
        rw [queued,answers,List.take_succ_cons,List.take_succ_cons,List.map_cons,answer,after]
    · rw [answers_other call] at enough ⊢
      have same := queue_other call (later.now.trans now.symm)
      rw [← same] at once ⊢
      exact ih later once enough

theorem readyWarps_ids (s : WarpScheduler) : (s.readyWarps.map warpId).Nodup := by
  refine List.Nodup.map_on ?_ (List.nodup_range.filter _)
  intro v first w second same
  exact warpId_inj (List.mem_range.mp (List.mem_filter.mp first).1) (List.mem_range.mp (List.mem_filter.mp second).1) same

theorem activeWarps_ready (s : WarpScheduler) : s.activeWarps = BitVec.ofNat 32 s.readyWarps.length := by
  have listed : s.state = (List.range s.state.length).map fun w => s.state[w]?.getD 0 := by
    apply List.ext_getElem
    · simp
    · intro w inside _
      simp [inside]
  unfold activeWarps readyWarps
  rw [← List.countP_eq_length_filter]
  conv_lhs => rw [listed]
  rw [List.countP_map]
  refine congrArg _ (List.countP_congr ?_)
  intro w member
  have inside := List.mem_range.mp member
  simp [isReady,inside]

end Runs
end WarpScheduler

def fourWarps : WarpScheduler := .configure ⟨32,2,2⟩

example : fourWarps.answers [.schedule,.markStalled 1 5,.schedule,.schedule,.tick 5,.schedule,.schedule] = [0,2,3,0,1] := by decide

end Novium
