import Mathlib.Data.List.Induction
import Mathlib.Data.List.TakeWhile
import Novium.Devices

namespace Novium

inductive FabricCall where
  | issue (t : Transaction) (curCycle : DWord)
  | tick (cycles : DWord)

def FabricCall.isIssue : FabricCall → Bool
  | .issue _ _ => true
  | .tick _ => false

-- What the callers have been told: the transactions taken in, as they entered the
-- queue and oldest first, and how many were turned away.
structure FabricLog where
  accepted : List Transaction
  rejected : Nat

namespace Interconnect

def entry (x : Interconnect) (t : Transaction) (curCycle : DWord) : Transaction :=
  let burst := x.cfg.dataWidth*x.cfg.burstLen
  {t with
    issueCycle := curCycle
    completeCycle := curCycle + x.cfg.latencyCycles.zeroExtend 64 + ((t.bytes+burst-1)/burst).zeroExtend 64
    proto := x.cfg.protocol}

def call (s : Interconnect × FabricLog) : FabricCall → Option (Interconnect × FabricLog)
  | .issue t curCycle => (s.1.issue t curCycle).map fun answer =>
      (answer.1,if answer.2 then {s.2 with accepted := s.2.accepted ++ [s.1.entry t curCycle]}
        else {s.2 with rejected := s.2.rejected+1})
  | .tick cycles => some (s.1.tick cycles,s.2)

def run (x : Interconnect) (calls : List FabricCall) : Option (Interconnect × FabricLog) := calls.foldlM call (x,⟨[],0⟩)

inductive Issued (x : Interconnect) (t : Transaction) (curCycle : DWord) : Interconnect × Bool → Prop where
  | rejected : x.cfg.maxOutstanding.toNat ≤ x.pending.length →
      Issued x t curCycle ({x with stalled := x.stalled+1},false)
  | accepted : x.pending.length < x.cfg.maxOutstanding.toNat →
      Issued x t curCycle ({x with pending := x.pending ++ [x.entry t curCycle],curCycle := curCycle},true)

theorem issue_issued {x : Interconnect} (burst : x.cfg.dataWidth*x.cfg.burstLen ≠ 0) (t : Transaction) (curCycle : DWord) :
    ∃ answer, x.issue t curCycle = some answer ∧ Issued x t curCycle answer := by
  unfold issue
  split
  · rename_i full
    exact ⟨_,rfl,.rejected full⟩
  · rename_i room
    dsimp only
    rw [if_neg burst]
    exact ⟨_,rfl,.accepted (Nat.not_le.mp room)⟩

theorem tick_completes (x : Interconnect) (cycles : DWord) : ∃ done, x.pending = done ++ (x.tick cycles).pending ∧
    (∀ t ∈ done, t.completeCycle ≤ (x.tick cycles).curCycle) ∧ (x.tick cycles).completed = x.completed+BitVec.ofNat 64 done.length := by
  refine ⟨x.pending.takeWhile fun t => t.completeCycle ≤ x.curCycle+cycles,?_,?_,rfl⟩
  · unfold tick
    dsimp only
    exact (List.prefix_iff_eq_append.mp (List.takeWhile_prefix _)).symm
  · intro t member
    have due := List.mem_takeWhile_imp member
    exact of_decide_eq_true due

-- The queue is what of the accepted transactions has not been completed.
structure Conserves (x : Interconnect) (log : FabricLog) : Prop where
  room : x.pending.length ≤ x.cfg.maxOutstanding.toNat
  queue : ∃ done, log.accepted = done ++ x.pending ∧ x.completed = BitVec.ofNat 64 done.length
  stalled : x.stalled = BitVec.ofNat 64 log.rejected

theorem Conserves.call {x : Interconnect} {log : FabricLog} (conserves : Conserves x log)
    (burst : x.cfg.dataWidth*x.cfg.burstLen ≠ 0) (c : FabricCall) : ∃ y log', Interconnect.call (x,log) c = some (y,log') ∧
      Conserves y log' ∧ y.cfg = x.cfg ∧
      log'.accepted.length+log'.rejected = log.accepted.length+log.rejected+(if c.isIssue then 1 else 0) := by
  obtain ⟨room,⟨done,queue,completed⟩,stalled⟩ := conserves
  cases c with
  | issue t curCycle =>
    obtain ⟨answer,issued,did⟩ := issue_issued burst t curCycle
    unfold Interconnect.call
    dsimp only
    rw [issued]
    cases did with
    | rejected full =>
      refine ⟨_,_,rfl,⟨room,⟨done,queue,completed⟩,?_⟩,rfl,rfl⟩
      change x.stalled+1 = BitVec.ofNat 64 (log.rejected+1)
      rw [stalled,BitVec.ofNat_add]
      rfl
    | accepted below =>
      refine ⟨_,_,rfl,⟨?_,⟨done,?_,completed⟩,stalled⟩,rfl,?_⟩
      · change (x.pending ++ [x.entry t curCycle]).length ≤ _
        rw [List.length_append,List.length_singleton]
        exact below
      · simp [queue]
      · simp [FabricCall.isIssue]
        omega
  | tick cycles =>
    obtain ⟨finished,front,_,counted⟩ := x.tick_completes cycles
    refine ⟨x.tick cycles,log,rfl,⟨?_,⟨done ++ finished,?_,?_⟩,stalled⟩,rfl,rfl⟩
    · refine Nat.le_trans ?_ room
      rw [front,List.length_append]
      exact Nat.le_add_left ..
    · rw [queue,List.append_assoc,← front]
    · rw [counted,completed,List.length_append,BitVec.ofNat_add]

theorem Conserves.run {x : Interconnect} (conserves : Conserves x ⟨[],0⟩) (burst : x.cfg.dataWidth*x.cfg.burstLen ≠ 0)
    (calls : List FabricCall) : ∃ y log, x.run calls = some (y,log) ∧ Conserves y log ∧ y.cfg = x.cfg ∧
      log.accepted.length+log.rejected = calls.countP (·.isIssue) := by
  induction calls using List.reverseRecOn with
  | nil => exact ⟨x,⟨[],0⟩,rfl,conserves,rfl,rfl⟩
  | append_singleton calls last ih =>
    obtain ⟨y,log,ran,kept,cfg,issues⟩ := ih
    obtain ⟨z,log',called,kept',cfg',more⟩ := kept.call (by rw [cfg]; exact burst) last
    refine ⟨z,log',?_,kept',cfg'.trans cfg,?_⟩
    · unfold Interconnect.run at ran ⊢
      rw [List.foldlM_append,ran]
      simpa using called
    · rw [more,issues,List.countP_append,List.countP_singleton]

theorem Conserves.exact {x : Interconnect} {log : FabricLog} (conserves : Conserves x log)
    (few : log.accepted.length+log.rejected < 2^64) :
    x.completed.toNat+x.pending.length = log.accepted.length ∧ x.stalled.toNat = log.rejected := by
  obtain ⟨_,⟨done,queue,completed⟩,stalled⟩ := conserves
  have total : log.accepted.length = done.length+x.pending.length := by rw [queue,List.length_append]
  refine ⟨?_,?_⟩
  · rw [completed,BitVec.toNat_ofNat,Nat.mod_eq_of_lt (by omega),total]
  · rw [stalled,BitVec.toNat_ofNat,Nat.mod_eq_of_lt (by omega)]

end Interconnect

-- A fabric after any calls since its reset, and the next call it gets.
structure FabricSound (x : Interconnect) (log : FabricLog) : Prop where
  bounded : x.pending.length ≤ x.cfg.maxOutstanding.toNat
  order : x.pending <:+ log.accepted
  accepted : x.completed+BitVec.ofNat 64 x.pending.length = BitVec.ofNat 64 log.accepted.length
  rejected : x.stalled = BitVec.ofNat 64 log.rejected
  issue : ∀ t curCycle, ∃ y taken, x.issue t curCycle = some (y,taken) ∧
    (taken = false ↔ x.pending.length = x.cfg.maxOutstanding.toNat) ∧
    (taken = false → y = {x with stalled := x.stalled+1}) ∧
    (taken = true → y = {x with pending := x.pending ++ [x.entry t curCycle],curCycle := curCycle})
  tick : ∀ cycles, ∃ done, x.pending = done ++ (x.tick cycles).pending ∧
    ∀ t ∈ done, ¬ (x.tick cycles).curCycle < t.completeCycle

theorem fabric_conserves_transactions (x : Interconnect) (burst : 1 ≤ x.cfg.dataWidth.toNat*x.cfg.burstLen.toNat)
    (narrow : x.cfg.dataWidth.toNat*x.cfg.burstLen.toNat < 2^32) (calls : List FabricCall) :
    ∃ y log, x.reset.run calls = some (y,log) ∧ y.cfg = x.cfg ∧ FabricSound y log ∧
      log.accepted.length+log.rejected = calls.countP (·.isIssue) ∧
      (calls.countP (·.isIssue) < 2^64 →
        log.accepted.length = y.completed.toNat+y.pending.length ∧ log.rejected = y.stalled.toNat) := by
  have divides : x.reset.cfg.dataWidth*x.reset.cfg.burstLen ≠ 0 := by
    intro zero
    have product := congrArg BitVec.toNat zero
    rw [BitVec.toNat_mul] at product
    change x.cfg.dataWidth.toNat*x.cfg.burstLen.toNat % 2^32 = 0 at product
    rw [Nat.mod_eq_of_lt narrow] at product
    omega
  have start : Interconnect.Conserves x.reset ⟨[],0⟩ := ⟨Nat.zero_le _,⟨[],rfl,rfl⟩,rfl⟩
  obtain ⟨y,log,ran,kept,cfg,issues⟩ := start.run divides calls
  refine ⟨y,log,ran,cfg,?_,issues,?_⟩
  · obtain ⟨done,queue,completed⟩ := kept.queue
    refine ⟨kept.room,⟨done,queue.symm⟩,?_,kept.stalled,?_,?_⟩
    · rw [completed,queue,List.length_append,BitVec.ofNat_add]
    · intro t curCycle
      obtain ⟨answer,issued,did⟩ := Interconnect.issue_issued (by rw [cfg]; exact divides) t curCycle
      have room := kept.room
      cases did with
      | rejected full => exact ⟨_,_,issued,⟨fun _ => Nat.le_antisymm room full,fun _ => rfl⟩,fun _ => rfl,fun taken => (by cases taken)⟩
      | accepted below =>
        refine ⟨_,_,issued,⟨fun refused => (by cases refused),?_⟩,fun refused => (by cases refused),fun _ => rfl⟩
        intro full
        omega
    · intro cycles
      obtain ⟨finished,front,due,_⟩ := y.tick_completes cycles
      exact ⟨finished,front,fun t member => BitVec.not_lt.mpr (due t member)⟩
  · intro few
    obtain ⟨accepted,rejected⟩ := kept.exact (by rw [issues]; exact few)
    exact ⟨accepted.symm,rejected.symm⟩

-- Room for one: the second request is turned away, and a tick that falls short of the
-- completion keeps the first.
def narrowFabric : Interconnect := .ofConfig ⟨.axi4,64,2,1,16⟩

theorem fabric_conserves_transactions_narrow : ∃ y log, narrowFabric.reset.run [.issue ⟨0,0,64,false,0,0,.axi4⟩ 10,.issue ⟨1,64,64,true,0,0,.axi4⟩ 11,
      .tick 2] = some (y,log) ∧ FabricSound y log ∧ log.accepted.length = 1 ∧ log.rejected = 1 ∧ y.pending.length = 1 := by
  obtain ⟨y,log,ran,_,sound,_,_⟩ := fabric_conserves_transactions narrowFabric (by decide) (by decide)
    [.issue ⟨0,0,64,false,0,0,.axi4⟩ 10,.issue ⟨1,64,64,true,0,0,.axi4⟩ 11,.tick 2]
  refine ⟨y,log,ran,sound,?_⟩
  cases ran
  exact ⟨rfl,rfl,rfl⟩

end Novium
