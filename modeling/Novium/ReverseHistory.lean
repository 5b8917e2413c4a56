import Novium.BoundedStack
import Novium.Checkpoint

namespace Novium
open Storage BoundedStack

structure CheckpointManager where
  history : List Checkpoint
  maxHistory : Nat

inductive HistoryCall where
  | push (regs : RegisterFile) (csr : CSRFile) (prof : Profiler) (tick clock : DWord) (seq : Word)
  | pushFull (cp : Checkpoint) (mem : List Byte)
  | pop
  | clear

inductive ManagerCall where
  | on (call : HistoryCall)
  | setMaxHistory (n : Nat)

namespace CheckpointManager

def ofMax (maxHistory : Nat) : CheckpointManager := ⟨[],maxHistory⟩

-- The end of both pushes: in at the back, and one entry out at the front if over the
-- limit.
def pushed (m : CheckpointManager) (cp : Checkpoint) : CheckpointManager :=
  let history := m.history ++ [cp]
  if history.length > m.maxHistory then {m with history := history.tail} else {m with history := history}

def push (m : CheckpointManager) (regs : RegisterFile) (csr : CSRFile) (prof : Profiler) (tick clock : DWord) (seq : Word) :
    CheckpointManager :=
  m.pushed ⟨regs,csr,prof,tick,clock,seq,[],false⟩

def pushFull (m : CheckpointManager) (cp : Checkpoint) (mem : List Byte) : CheckpointManager :=
  m.pushed {cp with scratchSnapshot := mem,hasMemory := true}

-- `none` is the answer false, which leaves the manager alone.
def pop (m : CheckpointManager) : Option (Checkpoint × CheckpointManager) :=
  m.history.getLast?.map fun cp => (cp,{m with history := m.history.dropLast})

def clear (m : CheckpointManager) : CheckpointManager := {m with history := []}

def setMaxHistory (m : CheckpointManager) (n : Nat) : CheckpointManager := {m with maxHistory := n}

def call (m : CheckpointManager) : HistoryCall → CheckpointManager
  | .push regs csr prof tick clock seq => m.push regs csr prof tick clock seq
  | .pushFull cp mem => m.pushFull cp mem
  | .pop => (m.pop.map Prod.snd).getD m
  | .clear => m.clear

def managed (m : CheckpointManager) : ManagerCall → CheckpointManager
  | .on c => m.call c
  | .setMaxHistory n => m.setMaxHistory n

def run (m : CheckpointManager) (calls : List HistoryCall) : CheckpointManager := calls.foldl call m

end CheckpointManager

def HistoryCall.op : HistoryCall → Op Checkpoint
  | push regs csr prof tick clock seq => .push ⟨regs,csr,prof,tick,clock,seq,[],false⟩
  | pushFull cp mem => .push {cp with scratchSnapshot := mem,hasMemory := true}
  | pop => .pop
  | clear => .clear

-- The stack the calls would build with room for everything.
def unboundedHistory (calls : List HistoryCall) : List Checkpoint := (calls.map HistoryCall.op).foldl unbounded []

namespace CheckpointManager
variable (m : CheckpointManager)

theorem pushed_eq (cp : Checkpoint) : m.pushed cp = {m with history := BoundedStack.push m.maxHistory m.history cp} := by
  unfold pushed BoundedStack.push
  dsimp only
  split
  · rfl
  · rfl

theorem call_eq (c : HistoryCall) : m.call c = {m with history := bounded m.maxHistory m.history c.op} := by
  cases c with
  | push regs csr prof tick clock seq => exact m.pushed_eq _
  | pushFull cp mem => exact m.pushed_eq _
  | pop =>
    unfold call pop
    cases top : m.history.getLast? with
    | none =>
      rw [List.getLast?_eq_none_iff] at top
      obtain ⟨history,max⟩ := m
      cases top
      rfl
    | some cp => rfl
  | clear => rfl

theorem run_eq (calls : List HistoryCall) :
    m.run calls = {m with history := (calls.map HistoryCall.op).foldl (bounded m.maxHistory) m.history} := by
  induction calls generalizing m with
  | nil => rfl
  | cons c calls ih =>
    change (m.call c).run calls = _
    rw [ih,call_eq]
    rfl

end CheckpointManager

-- A manager with room for `maxHistory` after any calls, and the next one.
structure TopSegment (maxHistory : Nat) (calls : List HistoryCall) (m : CheckpointManager) : Prop where
  segment : m.history <:+ unboundedHistory calls
  length : m.history.length ≤ maxHistory
  missing : m.history ≠ unboundedHistory calls → ∃ before c after, calls = before ++ c :: after ∧ c.op.isPush = true ∧
    ((CheckpointManager.ofMax maxHistory).run before).history.length = maxHistory
  lost : ∀ c, ∃ lost lost', unboundedHistory calls = lost ++ m.history ∧
    unboundedHistory (calls ++ [c]) = lost' ++ (m.call c).history ∧
    (lost' <+: lost ∨ (c.op.isPush = true ∧ m.history.length = maxHistory))
  pop : ∀ cp m', m.pop = some (cp,m') → (unboundedHistory calls).getLast? = some cp ∧ m' = m.call .pop

theorem history_is_bounded_stack (maxHistory : Nat) (calls : List HistoryCall) :
    TopSegment maxHistory calls ((CheckpointManager.ofMax maxHistory).run calls) := by
  have start : ([] : List Checkpoint) = [] ++ [] := rfl
  obtain ⟨within,lost,segment⟩ := foldl_segment start (Nat.zero_le maxHistory) (calls.map HistoryCall.op)
  rw [CheckpointManager.run_eq]
  refine ⟨⟨lost,segment.symm⟩,within,?_,?_,?_⟩
  · intro missing
    obtain ⟨before,op,after,split,pushes,full⟩ := full_of_missing missing
    obtain ⟨before,rest,rfl,rfl,tail⟩ := List.map_eq_append_iff.mp split
    obtain ⟨c,after,rfl,rfl,_⟩ := List.map_eq_cons_iff.mp tail
    refine ⟨before,c,after,rfl,pushes,?_⟩
    rw [CheckpointManager.run_eq]
    exact full
  · intro c
    obtain ⟨lost',segment',less⟩ := bounded_segment segment within c.op
    refine ⟨lost,lost',segment,?_,less⟩
    unfold unboundedHistory
    rw [CheckpointManager.call_eq,List.map_append,List.foldl_append]
    exact segment'
  · intro cp m' popped
    refine ⟨?_,?_⟩
    · obtain ⟨top,found,taken⟩ := Option.map_eq_some_iff.mp popped
      cases taken
      exact top_of_segment segment found
    · unfold CheckpointManager.call
      rw [popped]
      rfl

def ManagerCall.buffered : ManagerCall → Call Checkpoint
  | on c => .op c.op
  | setMaxHistory n => .resize n

def CheckpointManager.buffer (m : CheckpointManager) : Buffer Checkpoint := ⟨m.history,m.maxHistory⟩

theorem CheckpointManager.managed_buffer (m : CheckpointManager) (c : ManagerCall) :
    (m.managed c).buffer = m.buffer.call c.buffered := by
  cases c with
  | on c =>
    change (m.call c).buffer = _
    rw [call_eq]
    rfl
  | setMaxHistory n => rfl

structure TraceEntry where
  cycle : DWord
  pc : Word
  instr : Instruction
  result : Word
  isBranchTaken : Bool
  memAddr : Word

structure InstructionTrace where
  entries : List TraceEntry
  max : Nat

inductive TraceCall where
  | push (e : TraceEntry)
  | setMax (n : Nat)
  | clear

namespace InstructionTrace

def initial : InstructionTrace := ⟨[],8192⟩

def push (t : InstructionTrace) (e : TraceEntry) : InstructionTrace :=
  let entries := t.entries ++ [e]
  if entries.length > t.max then {t with entries := entries.eraseIdx 0} else {t with entries := entries}

def setMax (t : InstructionTrace) (n : Nat) : InstructionTrace := {t with max := n}

def clear (t : InstructionTrace) : InstructionTrace := {t with entries := []}

def call (t : InstructionTrace) : TraceCall → InstructionTrace
  | .push e => t.push e
  | .setMax n => t.setMax n
  | .clear => t.clear

def buffer (t : InstructionTrace) : Buffer TraceEntry := ⟨t.entries,t.max⟩

end InstructionTrace

def TraceCall.buffered : TraceCall → Call TraceEntry
  | push e => .op (.push e)
  | setMax n => .resize n
  | clear => .op .clear

theorem InstructionTrace.call_buffer (t : InstructionTrace) (c : TraceCall) : (t.call c).buffer = t.buffer.call c.buffered := by
  cases c with
  | push e =>
    change (t.push e).buffer = ⟨BoundedStack.push t.max t.entries e,t.max⟩
    unfold push BoundedStack.push
    dsimp only
    split
    · rw [List.eraseIdx_zero]
      rfl
    · rfl
  | setMax n => rfl
  | clear => rfl

-- A push takes out one entry at most, so it keeps a limit it finds kept and cannot
-- restore one that was lowered past the entries held.
theorem history_limits_iff (maxHistory : Nat) (calls : List ManagerCall) (traced : List TraceCall) :
    (Honours CheckpointManager.buffer CheckpointManager.managed ManagerCall.buffered (.ofMax maxHistory) calls ↔
      Admits CheckpointManager.buffer CheckpointManager.managed ManagerCall.buffered (.ofMax maxHistory) calls) ∧
    (Spares CheckpointManager.buffer CheckpointManager.managed ManagerCall.buffered (.ofMax maxHistory) calls →
      Honours CheckpointManager.buffer CheckpointManager.managed ManagerCall.buffered (.ofMax maxHistory) calls) ∧
    (Honours InstructionTrace.buffer InstructionTrace.call TraceCall.buffered .initial traced ↔
      Admits InstructionTrace.buffer InstructionTrace.call TraceCall.buffered .initial traced) ∧
    (Spares InstructionTrace.buffer InstructionTrace.call TraceCall.buffered .initial traced →
      Honours InstructionTrace.buffer InstructionTrace.call TraceCall.buffered .initial traced) := by
  have managed := @honours_iff_admits _ _ _ _ _ _ CheckpointManager.managed_buffer
  have recorded := @honours_iff_admits _ _ _ _ _ _ InstructionTrace.call_buffer
  refine ⟨managed,?_,recorded,?_⟩
  · intro spares
    exact managed.mpr (admits_of_spares CheckpointManager.managed_buffer (Nat.zero_le _) spares)
  · intro spares
    exact recorded.mpr (admits_of_spares InstructionTrace.call_buffer (Nat.zero_le _) spares)

-- Three checkpoints, then room for one: the next push still leaves three.
theorem lowered_limit_exceeded : ¬ ∀ (maxHistory : Nat) (calls : List ManagerCall),
    Honours CheckpointManager.buffer CheckpointManager.managed ManagerCall.buffered (.ofMax maxHistory) calls := by
  intro honours
  obtain ⟨_,_,_,_,last,_⟩ := honours 3 [.on (.pushFull .initial []),.on (.pushFull .initial []),.on (.pushFull .initial []),
    .setMaxHistory 1,.on (.pushFull .initial [])]
  have kept : 3 ≤ 1 := last rfl
  exact absurd kept (by decide)

end Novium
