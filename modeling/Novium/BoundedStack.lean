import Mathlib.Data.List.Basic
import Mathlib.Data.List.Induction

-- A stack with room for so many entries, kept in a list from its oldest entry to its
-- newest, beside the stack that would keep them all.
namespace BoundedStack
variable {α : Type}

inductive Op (α : Type) where
  | push (a : α)
  | pop
  | clear

def Op.isPush : Op α → Bool
  | push _ => true
  | _ => false

-- The newest entry goes in first; then one entry leaves at the other end if there are
-- now too many.
def push (limit : Nat) (held : List α) (a : α) : List α :=
  if limit < (held ++ [a]).length then (held ++ [a]).tail else held ++ [a]

def bounded (limit : Nat) (held : List α) : Op α → List α
  | .push a => push limit held a
  | .pop => held.dropLast
  | .clear => []

def unbounded (stack : List α) : Op α → List α
  | .push a => stack ++ [a]
  | .pop => stack.dropLast
  | .clear => []

theorem push_within_iff (limit : Nat) (held : List α) (a : α) : (push limit held a).length ≤ limit ↔ held.length ≤ limit := by
  unfold push
  split
  · rw [List.length_tail,List.length_append,List.length_singleton,Nat.add_sub_cancel]
  · rename_i fits
    rw [Nat.not_lt] at fits
    have longer := fits
    rw [List.length_append,List.length_singleton] at longer
    exact ⟨fun _ => by omega,fun _ => fits⟩

section Segment
variable {limit : Nat} {held stack lost : List α}

theorem bounded_within (within : held.length ≤ limit) (op : Op α) : (bounded limit held op).length ≤ limit := by
  cases op with
  | push a => exact (push_within_iff limit held a).mpr within
  | pop =>
    unfold bounded
    rw [List.length_dropLast]
    omega
  | clear => exact Nat.zero_le _

-- What the bounded stack has lost of the other one; only a push that finds it full
-- loses more.
theorem bounded_segment (segment : stack = lost ++ held) (within : held.length ≤ limit) (op : Op α) :
    ∃ lost', unbounded stack op = lost' ++ bounded limit held op ∧
      (lost' <+: lost ∨ (op.isPush = true ∧ held.length = limit)) := by
  subst segment
  cases op with
  | push a =>
    dsimp only [unbounded,bounded,push]
    by_cases full : limit < (held ++ [a]).length
    · rw [if_pos full]
      rw [List.length_append,List.length_singleton] at full
      refine ⟨lost ++ (held ++ [a]).take 1,?_,.inr ⟨rfl,by omega⟩⟩
      rw [List.append_assoc,List.append_assoc,← List.drop_one,List.take_append_drop]
    · rw [if_neg full]
      exact ⟨lost,List.append_assoc ..,.inl (List.prefix_refl _)⟩
  | pop =>
    unfold unbounded bounded
    by_cases empty : held = []
    · subst empty
      exact ⟨lost.dropLast,by simp,.inl (List.dropLast_prefix lost)⟩
    · exact ⟨lost,List.dropLast_append_of_ne_nil empty,.inl (List.prefix_refl _)⟩
  | clear => exact ⟨[],rfl,.inl List.nil_prefix⟩

theorem foldl_segment (segment : stack = lost ++ held) (within : held.length ≤ limit) (ops : List (Op α)) :
    (ops.foldl (bounded limit) held).length ≤ limit ∧ ∃ lost', ops.foldl unbounded stack = lost' ++ ops.foldl (bounded limit) held := by
  induction ops generalizing held stack lost with
  | nil => exact ⟨within,lost,segment⟩
  | cons op ops ih =>
    obtain ⟨lost',segment',_⟩ := bounded_segment segment within op
    exact ih segment' (bounded_within within op)

theorem full_of_missing {ops : List (Op α)} (missing : ops.foldl (bounded limit) [] ≠ ops.foldl unbounded []) :
    ∃ before op after, ops = before ++ op :: after ∧ op.isPush = true ∧ (before.foldl (bounded limit) []).length = limit := by
  induction ops using List.reverseRecOn with
  | nil => exact absurd rfl missing
  | append_singleton ops last ih =>
    by_cases same : ops.foldl (bounded limit) [] = ops.foldl unbounded []
    · have within := (foldl_segment (List.append_nil []).symm (Nat.zero_le limit) ops).1
      obtain ⟨lost',segment,shorter | full⟩ := bounded_segment (List.nil_append _).symm within last
      · rw [List.prefix_nil.mp shorter,List.nil_append,same] at segment
        rw [List.foldl_append,List.foldl_append,same] at missing
        exact absurd segment.symm missing
      · exact ⟨ops,last,[],rfl,full⟩
    · obtain ⟨before,op,after,rfl,full⟩ := ih same
      exact ⟨before,op,after ++ [last],by simp,full⟩

theorem top_of_segment {a : α} (segment : stack = lost ++ held) (top : held.getLast? = some a) : stack.getLast? = some a := by
  rw [segment,List.getLast?_append,top]
  rfl

end Segment

-- The same with a limit that can change.
structure Buffer (α : Type) where
  held : List α
  limit : Nat

inductive Call (α : Type) where
  | op (op : Op α)
  | resize (limit : Nat)

def Call.isPush : Call α → Bool
  | op o => o.isPush
  | resize _ => false

namespace Buffer

def call (b : Buffer α) : Call α → Buffer α
  | .op o => {b with held := bounded b.limit b.held o}
  | .resize limit => {b with limit := limit}

def Within (b : Buffer α) : Prop := b.held.length ≤ b.limit

theorem call_within_iff {b : Buffer α} {c : Call α} (pushes : c.isPush = true) : (b.call c).Within ↔ b.Within := by
  cases c with
  | resize limit => cases pushes
  | op o =>
    cases o with
    | push a => exact push_within_iff b.limit b.held a
    | pop => cases pushes
    | clear => cases pushes

theorem Within.call {b : Buffer α} {c : Call α} (within : b.Within) (spares : ∀ limit, c = .resize limit → b.held.length ≤ limit) :
    (b.call c).Within := by
  cases c with
  | op o => exact bounded_within within o
  | resize limit => exact spares limit rfl

end Buffer

section Viewed
variable {σ κ : Type} (view : σ → Buffer α) (step : σ → κ → σ) (call : κ → Call α)

-- Over the runs of a system that keeps a buffer: every push leaves it within its limit.
def Honours (s : σ) : List κ → Prop
  | [] => True
  | c :: rest => ((call c).isPush = true → (view (step s c)).Within) ∧ Honours (step s c) rest

def Admits (s : σ) : List κ → Prop
  | [] => True
  | c :: rest => ((call c).isPush = true → (view s).Within) ∧ Admits (step s c) rest

def Spares (s : σ) : List κ → Prop
  | [] => True
  | c :: rest => (∀ limit, call c = .resize limit → (view s).held.length ≤ limit) ∧ Spares (step s c) rest

variable {view step call} (commutes : ∀ s c, view (step s c) = (view s).call (call c)) {s : σ} {calls : List κ}
include commutes

theorem honours_iff_admits : Honours view step call s calls ↔ Admits view step call s calls := by
  induction calls generalizing s with
  | nil => exact Iff.rfl
  | cons c rest ih =>
    refine and_congr (forall_congr' fun pushes => ?_) ih
    rw [commutes]
    exact Buffer.call_within_iff pushes

theorem admits_of_spares (within : (view s).Within) (spares : Spares view step call s calls) : Admits view step call s calls := by
  induction calls generalizing s with
  | nil => trivial
  | cons c rest ih =>
    refine ⟨fun _ => within,ih ?_ spares.2⟩
    rw [commutes]
    exact within.call spares.1

end Viewed
end BoundedStack
