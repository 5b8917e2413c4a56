import Mathlib.Data.List.ReduceOption

-- A row of places, each empty or holding one thing. Things go into the first empty place
-- and leave from the front, at most a given number at a time.
namespace Slots
variable {α : Type}

def place (x : α) : List (Option α) → Option (List (Option α))
  | [] => none
  | none :: rest => some (some x :: rest)
  | some y :: rest => (place x rest).map (some y :: ·)

def release (ready : α → Bool) : Nat → List (Option α) → List (Option α)
  | 0,slots => slots
  | _+1,[] => []
  | n+1,none :: rest => none :: release ready (n+1) rest
  | n+1,some y :: rest => if ready y then none :: release ready n rest else some y :: release ready (n+1) rest

def taken (before after : List (Option α)) : List α :=
  (before.zip after).filterMap fun slot => if slot.2.isNone then slot.1 else none

theorem taken_cons (before after : Option α) (rest rest' : List (Option α)) : taken (before :: rest) (after :: rest') =
    (if after.isNone then before else none).toList ++ taken rest rest' := by
  unfold taken
  rw [List.zip_cons_cons,List.filterMap_cons]
  cases (if after.isNone then before else none) <;> rfl

theorem taken_self (slots : List (Option α)) : taken slots slots = [] := by
  induction slots with
  | nil => rfl
  | cons slot rest ih =>
    rw [taken_cons,ih]
    cases slot <;> rfl

theorem release_zero (ready : α → Bool) (slots : List (Option α)) : release ready 0 slots = slots := by
  cases slots <;> rfl

theorem place_eq_none {x : α} {slots : List (Option α)} : place x slots = none ↔ slots.reduceOption.length = slots.length := by
  induction slots with
  | nil => simp [place]
  | cons slot rest ih =>
    cases slot with
    | none =>
      have fewer := List.reduceOption_length_le rest
      simp only [place,List.reduceOption_cons_of_none,List.length_cons,reduceCtorEq,false_iff]
      omega
    | some y =>
      simp only [place,Option.map_eq_none_iff,List.reduceOption_cons_of_some,List.length_cons,Nat.add_right_cancel_iff]
      exact ih

theorem place_contents {x : α} {slots filled : List (Option α)} (placed : place x slots = some filled) :
    filled.reduceOption.Perm (x :: slots.reduceOption) ∧ filled.length = slots.length := by
  induction slots generalizing filled with
  | nil => cases placed
  | cons slot rest ih =>
    cases slot with
    | none =>
      cases Option.some.inj placed
      exact ⟨.refl _,rfl⟩
    | some y =>
      obtain ⟨tail,found,rfl⟩ := Option.map_eq_some_iff.mp placed
      obtain ⟨perm,length⟩ := ih found
      exact ⟨(perm.cons y).trans (.swap x y _),congrArg Nat.succ length⟩

theorem release_taken (ready : α → Bool) (n : Nat) (slots : List (Option α)) :
    taken slots (release ready n slots) = (slots.reduceOption.filter ready).take n := by
  fun_induction release ready n slots with
  | case1 slots => exact taken_self slots
  | case2 n => rfl
  | case3 n rest ih =>
    rw [taken_cons,ih]
    rfl
  | case4 n y rest holds ih =>
    rw [taken_cons,ih,List.reduceOption_cons_of_some,List.filter_cons_of_pos holds]
    rfl
  | case5 n y rest waits ih =>
    rw [taken_cons,ih,List.reduceOption_cons_of_some,List.filter_cons_of_neg waits]
    rfl

theorem release_contents (ready : α → Bool) (n : Nat) (slots : List (Option α)) :
    (taken slots (release ready n slots) ++ (release ready n slots).reduceOption).Perm slots.reduceOption := by
  fun_induction release ready n slots with
  | case1 slots => rw [taken_self]; exact .refl _
  | case2 n => exact .refl _
  | case3 n rest ih => exact ih
  | case4 n y rest holds ih => exact ih.cons y
  | case5 n y rest waits ih => exact List.perm_middle.trans (ih.cons y)

theorem release_all {ready : α → Bool} (n : Nat) {slots : List (Option α)} (all : ∀ x ∈ slots.reduceOption, ready x = true) :
    (release ready n slots).reduceOption = slots.reduceOption.drop n := by
  fun_induction release ready n slots with
  | case1 slots => rfl
  | case2 n => rfl
  | case3 n rest ih => exact ih all
  | case4 n y rest holds ih => exact ih fun x member => all x (.tail _ member)
  | case5 n y rest waits ih => exact absurd (all y (.head _)) waits

end Slots
