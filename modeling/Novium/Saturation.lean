import Mathlib.Data.List.Destutter

-- A counter that stops at 0 and at `top`, and predicts what it is at or above `half`.
namespace Saturation

def bump (top : Nat) (outcome : Bool) (c : Nat) : Nat :=
  if outcome then (if c < top then c+1 else top) else c-1

def predicts (half c : Nat) : Bool := decide (half ≤ c)

def wrong (half top : Nat) : Nat → List Bool → Nat
  | _,[] => 0
  | c,outcome :: rest => (if predicts half c ≠ outcome then 1 else 0)+wrong half top (bump top outcome c) rest

def stretches (outcomes : List Bool) : Nat := (outcomes.destutter (· ≠ ·)).length

-- How far a counter is from predicting an outcome.
def distance (half c : Nat) (outcome : Bool) : Nat := if outcome then half-c else c+1-half

variable {half top c : Nat}

theorem bump_le (outcome : Bool) (bounded : c ≤ top) : bump top outcome c ≤ top := by
  unfold bump
  split <;> [skip; omega]
  split <;> omega

theorem distance_bump (outcome : Bool) (positive : 0 < half) (below : half ≤ top) :
    (if predicts half c ≠ outcome then 1 else 0)+distance half (bump top outcome c) outcome ≤ distance half c outcome := by
  unfold predicts distance bump
  cases outcome with
  | true =>
    simp only [if_true,ne_eq,decide_eq_true_eq]
    split <;> split <;> omega
  | false =>
    simp only [Bool.false_eq_true,if_false,ne_eq,decide_eq_false_iff_not,not_not]
    split <;> omega

theorem distance_le (outcome : Bool) (bounded : c ≤ top) : distance half c outcome ≤ max half (top+1-half) := by
  unfold distance
  split <;> omega

theorem stretches_cons (first second : Bool) (rest : List Bool) :
    stretches (first :: second :: rest) = stretches (second :: rest)+(if first = second then 0 else 1) := by
  unfold stretches
  rw [List.destutter_cons_cons,List.destutter_cons']
  by_cases same : first = second
  · rw [if_neg (not_not.mpr same),if_pos same,same]
    rfl
  · rw [if_pos same,if_neg same]
    rfl

theorem wrong_le_distance (positive : 0 < half) (below : half ≤ top) (bounded : c ≤ top) (outcome : Bool) (rest : List Bool) :
    wrong half top c (outcome :: rest)+max half (top+1-half) ≤
      distance half c outcome+max half (top+1-half)*stretches (outcome :: rest) := by
  induction rest generalizing c outcome with
  | nil =>
    have nearer := distance_bump (c := c) outcome positive below
    have single : stretches [outcome] = 1 := rfl
    rw [single]
    unfold wrong wrong
    omega
  | cons next rest ih =>
    have nearer := distance_bump (c := c) outcome positive below
    have later := ih (bump_le outcome bounded) next
    have far : distance half (bump top outcome c) next ≤ _ := distance_le next (bump_le outcome bounded)
    rw [stretches_cons,Nat.mul_add]
    unfold wrong
    by_cases same : outcome = next
    · subst same
      rw [if_pos rfl]
      omega
    · rw [if_neg same]
      omega

-- Each stretch of equal outcomes costs at most the way from one end of the counter to the
-- middle.
theorem wrong_le (positive : 0 < half) (below : half ≤ top) (bounded : c ≤ top) (outcomes : List Bool) :
    wrong half top c outcomes ≤ max half (top+1-half)*stretches outcomes := by
  cases outcomes with
  | nil => exact Nat.zero_le _
  | cons outcome rest =>
    have all := wrong_le_distance positive below bounded outcome rest
    have far : distance half c outcome ≤ _ := distance_le outcome bounded
    omega

end Saturation
