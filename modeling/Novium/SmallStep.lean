import Mathlib.Computability.StateTransition

namespace SmallStep
open StateTransition
variable {σ : Type} {next : σ → Option σ}

-- Executable companion of `Reaches`: the configuration after exactly `n` steps.
def after (next : σ → Option σ) : Nat → σ → Option σ
  | 0,c => some c
  | n+1,c => (next c).bind (after next n)

theorem reaches_of_after {n : Nat} {c d : σ} (ran : after next n c = some d) : Reaches next c d := by
  induction n generalizing c with
  | zero =>
    cases Option.some.inj ran
    exact .refl
  | succ n ih =>
    obtain ⟨middle,step,rest⟩ := Option.bind_eq_some_iff.mp ran
    exact .head step (ih rest)

-- A loop inside another system: what the loop reaches, the system reaches.
theorem reaches_within {τ : Type} {inner : τ → Option τ} {f : τ → σ}
    (inside : ∀ c d, inner c = some d → next (f c) = some (f d)) {c d : τ} (ran : Reaches inner c d) :
    Reaches next (f c) (f d) := by
  induction ran with
  | refl => exact .refl
  | tail _ step ih => exact ih.tail (inside _ _ step)

theorem after_succ {n : Nat} {c e : σ} : after next (n+1) c = some e ↔ ∃ d, after next n c = some d ∧ next d = some e := by
  induction n generalizing c with
  | zero =>
    unfold after after
    simp
  | succ n ih =>
    constructor
    · intro ran
      obtain ⟨middle,step,rest⟩ := Option.bind_eq_some_iff.mp ran
      obtain ⟨d,early,last⟩ := ih.mp rest
      exact ⟨d,Option.bind_eq_some_iff.mpr ⟨middle,step,early⟩,last⟩
    · rintro ⟨d,early,last⟩
      obtain ⟨middle,step,rest⟩ := Option.bind_eq_some_iff.mp early
      exact Option.bind_eq_some_iff.mpr ⟨middle,step,ih.mpr ⟨d,rest,last⟩⟩

def total (next : σ → Option σ) (cost : σ → Nat) : Nat → σ → Nat
  | 0,_ => 0
  | n+1,c => cost c+((next c).map (total next cost n)).getD 0

section Costs
variable {cost : σ → Nat} {n : Nat} {c d : σ}

theorem total_succ (ran : after next n c = some d) : total next cost (n+1) c = total next cost n c+cost d := by
  induction n generalizing c with
  | zero =>
    cases Option.some.inj ran
    cases step : next d with
    | none => simp [total,step]
    | some e => simp [total,step]
  | succ n ih =>
    obtain ⟨middle,step,rest⟩ := Option.bind_eq_some_iff.mp ran
    have later := ih rest
    rw [total,step,Option.map_some,Option.getD_some,later,← Nat.add_assoc]
    simp only [total,step,Option.map_some,Option.getD_some]

theorem total_mono {k : Nat} (ran : after next n c = some d) (less : k ≤ n) : total next cost k c ≤ total next cost n c := by
  induction n generalizing d with
  | zero => rw [Nat.le_zero.mp less]
  | succ n ih =>
    obtain ⟨middle,early,_⟩ := after_succ.mp ran
    by_cases whole : k = n+1
    · rw [whole]
    · have earlier := ih early (by omega)
      rw [total_succ early]
      omega

theorem total_exact (each : ∀ k e, k < n → after next k c = some e → cost e = 1) (ran : after next n c = some d) :
    total next cost n c = n := by
  induction n generalizing d with
  | zero => rfl
  | succ n ih =>
    obtain ⟨middle,early,_⟩ := after_succ.mp ran
    rw [total_succ early,ih (fun k e less => each k e (by omega)) early,each n middle (Nat.lt_succ_self n) early]

theorem le_total (works : ∀ k e, k < n → after next k c = some e → 0 < cost e) (ran : after next n c = some d) :
    n ≤ total next cost n c := by
  induction n generalizing d with
  | zero => exact Nat.zero_le _
  | succ n ih =>
    obtain ⟨middle,early,_⟩ := after_succ.mp ran
    have least := ih (fun k e less => works k e (by omega)) early
    have last := works n middle (Nat.lt_succ_self n) early
    rw [total_succ early]
    omega

-- Steps that each cost something and together no more than their number cost one each.
theorem one_each (works : ∀ k e, k < n → after next k c = some e → 0 < cost e) (ran : after next n c = some d)
    (most : total next cost n c ≤ n) : ∀ k e, k < n → after next k c = some e → cost e = 1 := by
  induction n generalizing d with
  | zero => exact fun k e less => absurd less (Nat.not_lt_zero k)
  | succ n ih =>
    obtain ⟨middle,early,_⟩ := after_succ.mp ran
    have earlier : ∀ k e, k < n → after next k c = some e → 0 < cost e := fun k e less => works k e (by omega)
    have least := le_total earlier early
    have last := works n middle (Nat.lt_succ_self n) early
    rw [total_succ early] at most
    intro k e less here
    by_cases final : k = n
    · subst final
      cases early.symm.trans here
      omega
    · exact ih earlier early (by omega) k e (by omega) here

end Costs

theorem reaches_of_any {n : Nat} {c : σ} {found : σ → Bool} (ran : (after next n c).any found = true) :
    ∃ d, Reaches next c d ∧ found d = true := by
  obtain ⟨d,reached,holds⟩ := (Option.any_eq_true _ _).mp ran
  exact ⟨d,reaches_of_after reached,holds⟩

-- Two systems whose steps keep a relation are related after any number of steps,
-- or have both stopped by then.
theorem after_rel {τ : Type} {next' : τ → Option τ} {A : σ → τ → Prop}
    (step : ∀ c d, A c d → Option.Rel A (next c) (next' d)) {c : σ} {d : τ} (start : A c d) (n : Nat) :
    Option.Rel A (after next n c) (after next' n d) := by
  induction n generalizing c d with
  | zero => exact .some start
  | succ n ih =>
    have first := step c d start
    unfold after
    generalize next c = o at first ⊢
    generalize next' d = p at first ⊢
    cases first with
    | none => exact .none
    | some related => exact ih related

theorem rel_mono {τ : Type} {A B : σ → τ → Prop} {o : Option σ} {p : Option τ} (related : Option.Rel A o p)
    (weaker : ∀ c d, A c d → B c d) : Option.Rel B o p := by
  cases related with
  | some related => exact .some (weaker _ _ related)
  | none => exact .none

def Always (next : σ → Option σ) (good : σ → Prop) (c : σ) : Prop := ∀ d, Reaches next c d → good d

theorem Always.now {good : σ → Prop} {c : σ} (always : Always next good c) : good c := always c .refl

theorem Always.step {good : σ → Prop} {c d : σ} (always : Always next good c) (step : next c = some d) :
    Always next good d := fun _ path => always _ (.head step path)

-- Executable companion of `Always` for runs that end within `n` steps.
def settles (next : σ → Option σ) (good : σ → Prop) [DecidablePred good] : Nat → σ → Bool
  | 0,_ => false
  | n+1,c => decide (good c) && match next c with
    | none => true
    | some d => settles next good n d

theorem always_of_settles {good : σ → Prop} [DecidablePred good] {n : Nat} {c : σ}
    (settled : settles next good n c = true) : Always next good c := by
  induction n generalizing c with
  | zero => cases settled
  | succ n ih =>
    simp only [settles,Bool.and_eq_true,decide_eq_true_eq] at settled
    obtain ⟨here,rest⟩ := settled
    intro d path
    rcases Relation.ReflTransGen.cases_head path with rfl | ⟨middle,step,path⟩
    · exact here
    · rw [show next c = some middle from step] at rest
      exact ih rest d path

end SmallStep
