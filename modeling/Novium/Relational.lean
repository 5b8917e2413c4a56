import Novium.Outcome

namespace Effects

-- Two executions that end alike: with related values and states, or with the same
-- error. Undefined behaviour of a kind that is excused on one side claims nothing.
inductive Outcome.Agree {ε υ σ τ α β : Type} (excused : υ → Prop) (V : α → β → Prop) (R : σ → τ → Prop) :
    Outcome ε υ σ α → Outcome ε υ τ β → Prop where
  | ok {a : α} {b : β} {s : σ} {t : τ} : V a b → R s t → Agree excused V R (.ok a s) (.ok b t)
  | thrown {e : ε} {s : σ} {t : τ} : R s t → Agree excused V R (.thrown e s) (.thrown e t)
  | undefined {why : υ} : Agree excused V R (.undefined why) (.undefined why)
  | left {why : υ} {o : Outcome ε υ τ β} : excused why → Agree excused V R (.undefined why) o
  | right {why : υ} {o : Outcome ε υ σ α} : excused why → Agree excused V R o (.undefined why)

namespace Exec
variable {ε υ σ α : Type}

def attempt (x : Exec ε υ σ α) : Exec ε υ σ (Option ε) := fun s =>
  match x s with
  | .ok _ t => .ok none t
  | .thrown e t => .ok (some e) t
  | .undefined why => .undefined why

-- The answers of `n` calls in a row, the caller catching every error.
def calls (x : Exec ε υ σ α) : Nat → Exec ε υ σ (List (Option ε))
  | 0 => return []
  | n+1 => do
    let first ← x.attempt
    let rest ← calls x n
    return first :: rest

end Exec

namespace Outcome
variable {ε υ σ τ ρ α β γ δ : Type} {excused : υ → Prop} {V : α → β → Prop} {R : σ → τ → Prop}

theorem Agree.mono {excused' : υ → Prop} {V' : α → β → Prop} {R' : σ → τ → Prop} {o : Outcome ε υ σ α}
    {p : Outcome ε υ τ β} (agree : Agree excused V R o p) (excuse : ∀ why, excused why → excused' why)
    (value : ∀ a b, V a b → V' a b) (state : ∀ s t, R s t → R' s t) : Agree excused' V' R' o p := by
  cases agree with
  | ok values states => exact .ok (value _ _ values) (state _ _ states)
  | thrown states => exact .thrown (state _ _ states)
  | undefined => exact .undefined
  | left excusable => exact .left (excuse _ excusable)
  | right excusable => exact .right (excuse _ excusable)

theorem Agree.and {P : σ → Prop} {o : Outcome ε υ σ α} {p : Outcome ε υ τ β} (agree : Agree excused V R o p)
    (holds : o.Sat (fun _ s => P s) (fun _ s => P s) (fun _ => True)) : Agree excused V (fun s t => R s t ∧ P s) o p := by
  cases agree with
  | ok values states => exact .ok values ⟨states,holds⟩
  | thrown states => exact .thrown ⟨states,holds⟩
  | undefined => exact .undefined
  | left excusable => exact .left excusable
  | right excusable => exact .right excusable

-- The rest may rely on what the first part of the left run really returned.
theorem Agree.bind_ran {W : γ → δ → Prop} {x : Exec ε υ σ α} {y : Exec ε υ τ β} {f : α → Exec ε υ σ γ}
    {g : β → Exec ε υ τ δ} {s : σ} {t : τ} (first : Agree excused V R (x s) (y t))
    (rest : ∀ a b s' t', x s = .ok a s' → V a b → R s' t' → Agree excused W R (f a s') (g b t')) :
    Agree excused W R ((x >>= f) s) ((y >>= g) t) := by
  rw [Exec.bind_apply,Exec.bind_apply]
  generalize x s = o at first rest ⊢
  generalize y t = p at first ⊢
  cases first with
  | ok values states => exact rest _ _ _ _ rfl values states
  | thrown states => exact .thrown states
  | undefined => exact .undefined
  | left excusable => exact .left excusable
  | right excusable => exact .right excusable

theorem Agree.bind {W : γ → δ → Prop} {x : Exec ε υ σ α} {y : Exec ε υ τ β} {f : α → Exec ε υ σ γ}
    {g : β → Exec ε υ τ δ} {s : σ} {t : τ} (first : Agree excused V R (x s) (y t))
    (rest : ∀ a b s' t', V a b → R s' t' → Agree excused W R (f a s') (g b t')) :
    Agree excused W R ((x >>= f) s) ((y >>= g) t) :=
  first.bind_ran fun a b s' t' _ => rest a b s' t'

theorem Agree.refl (o : Outcome ε υ σ α) : Agree excused Eq Eq o o := by
  cases o with
  | ok a s => exact .ok rfl rfl
  | thrown e s => exact .thrown rfl
  | undefined why => exact .undefined

theorem Agree.within {view : σ → ρ} {view' : τ → ρ} {put : ρ → σ → σ} {put' : ρ → τ → τ} {x : Exec ε υ ρ α}
    {y : Exec ε υ ρ β} {s : σ} {t : τ} (inner : Agree excused V Eq (x (view s)) (y (view' t)))
    (states : ∀ r, R (put r s) (put' r t)) : Agree excused V R (Exec.within view put x s) (Exec.within view' put' y t) := by
  unfold Exec.within
  generalize x (view s) = o at inner ⊢
  generalize y (view' t) = p at inner ⊢
  cases inner with
  | ok values same =>
    subst same
    exact .ok values (states _)
  | thrown same =>
    subst same
    exact .thrown (states _)
  | undefined => exact .undefined
  | left excusable => exact .left excusable
  | right excusable => exact .right excusable

theorem Agree.attempt {x : Exec ε υ σ α} {y : Exec ε υ τ β} {s : σ} {t : τ} (agree : Agree excused V R (x s) (y t)) :
    Agree excused Eq R (x.attempt s) (y.attempt t) := by
  unfold Exec.attempt
  generalize x s = o at agree ⊢
  generalize y t = p at agree ⊢
  cases agree with
  | ok values states => exact .ok rfl states
  | thrown states => exact .ok rfl states
  | undefined => exact .undefined
  | left excusable => exact .left excusable
  | right excusable => exact .right excusable

-- The run rule: a relation that every call keeps holds after any number of calls,
-- and the calls that throw are the same.
theorem Agree.calls {x : Exec ε υ σ α} {y : Exec ε υ τ β}
    (call : ∀ s t, R s t → Agree excused V R (x s) (y t)) {s : σ} {t : τ} (start : R s t) (n : Nat) :
    Agree excused Eq R (x.calls n s) (y.calls n t) := by
  induction n generalizing s t with
  | zero => exact .ok rfl start
  | succ n ih =>
    apply (call s t start).attempt.bind
    intro a b s t answer states
    apply (ih states).bind
    intro as bs s t answers states
    exact .ok (by rw [answer,answers]) states

end Outcome
end Effects
