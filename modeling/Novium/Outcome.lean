namespace Effects

-- What a call of imperative code leaves behind. A raised error keeps whatever
-- was written before it was raised; after undefined behaviour no state is
-- claimed, only which rule of the language was broken.
inductive Outcome (ε υ σ α : Type) where
  | ok (value : α) (state : σ)
  | thrown (error : ε) (state : σ)
  | undefined (why : υ)

def Exec (ε υ σ α : Type) := σ → Outcome ε υ σ α

namespace Exec
variable {ε υ σ τ α β : Type}

def pure (a : α) : Exec ε υ σ α := fun s => .ok a s

def bind (x : Exec ε υ σ α) (f : α → Exec ε υ σ β) : Exec ε υ σ β := fun s =>
  match x s with
  | .ok a t => f a t
  | .thrown e t => .thrown e t
  | .undefined why => .undefined why

instance : Monad (Exec ε υ σ) where
  pure := pure
  bind := bind

def get : Exec ε υ σ σ := fun s => .ok s s
def modify (f : σ → σ) : Exec ε υ σ Unit := fun s => .ok () (f s)
def throw (e : ε) : Exec ε υ σ α := fun s => .thrown e s
def undefined (why : υ) : Exec ε υ σ α := fun _ => .undefined why

def ofOption (why : υ) : Option α → Exec ε υ σ α
  | some a => pure a
  | none => undefined why

-- Runs code that only knows a part of the state. Everything outside the part is
-- framed by construction, so no lemma about the code itself is needed for it.
def within (view : σ → τ) (put : τ → σ → σ) (x : Exec ε υ τ α) : Exec ε υ σ α := fun s =>
  match x (view s) with
  | .ok a t => .ok a (put t s)
  | .thrown e t => .thrown e (put t s)
  | .undefined why => .undefined why

end Exec

-- Weakest precondition of an outcome: a condition for each way to end.
def Outcome.Sat {ε υ σ α : Type} (Q : α → σ → Prop) (E : ε → σ → Prop) (U : υ → Prop) :
    Outcome ε υ σ α → Prop
  | .ok a t => Q a t
  | .thrown e t => E e t
  | .undefined why => U why

namespace Outcome
variable {ε υ σ α : Type} {Q : α → σ → Prop} {E : ε → σ → Prop} {U : υ → Prop}

@[simp] theorem sat_ok {a : α} {s : σ} : Sat Q E U (.ok a s) ↔ Q a s := Iff.rfl
@[simp] theorem sat_thrown {e : ε} {s : σ} : Sat Q E U (.thrown e s) ↔ E e s := Iff.rfl
@[simp] theorem sat_undefined {why : υ} : Sat Q E U (.undefined why) ↔ U why := Iff.rfl

instance [∀ a s, Decidable (Q a s)] [∀ e s, Decidable (E e s)] [∀ why, Decidable (U why)] : DecidablePred (Sat Q E U)
  | .ok a s => inferInstanceAs (Decidable (Q a s))
  | .thrown e s => inferInstanceAs (Decidable (E e s))
  | .undefined why => inferInstanceAs (Decidable (U why))

theorem Sat.mono {Q' : α → σ → Prop} {E' : ε → σ → Prop} {U' : υ → Prop} {o : Outcome ε υ σ α}
    (holds : Sat Q E U o) (value : ∀ a s, Q a s → Q' a s) (error : ∀ e s, E e s → E' e s)
    (stuck : ∀ why, U why → U' why) : Sat Q' E' U' o := by
  cases o with
  | ok a s => exact value a s holds
  | thrown e s => exact error e s holds
  | undefined why => exact stuck why holds

theorem Sat.returns {o : Outcome ε υ σ α} (holds : Sat Q (fun _ _ => False) (fun _ => False) o) : ∃ a s, o = .ok a s ∧ Q a s := by
  cases o with
  | ok a s => exact ⟨a,s,rfl,holds⟩
  | thrown e s => exact holds.elim
  | undefined why => exact holds.elim

end Outcome

namespace Exec
variable {ε υ σ τ α β : Type}

@[simp] theorem pure_apply (a : α) (s : σ) : (Pure.pure a : Exec ε υ σ α) s = .ok a s := rfl
@[simp] theorem get_apply (s : σ) : (get : Exec ε υ σ σ) s = .ok s s := rfl
@[simp] theorem modify_apply (f : σ → σ) (s : σ) : (modify f : Exec ε υ σ Unit) s = .ok () (f s) := rfl
@[simp] theorem throw_apply (e : ε) (s : σ) : (throw e : Exec ε υ σ α) s = .thrown e s := rfl
@[simp] theorem ofOption_some (why : υ) (a : α) (s : σ) :
    (ofOption why (some a) : Exec ε υ σ α) s = .ok a s := rfl
@[simp] theorem ofOption_none (why : υ) (s : σ) :
    (ofOption why none : Exec ε υ σ α) s = .undefined why := rfl

theorem bind_apply (x : Exec ε υ σ α) (f : α → Exec ε υ σ β) (s : σ) : (x >>= f) s =
    match x s with
    | .ok a t => f a t
    | .thrown e t => .thrown e t
    | .undefined why => .undefined why := rfl

theorem bind_ok {x : Exec ε υ σ α} {f : α → Exec ε υ σ β} {s t : σ} {a : α} (first : x s = .ok a t) :
    (x >>= f) s = f a t := by
  rw [bind_apply,first]

theorem bind_eq_ok {x : Exec ε υ σ α} {f : α → Exec ε υ σ β} {s u : σ} {b : β} :
    (x >>= f) s = .ok b u ↔ ∃ a t, x s = .ok a t ∧ f a t = .ok b u := by
  rw [bind_apply]
  constructor
  · intro returned
    cases first : x s with
    | ok a t =>
        rw [first] at returned
        exact ⟨a,t,rfl,returned⟩
    | thrown e t =>
        rw [first] at returned
        cases returned
    | undefined why =>
        rw [first] at returned
        cases returned
  · intro ⟨a,t,first,rest⟩
    rw [first]
    exact rest

theorem within_eq_ok {view : σ → τ} {put : τ → σ → σ} {x : Exec ε υ τ α} {s u : σ} {a : α} :
    within view put x s = .ok a u ↔ ∃ t, x (view s) = .ok a t ∧ u = put t s := by
  unfold within
  cases x (view s) with
  | ok b t =>
      constructor
      · intro returned
        cases returned
        exact ⟨t,rfl,rfl⟩
      · intro ⟨_,returned,put⟩
        cases returned
        rw [put]
  | thrown e t =>
      constructor
      · intro returned
        cases returned
      · intro ⟨_,returned,_⟩
        cases returned
  | undefined why =>
      constructor
      · intro returned
        cases returned
      · intro ⟨_,returned,_⟩
        cases returned

@[simp] theorem ite_apply (c : Prop) [Decidable c] (x y : Exec ε υ σ α) (s : σ) :
    (if c then x else y) s = if c then x s else y s := by
  split <;> rfl

@[simp] theorem sat_bind {x : Exec ε υ σ α} {f : α → Exec ε υ σ β} {s : σ} {Q : β → σ → Prop}
    {E : ε → σ → Prop} {U : υ → Prop} :
    Outcome.Sat Q E U ((x >>= f) s) ↔ Outcome.Sat (fun a t => Outcome.Sat Q E U (f a t)) E U (x s) := by
  rw [bind_apply]
  cases x s with
  | ok a u => exact Iff.rfl
  | thrown e u => exact Iff.rfl
  | undefined why => exact Iff.rfl

theorem sat_within {view : σ → τ} {put : τ → σ → σ} {x : Exec ε υ τ α} {s : σ} {Q : α → σ → Prop}
    {E : ε → σ → Prop} {U : υ → Prop} :
    Outcome.Sat Q E U (within view put x s) ↔
      Outcome.Sat (fun a t => Q a (put t s)) (fun e t => E e (put t s)) U (x (view s)) := by
  unfold within
  cases x (view s) with
  | ok a u => exact Iff.rfl
  | thrown e u => exact Iff.rfl
  | undefined why => exact Iff.rfl

end Exec
end Effects
