import Mathlib.Data.Set.Card

namespace Recency
variable {ι α : Type}

-- When each key was last used since the last clearing. Time starts at one, so zero
-- stands for never.
structure Timeline (α : Type) where
  now : Nat
  last : α → Nat
  past : ∀ a, last a ≤ now
  apart : ∀ a b, 0 < last a → last a = last b → a = b

namespace Timeline

def clear (t : Timeline α) : Timeline α :=
  ⟨t.now,fun _ => 0,fun _ => Nat.zero_le _,fun _ _ used => absurd used (Nat.lt_irrefl 0)⟩

def start : Timeline α :=
  ⟨0,fun _ => 0,fun _ => Nat.le_refl 0,fun _ _ used => absurd used (Nat.lt_irrefl 0)⟩

theorem use_past [DecidableEq α] (t : Timeline α) (a b : α) : Function.update t.last a (t.now+1) b ≤ t.now+1 := by
  by_cases same : b = a
  · rw [same,Function.update_self]
  · rw [Function.update_of_ne same]
    exact Nat.le_succ_of_le (t.past b)

theorem use_apart [DecidableEq α] (t : Timeline α) (a b c : α) (used : 0 < Function.update t.last a (t.now+1) b)
    (equal : Function.update t.last a (t.now+1) b = Function.update t.last a (t.now+1) c) : b = c := by
  have early := t.past
  by_cases left : b = a
  · by_cases right : c = a
    · rw [left,right]
    · rw [left,Function.update_self,Function.update_of_ne right] at equal
      have := early c
      omega
  · rw [Function.update_of_ne left] at used equal
    by_cases right : c = a
    · rw [right,Function.update_self] at equal
      have := early b
      omega
    · rw [Function.update_of_ne right] at equal
      exact t.apart b c used equal

def use [DecidableEq α] (t : Timeline α) (a : α) : Timeline α :=
  ⟨t.now+1,Function.update t.last a (t.now+1),t.use_past a,t.use_apart a⟩

def newer (t : Timeline α) (a : α) : Set α := {b | t.last a < t.last b}

@[simp] theorem use_last_self [DecidableEq α] (t : Timeline α) (a : α) : (t.use a).last a = t.now+1 := Function.update_self ..
@[simp] theorem use_last_of_ne [DecidableEq α] (t : Timeline α) {a b : α} (other : b ≠ a) : (t.use a).last b = t.last b :=
  Function.update_of_ne other ..

end Timeline

-- The keys used since the last clearing, latest first, spell out the timeline.
structure Spells (seen : List α) [DecidableEq α] (t : Timeline α) : Prop where
  used : ∀ a, a ∈ seen ↔ 0 < t.last a
  newer : ∀ a ∈ seen, ∀ b, b ∈ t.newer a ↔ b ∈ seen.takeWhile (· ≠ a)

theorem Spells.clear [DecidableEq α] (t : Timeline α) : Spells [] t.clear :=
  ⟨fun _ => by simp [Timeline.clear],fun _ listed => by cases listed⟩

theorem Spells.start [DecidableEq α] : Spells ([] : List α) .start :=
  ⟨fun _ => by simp [Timeline.start],fun _ listed => by cases listed⟩

theorem Spells.use [DecidableEq α] {seen : List α} {t : Timeline α} (spells : Spells seen t) (a : α) :
    Spells (a :: seen) (t.use a) := by
  refine ⟨?_,?_⟩
  · intro b
    by_cases same : b = a
    · rw [same,t.use_last_self]
      exact ⟨fun _ => Nat.succ_pos _,fun _ => List.mem_cons_self⟩
    · rw [t.use_last_of_ne same,List.mem_cons,← spells.used b]
      exact ⟨fun listed => listed.resolve_left same,Or.inr⟩
  · intro b listed c
    change (t.use a).last b < (t.use a).last c ↔ _
    by_cases same : b = a
    · have latest : ¬ t.now+1 < (t.use a).last c := Nat.not_lt.mpr ((t.use a).past c)
      rw [same,t.use_last_self,List.takeWhile_cons_of_neg (by simp)]
      exact ⟨fun after => absurd after latest,fun listed => by cases listed⟩
    · have earlier : b ∈ seen := (List.mem_cons.mp listed).resolve_left same
      have ahead : (a :: seen).takeWhile (· ≠ b) = a :: seen.takeWhile (· ≠ b) :=
        List.takeWhile_cons_of_pos (by simpa using Ne.symm same)
      rw [ahead,List.mem_cons,t.use_last_of_ne same]
      by_cases latest : c = a
      · rw [latest,t.use_last_self]
        exact ⟨fun _ => .inl rfl,fun _ => Nat.lt_succ_of_le (t.past b)⟩
      · rw [t.use_last_of_ne latest,← spells.newer b earlier c]
        exact ⟨.inr,fun either => either.resolve_left latest⟩

-- A place that can hold a key, with the time it was last written.
structure Slot (α : Type) where
  key : Option α
  stamp : Nat

-- The slots of one set hold its most recently used keys: a key that is gone is older
-- than everything held, and an empty slot is older than every key.
structure Tracks (t : Timeline α) (mine : α → Prop) (slots : ι → Slot α) : Prop where
  past : ∀ i, (slots i).stamp ≤ t.now
  held : ∀ i a, (slots i).key = some a → mine a ∧ 0 < t.last a ∧ (slots i).stamp = t.last a
  single : ∀ i j a, (slots i).key = some a → (slots j).key = some a → i = j
  spare : ∀ i, (slots i).key = none → ∀ a, mine a → 0 < t.last a → (slots i).stamp < t.last a
  gone : ∀ a, mine a → 0 < t.last a → (∀ i, (slots i).key ≠ some a) →
    ∀ i, (slots i).key ≠ none ∧ t.last a < (slots i).stamp

variable {t : Timeline α} {mine : α → Prop} {slots : ι → Slot α}

theorem Tracks.start (mine : α → Prop) {slots : ι → Slot α} (empty : ∀ i, slots i = ⟨none,0⟩) : Tracks .start mine slots where
  past i := by rw [empty i]; exact Nat.le_refl 0
  held i a here := by rw [empty i] at here; cases here
  single i _ a here := by rw [empty i] at here; cases here
  spare _ _ _ _ used := absurd used (Nat.lt_irrefl 0)
  gone _ _ used := absurd used (Nat.lt_irrefl 0)

theorem Tracks.clear (tracks : Tracks t mine slots) {slots' : ι → Slot α}
    (emptied : ∀ i, slots' i = {slots i with key := none}) : Tracks t.clear mine slots' where
  past i := by rw [emptied i]; exact tracks.past i
  held i a here := by rw [emptied i] at here; cases here
  single i _ a here := by rw [emptied i] at here; cases here
  spare _ _ _ _ used := absurd used (Nat.lt_irrefl 0)
  gone _ _ used := absurd used (Nat.lt_irrefl 0)

-- The slot a use may write: the one that holds the key, or the oldest when none does.
def Fair (slots : ι → Slot α) (a : α) (i : ι) : Prop :=
  (slots i).key = some a ∨ (∀ j, (slots j).key ≠ some a) ∧ ∀ j, (slots i).stamp ≤ (slots j).stamp

theorem Tracks.evicted (tracks : Tracks t mine slots) {i : ι} {b : α} (here : (slots i).key = some b)
    (oldest : ∀ j, (slots i).stamp ≤ (slots j).stamp) {j : ι} (other : j ≠ i) :
    (slots j).key ≠ none ∧ t.last b < (slots j).stamp := by
  obtain ⟨inside,used,stamp⟩ := tracks.held i b here
  have least := oldest j
  rw [stamp] at least
  cases key : (slots j).key with
  | none =>
    have older := tracks.spare j key b inside used
    omega
  | some c =>
    obtain ⟨_,_,stamp'⟩ := tracks.held j c key
    rw [stamp'] at least ⊢
    refine ⟨fun impossible => (by cases impossible),?_⟩
    apply Nat.lt_of_le_of_ne least
    intro equal
    have same := t.apart b c used equal
    rw [← same] at key
    exact other (tracks.single j i b key here)

theorem Tracks.only_here (tracks : Tracks t mine slots) {a : α} {i : ι} (fair : Fair slots a i) {j : ι} (other : j ≠ i) :
    (slots j).key ≠ some a := by
  intro here
  rcases fair with hit | ⟨absent,_⟩
  · exact other (tracks.single j i a here hit)
  · exact absent j here

theorem Tracks.use_single [DecidableEq ι] (tracks : Tracks t mine slots) {a : α} {i : ι} (fair : Fair slots a i) (stamp : Nat)
    {j k : ι} {b : α} (left : (Function.update slots i ⟨some a,stamp⟩ j).key = some b)
    (right : (Function.update slots i ⟨some a,stamp⟩ k).key = some b) : j = k := by
  by_cases first : j = i
  · by_cases second : k = i
    · rw [first,second]
    · rw [first,Function.update_self] at left
      rw [Function.update_of_ne second] at right
      cases left
      exact absurd right (tracks.only_here fair second)
  · rw [Function.update_of_ne first] at left
    by_cases second : k = i
    · rw [second,Function.update_self] at right
      cases right
      exact absurd left (tracks.only_here fair first)
    · rw [Function.update_of_ne second] at right
      exact tracks.single j k b left right

theorem Tracks.use_gone [DecidableEq ι] (tracks : Tracks t mine slots) {a b : α} {i : ι} (fair : Fair slots a i) (stamp : Nat)
    (theirs : mine b) (other : b ≠ a) (used : 0 < t.last b)
    (absent : ∀ j, (Function.update slots i ⟨some a,stamp⟩ j).key ≠ some b) {k : ι} (kept : k ≠ i) :
    (slots k).key ≠ none ∧ t.last b < (slots k).stamp := by
  by_cases here : (slots i).key = some b
  · rcases fair with hit | ⟨_,oldest⟩
    · cases hit.symm.trans here
      exact absurd rfl other
    · exact tracks.evicted here oldest kept
  · apply tracks.gone b theirs used
    intro j
    by_cases same : j = i
    · rw [same]
      exact here
    · have missing := absent j
      rw [Function.update_of_ne same] at missing
      exact missing

section Uses
variable [DecidableEq α]

theorem Tracks.elsewhere (tracks : Tracks t mine slots) {a : α} (other : ¬ mine a) : Tracks (t.use a) mine slots := by
  have apart : ∀ b, mine b → b ≠ a := by
    intro b inside same
    rw [same] at inside
    exact other inside
  refine ⟨fun i => Nat.le_succ_of_le (tracks.past i),?_,tracks.single,?_,?_⟩
  · intro i b here
    obtain ⟨inside,used,stamp⟩ := tracks.held i b here
    rw [t.use_last_of_ne (apart b inside)]
    exact ⟨inside,used,stamp⟩
  · intro i empty b inside used
    rw [t.use_last_of_ne (apart b inside)] at used ⊢
    exact tracks.spare i empty b inside used
  · intro b inside used absent
    rw [t.use_last_of_ne (apart b inside)] at used ⊢
    exact tracks.gone b inside used absent

theorem Tracks.use [DecidableEq ι] (tracks : Tracks t mine slots) {a : α} {i : ι} (inside : mine a) (fair : Fair slots a i) :
    Tracks (t.use a) mine (Function.update slots i ⟨some a,t.now+1⟩) := by
  refine ⟨?_,?_,fun _ _ _ left right => tracks.use_single fair _ left right,?_,?_⟩
  · intro j
    by_cases same : j = i
    · rw [same,Function.update_self]
      exact Nat.le_refl _
    · rw [Function.update_of_ne same]
      exact Nat.le_succ_of_le (tracks.past j)
  · intro j b here
    by_cases same : j = i
    · rw [same,Function.update_self] at here ⊢
      cases here
      exact ⟨inside,by simp,by simp⟩
    · rw [Function.update_of_ne same] at here ⊢
      have other : b ≠ a := by
        intro equal
        rw [equal] at here
        exact tracks.only_here fair same here
      rw [t.use_last_of_ne other]
      exact tracks.held j b here
  · intro j empty b theirs used
    by_cases same : j = i
    · rw [same,Function.update_self] at empty
      cases empty
    · rw [Function.update_of_ne same] at empty ⊢
      by_cases latest : b = a
      · rw [latest,t.use_last_self]
        exact Nat.lt_succ_of_le (tracks.past j)
      · rw [t.use_last_of_ne latest] at used ⊢
        exact tracks.spare j empty b theirs used
  · intro b theirs used absent k
    have other : b ≠ a := by
      intro equal
      apply absent i
      rw [Function.update_self,equal]
    rw [t.use_last_of_ne other] at used ⊢
    by_cases same : k = i
    · rw [same,Function.update_self]
      exact ⟨fun impossible => (by cases impossible),Nat.lt_succ_of_le (t.past b)⟩
    · rw [Function.update_of_ne same]
      exact tracks.use_gone fair _ theirs other used absent same

end Uses

section Residency
variable [Fintype ι]

theorem slots_encard : (Set.univ : Set ι).encard = Fintype.card ι := by rw [Set.encard_univ,ENat.card_eq_coe_fintype_card]

theorem Tracks.resident_recent (tracks : Tracks t mine slots) {a : α} {i : ι} (here : (slots i).key = some a) :
    (t.newer a ∩ {b | mine b}).encard < Fintype.card ι := by
  obtain ⟨_,_,stamp⟩ := tracks.held i a here
  have covered : some '' (t.newer a ∩ {b | mine b}) ⊆ (fun j => (slots j).key) '' {j | j ≠ i} := by
    intro key listed
    obtain ⟨b,⟨later,theirs⟩,rfl⟩ := listed
    have after : t.last a < t.last b := later
    by_cases kept : ∃ j, (slots j).key = some b
    · obtain ⟨j,there⟩ := kept
      refine ⟨j,?_,there⟩
      intro same
      rw [same,here] at there
      cases there
      exact Nat.lt_irrefl _ after
    · have older := (tracks.gone b theirs (Nat.zero_lt_of_lt after) (not_exists.mp kept) i).2
      omega
  have proper : {j | j ≠ i} ⊂ (Set.univ : Set ι) := by
    refine ⟨Set.subset_univ _,?_⟩
    intro all
    exact all (Set.mem_univ i) rfl
  calc (t.newer a ∩ {b | mine b}).encard
      = (some '' (t.newer a ∩ {b | mine b})).encard := ((Option.some_injective α).encard_image _).symm
    _ ≤ ((fun j => (slots j).key) '' {j | j ≠ i}).encard := Set.encard_le_encard covered
    _ ≤ {j | j ≠ i}.encard := Set.encard_image_le _ _
    _ < (Set.univ : Set ι).encard := (Set.toFinite _).encard_lt_encard proper
    _ = Fintype.card ι := slots_encard

theorem Tracks.gone_old (tracks : Tracks t mine slots) {a : α} (inside : mine a) (used : 0 < t.last a)
    (missing : ∀ i, (slots i).key ≠ some a) : (Fintype.card ι : ℕ∞) ≤ (t.newer a ∩ {b | mine b}).encard := by
  have full := tracks.gone a inside used missing
  have injective : Set.InjOn (fun j => (slots j).key) Set.univ := by
    intro j _ k _ equal
    cases key : (slots j).key with
    | none => exact absurd key (full j).1
    | some b => exact tracks.single j k b key (equal.symm.trans key)
  have covered : (fun j => (slots j).key) '' Set.univ ⊆ some '' (t.newer a ∩ {b | mine b}) := by
    intro key listed
    obtain ⟨j,_,rfl⟩ := listed
    cases key : (slots j).key with
    | none => exact absurd key (full j).1
    | some b =>
      obtain ⟨theirs,_,stamp⟩ := tracks.held j b key
      have later := (full j).2
      rw [stamp] at later
      exact ⟨b,⟨later,theirs⟩,key.symm⟩
  calc (Fintype.card ι : ℕ∞)
      = (Set.univ : Set ι).encard := slots_encard.symm
    _ = ((fun j => (slots j).key) '' Set.univ).encard := injective.encard_image.symm
    _ ≤ (some '' (t.newer a ∩ {b | mine b})).encard := Set.encard_le_encard covered
    _ = (t.newer a ∩ {b | mine b}).encard := (Option.some_injective α).encard_image _

-- A key is held just when fewer keys of its set than there are slots were used after it.
theorem Tracks.resident_iff (tracks : Tracks t mine slots) {a : α} (inside : mine a) :
    (∃ i, (slots i).key = some a) ↔ 0 < t.last a ∧ (t.newer a ∩ {b | mine b}).encard < Fintype.card ι := by
  refine ⟨?_,?_⟩
  · intro resident
    obtain ⟨i,here⟩ := resident
    exact ⟨(tracks.held i a here).2.1,tracks.resident_recent here⟩
  · intro recent
    obtain ⟨used,few⟩ := recent
    by_contra missing
    exact absurd few (not_lt.mpr (tracks.gone_old inside used (not_exists.mp missing)))

-- The same, read off the list of uses.
theorem Tracks.resident_iff_seen [DecidableEq α] [DecidablePred mine] {seen : List α} (tracks : Tracks t mine slots)
    (spells : Spells seen t) {a : α} (inside : mine a) : (∃ i, (slots i).key = some a) ↔
      a ∈ seen ∧ ((seen.takeWhile (· ≠ a)).toFinset.filter mine).card < Fintype.card ι := by
  rw [tracks.resident_iff inside,← spells.used a]
  apply and_congr_right
  intro listed
  have same : t.newer a ∩ {b | mine b} = ((seen.takeWhile (· ≠ a)).toFinset.filter mine : Finset α) := by
    ext b
    rw [Set.mem_inter_iff,spells.newer a listed b,Finset.coe_filter]
    simp
  rw [same,Set.encard_coe_eq_coe_finsetCard,Nat.cast_lt]

end Residency
end Recency
