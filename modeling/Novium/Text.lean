import Novium.ByteStore
import Mathlib.Data.List.DropRight
import Mathlib.Data.List.Infix

-- What programs read text with: the decimal scanner behind strtol and scanf, and a
-- backtracking search for regular expressions.
namespace Text
open Storage

def isSpace (b : Byte) : Bool := b == 0x20 || (0x09 ≤ b && b ≤ 0x0D)
def isDigit (b : Byte) : Bool := 0x30 ≤ b && b ≤ 0x39
def isLetter (b : Byte) : Bool := (0x41 ≤ b && b ≤ 0x5A) || (0x61 ≤ b && b ≤ 0x7A)
def isWord (b : Byte) : Bool := isLetter b || isDigit b || b == 0x5F

def occurs (needle s : List Byte) : Bool := s.tails.any needle.isPrefixOf

theorem occurs_iff {needle s : List Byte} : occurs needle s = true ↔ needle <:+: s := by
  unfold occurs
  simp only [List.any_eq_true,List.mem_tails,List.isPrefixOf_iff_prefix]
  rw [List.infix_iff_prefix_suffix]
  constructor
  · rintro ⟨t,suffix,starts⟩
    exact ⟨t,starts,suffix⟩
  · rintro ⟨t,starts,suffix⟩
    exact ⟨t,suffix,starts⟩

def Stops (accepts : Byte → Bool) (s : List Byte) : Prop := ∀ b, s.head? = some b → accepts b = false

section Stops
variable {accepts : Byte → Bool} {run s : List Byte}

theorem Stops.taken (stops : Stops accepts s) (all : ∀ b ∈ run, accepts b = true) :
    (run ++ s).takeWhile accepts = run := by
  rw [List.takeWhile_append_of_pos all]
  cases s with
  | nil => exact List.append_nil run
  | cons b s => rw [List.takeWhile_cons_of_neg (by simp [stops b rfl]),List.append_nil]

theorem Stops.dropped (stops : Stops accepts s) (all : ∀ b ∈ run, accepts b = true) :
    (run ++ s).dropWhile accepts = s := by
  rw [List.dropWhile_append_of_pos all]
  cases s with
  | nil => rfl
  | cons b s => rw [List.dropWhile_cons_of_neg (by simp [stops b rfl])]

theorem stops_dropWhile (accepts : Byte → Bool) (s : List Byte) : Stops accepts (s.dropWhile accepts) := by
  intro b first
  have refused := List.head?_dropWhile_not accepts s
  rw [first] at refused
  exact Bool.eq_false_iff.mpr (by simpa using refused)

end Stops

def decimal (digits : List Byte) : Nat := digits.foldl (fun n b => 10*n+(b.toNat-0x30)) 0

-- The longest number at the front of the text and what follows it; `none` without a digit.
def readInt (s : List Byte) : Option (Int × List Byte) :=
  let s := s.dropWhile isSpace
  let negative := s.head? == some 0x2D
  let digits := if negative || s.head? == some 0x2B then s.drop 1 else s
  let magnitude := decimal (digits.takeWhile isDigit)
  if (digits.takeWhile isDigit).isEmpty then none
  else some (if negative then -magnitude else magnitude,digits.dropWhile isDigit)

def shown (n : Nat) : List Byte := (Nat.toDigits 10 n).map fun c => BitVec.ofNat 8 c.toNat

theorem digit_byte {n : Nat} {c : Char} (digit : c ∈ Nat.toDigits 10 n) :
    0x30 ≤ (BitVec.ofNat 8 c.toNat).toNat ∧ (BitVec.ofNat 8 c.toNat).toNat ≤ 0x39 ∧
      (BitVec.ofNat 8 c.toNat).toNat = c.toNat := by
  have range := Char.isDigit_iff_toNat.mp (Nat.isDigit_of_mem_toDigits (by decide) (by decide) digit)
  have low : 0x30 ≤ c.toNat := range.1
  have high : c.toNat ≤ 0x39 := range.2
  rw [BitVec.toNat_ofNat,Nat.mod_eq_of_lt (by omega)]
  exact ⟨low,high,rfl⟩

theorem shown_digits {n : Nat} {b : Byte} (member : b ∈ shown n) : isDigit b = true := by
  obtain ⟨c,digit,rfl⟩ := List.mem_map.mp member
  obtain ⟨low,high,_⟩ := digit_byte digit
  simp only [isDigit,Bool.and_eq_true,decide_eq_true_eq,BitVec.le_def]
  exact ⟨low,high⟩

theorem not_mem_shown {b : Byte} (n : Nat) (other : isDigit b = false) : b ∉ shown n := by
  intro member
  rw [shown_digits member] at other
  cases other

theorem shown_ne_nil (n : Nat) : shown n ≠ [] := by
  unfold shown
  rw [ne_eq,List.map_eq_nil_iff]
  exact Nat.toDigits_ne_nil

theorem stops_digits {accepts : Byte → Bool} {digits : List Byte} (s : List Byte) (some : digits ≠ [])
    (all : ∀ b ∈ digits, isDigit b = true) (other : ∀ b, isDigit b = true → accepts b = false) :
    Stops accepts (digits ++ s) := by
  intro b first
  obtain ⟨c,rest,whole⟩ := List.exists_cons_of_ne_nil some
  rw [whole] at first
  cases first
  exact other b (all b (whole ▸ List.mem_cons_self))

theorem decimal_shown (n : Nat) : decimal (shown n) = n := by
  have read : decimal (shown n) = Nat.ofDigitChars 10 (Nat.toDigits 10 n) 0 := by
    unfold decimal shown
    rw [List.foldl_map,Nat.ofDigitChars_eq_foldl]
    apply List.foldl_ext
    intro total c digit
    rw [(digit_byte digit).2.2]
    rfl
  rw [read,Nat.ofDigitChars_ten_toDigits]

theorem isDigit_plain : ∀ b : Byte, isDigit b = true → isSpace b = false ∧ (some b == some 0x2D) = false ∧ (some b == some 0x2B) = false := by decide +kernel

theorem readInt_digits {digits rest : List Byte} (some : digits ≠ []) (all : ∀ b ∈ digits, isDigit b = true)
    (stops : Stops isDigit rest) : readInt (digits ++ rest) = .some ((decimal digits : Int),rest) := by
  have taken := stops.taken all
  have dropped := stops.dropped all
  obtain ⟨b,later,whole⟩ := List.exists_cons_of_ne_nil some
  obtain ⟨unspaced,minus,plus⟩ := isDigit_plain b (all b (whole ▸ List.mem_cons_self))
  have skipped : (digits ++ rest).dropWhile isSpace = digits ++ rest := by
    rw [whole,List.cons_append,List.dropWhile_cons_of_neg (by simp [unspaced])]
  have head : (digits ++ rest).head? = .some b := by
    rw [whole]
    rfl
  unfold readInt
  simp only [skipped,head,minus,plus,Bool.or_self,Bool.false_eq_true,if_false,taken,dropped,List.isEmpty_iff,some]

theorem readInt_shown (n : Nat) {rest : List Byte} (stops : Stops isDigit rest) :
    readInt (shown n ++ rest) = some ((n : Int),rest) := by
  rw [readInt_digits (shown_ne_nil n) (fun _ => shown_digits) stops,decimal_shown]

inductive Directive where
  | space
  | char (expected : Byte)
  | int
  deriving DecidableEq, Repr

def directives : List Byte → List Directive
  | 0x25 :: 0x64 :: rest => .int :: directives rest
  | b :: rest => (if isSpace b then .space else .char b) :: directives rest
  | [] => []

-- The numbers converted before the first directive that fails.
def scan : List Directive → List Byte → List Int
  | [],_ => []
  | .space :: rest,s => scan rest (s.dropWhile isSpace)
  | .char _ :: _,[] => []
  | .char expected :: rest,b :: s => if b = expected then scan rest s else []
  | .int :: rest,s =>
    match readInt s with
    | none => []
    | some (n,s) => n :: scan rest s

theorem scan_shown (n : Nat) (rest : List Directive) {s : List Byte} (stops : Stops isDigit s) :
    scan (.int :: rest) (shown n ++ s) = (n : Int) :: scan rest s := by
  simp only [scan,readInt_shown n stops]

theorem directives_cons {b : Byte} (s : List Byte) (plain : b ≠ 0x25) :
    directives (b :: s) = (if isSpace b then .space else .char b) :: directives s := by
  rw [directives]
  intro _ same
  exact absurd same plain

-- A format without conversions reads the text it spells. After a blank of the format the
-- text is already past its own blanks, which the second half is for.
theorem scan_literal {t s : List Byte} (rest : List Directive) (plain : (0x25 : Byte) ∉ t) (stops : Stops isSpace s) :
    scan (directives t ++ rest) (t ++ s) = scan rest s ∧
      scan (directives t ++ rest) ((t ++ s).dropWhile isSpace) = scan rest s := by
  induction t with
  | nil =>
      have unchanged : ([] ++ s).dropWhile isSpace = s := stops.dropped fun _ member => by cases member
      rw [unchanged]
      exact ⟨rfl,rfl⟩
  | cons b t ih =>
      have other : b ≠ 0x25 := fun same => plain (same ▸ List.mem_cons_self)
      obtain ⟨read,skipped⟩ := ih fun member => plain (List.mem_cons_of_mem _ member)
      rw [directives_cons t other]
      by_cases space : isSpace b = true
      · simp only [if_pos space,List.cons_append,scan,List.dropWhile_cons_of_pos space,List.dropWhile_idempotent]
        exact ⟨skipped,skipped⟩
      · simp only [if_neg space,List.cons_append,scan,List.dropWhile_cons_of_neg space,if_pos]
        exact ⟨read,read⟩

theorem scan_field {t s : List Byte} (n : Nat) (rest : List Directive) (plain : (0x25 : Byte) ∉ t)
    (stops : Stops isDigit s) : scan (directives t ++ .int :: rest) (t ++ (shown n ++ s)) = (n : Int) :: scan rest s := by
  have number : Stops isSpace (shown n ++ s) :=
    stops_digits s (shown_ne_nil n) (fun _ => shown_digits) fun b digit => (isDigit_plain b digit).1
  rw [(scan_literal _ plain number).1,scan_shown n rest stops]

inductive Regex where
  | empty
  | one (accepts : Byte → Bool)
  | star (accepts : Byte → Bool)
  | seq (first second : Regex)
  | alt (first second : Regex)
  | group (inner : Regex)

namespace Regex

def plus (accepts : Byte → Bool) : Regex := seq (one accepts) (star accepts)

def greedy {R : Type} (accepts : Byte → Bool) (next : List Byte → Option R) : List Byte → Option R
  | [] => next []
  | b :: s => if accepts b then (greedy accepts next s).orElse fun _ => next (b :: s) else next (b :: s)

-- Tries the choices in order, the longer repetition first; `next` takes the rest of the
-- text and the groups closed so far.
def run {R : Type} : Regex → (List Byte → List (List Byte) → Option R) → List Byte → List (List Byte) → Option R
  | empty,next,s,groups => next s groups
  | one _,_,[],_ => none
  | one accepts,next,b :: s,groups => if accepts b then next s groups else none
  | star accepts,next,s,groups => greedy accepts (fun s => next s groups) s
  | seq first second,next,s,groups => run first (run second next) s groups
  | alt first second,next,s,groups => (run first next s groups).orElse fun _ => run second next s groups
  | group inner,next,s,groups =>
    run inner (fun rest groups => next rest (groups ++ [s.take (s.length-rest.length)])) s groups

def search (r : Regex) : List Byte → Option (List (List Byte))
  | [] => run r (fun _ groups => some groups) [] []
  | b :: s => (run r (fun _ groups => some groups) (b :: s) []).orElse fun _ => search r s

section Greedy
variable {R : Type} {accepts : Byte → Bool} {next : List Byte → Option R}

theorem greedy_stops {b : Byte} {s : List Byte} (refused : accepts b = false) :
    greedy accepts next (b :: s) = next (b :: s) := by
  simp [greedy,refused]

theorem greedy_append {run : List Byte} {b : Byte} {s : List Byte} {r : R} (all : ∀ c ∈ run, accepts c = true)
    (refused : accepts b = false) (found : next (b :: s) = some r) : greedy accepts next (run ++ b :: s) = some r := by
  induction run with
  | nil => rw [List.nil_append,greedy_stops refused,found]
  | cons c run ih =>
      have rest := ih fun d member => all d (List.mem_cons_of_mem _ member)
      rw [List.cons_append,greedy,if_pos (all c List.mem_cons_self),rest]
      rfl

-- A match that cannot fail later takes the longest run.
theorem greedy_longest (found : ∀ s, (next s).isSome = true) (s : List Byte) :
    greedy accepts next s = next (s.dropWhile accepts) := by
  induction s with
  | nil => rfl
  | cons b s ih =>
      by_cases accepted : accepts b = true
      · rw [greedy,if_pos accepted,ih,List.dropWhile_cons_of_pos accepted]
        obtain ⟨r,result⟩ := Option.isSome_iff_exists.mp (found (s.dropWhile accepts))
        rw [result]
        rfl
      · rw [greedy,if_neg accepted,List.dropWhile_cons_of_neg accepted]

end Greedy

theorem taken_dropWhile (accepts : Byte → Bool) (s : List Byte) :
    s.take (s.length-(s.dropWhile accepts).length) = s.takeWhile accepts := by
  have parts := @List.takeWhile_append_dropWhile _ accepts s
  have count := congrArg List.length parts
  rw [List.length_append] at count
  rw [show s.length-(s.dropWhile accepts).length = (s.takeWhile accepts).length by omega]
  exact (List.prefix_iff_eq_take.mp (List.takeWhile_prefix accepts)).symm

theorem run_group_plus {accepts : Byte → Bool} {b : Byte} {s : List Byte} {groups : List (List Byte)}
    (accepted : accepts b = true) :
    run (.group (plus accepts)) (fun _ groups => some groups) (b :: s) groups =
      some (groups ++ [(b :: s).takeWhile accepts]) := by
  simp only [run,plus,if_pos accepted]
  rw [greedy_longest fun _ => rfl]
  have dropped : s.dropWhile accepts = (b :: s).dropWhile accepts := by
    rw [List.dropWhile_cons_of_pos accepted]
  rw [dropped,taken_dropWhile]

theorem search_append {r : Regex} {skipped s : List Byte}
    (none : ∀ b rest, b :: rest <:+ skipped → run r (fun _ groups => some groups) (b :: rest ++ s) [] = none) :
    search r (skipped ++ s) = search r s := by
  induction skipped with
  | nil => rfl
  | cons b rest ih =>
      have later := ih fun c tail suffix => none c tail (suffix.trans (List.suffix_cons b rest))
      have here := none b rest List.suffix_rfl
      rw [List.cons_append] at here ⊢
      rw [search,here,later]
      rfl

theorem search_found {r : Regex} {b : Byte} {s : List Byte} {groups : List (List Byte)}
    (found : run r (fun _ groups => some groups) (b :: s) [] = some groups) : search r (b :: s) = some groups := by
  rw [search,found]
  rfl

-- What an expression means: the texts it takes, with the groups that close in them.
inductive Matches : Regex → List Byte → List (List Byte) → Prop where
  | empty : Matches empty [] []
  | one {accepts : Byte → Bool} {b : Byte} (accepted : accepts b = true) : Matches (one accepts) [b] []
  | star {accepts : Byte → Bool} {s : List Byte} (all : ∀ b ∈ s, accepts b = true) : Matches (star accepts) s []
  | seq {first second : Regex} {s t : List Byte} {left right : List (List Byte)} (head : Matches first s left)
      (tail : Matches second t right) : Matches (seq first second) (s ++ t) (left ++ right)
  | altLeft {first second : Regex} {s : List Byte} {groups : List (List Byte)} (taken : Matches first s groups) :
      Matches (alt first second) s groups
  | altRight {first second : Regex} {s : List Byte} {groups : List (List Byte)} (taken : Matches second s groups) :
      Matches (alt first second) s groups
  | group {inner : Regex} {s : List Byte} {groups : List (List Byte)} (taken : Matches inner s groups) :
      Matches (group inner) s (groups ++ [s])

section Shape
variable {accepts : Byte → Bool} {s : List Byte} {closed : List (List Byte)}

theorem matches_empty : Matches empty s closed ↔ s = [] ∧ closed = [] := by
  constructor
  · intro matched
    cases matched with
    | empty => exact ⟨rfl,rfl⟩
  · rintro ⟨rfl,rfl⟩
    exact .empty

theorem matches_one : Matches (one accepts) s closed ↔ ∃ b, accepts b = true ∧ s = [b] ∧ closed = [] := by
  constructor
  · intro matched
    cases matched with
    | one accepted => exact ⟨_,accepted,rfl,rfl⟩
  · rintro ⟨b,accepted,rfl,rfl⟩
    exact .one accepted

theorem matches_star : Matches (star accepts) s closed ↔ (∀ b ∈ s, accepts b = true) ∧ closed = [] := by
  constructor
  · intro matched
    cases matched with
    | star all => exact ⟨all,rfl⟩
  · rintro ⟨all,rfl⟩
    exact .star all

theorem matches_seq {first second : Regex} : Matches (seq first second) s closed ↔
    ∃ head tail left right, Matches first head left ∧ Matches second tail right ∧ s = head ++ tail ∧
      closed = left ++ right := by
  constructor
  · intro matched
    cases matched with
    | seq taken later => exact ⟨_,_,_,_,taken,later,rfl,rfl⟩
  · rintro ⟨head,tail,left,right,taken,later,rfl,rfl⟩
    exact .seq taken later

theorem matches_alt {first second : Regex} :
    Matches (alt first second) s closed ↔ Matches first s closed ∨ Matches second s closed := by
  constructor
  · intro matched
    cases matched with
    | altLeft taken => exact .inl taken
    | altRight taken => exact .inr taken
  · intro either
    cases either with
    | inl taken => exact .altLeft taken
    | inr taken => exact .altRight taken

theorem matches_group {inner : Regex} :
    Matches (group inner) s closed ↔ ∃ groups, Matches inner s groups ∧ closed = groups ++ [s] := by
  constructor
  · intro matched
    cases matched with
    | group taken => exact ⟨_,taken,rfl⟩
  · rintro ⟨groups,taken,rfl⟩
    exact .group taken

theorem matches_plus :
    Matches (plus accepts) s closed ↔ s ≠ [] ∧ (∀ b ∈ s, accepts b = true) ∧ closed = [] := by
  rw [plus,matches_seq]
  constructor
  · rintro ⟨_,tail,_,_,first,rest,rfl,rfl⟩
    obtain ⟨b,accepted,rfl,rfl⟩ := matches_one.mp first
    obtain ⟨all,rfl⟩ := matches_star.mp rest
    exact ⟨List.cons_ne_nil b tail,List.forall_mem_cons.mpr ⟨accepted,all⟩,rfl⟩
  · rintro ⟨some,all,rfl⟩
    obtain ⟨b,tail,rfl⟩ := List.exists_cons_of_ne_nil some
    obtain ⟨accepted,others⟩ := List.forall_mem_cons.mp all
    exact ⟨[b],tail,[],[],.one accepted,.star others,rfl,rfl⟩

theorem matches_word {f : Byte → Byte} {word : List Byte} :
    Matches (word.foldr (fun c => seq (one (f · == f c))) empty) s closed ↔ s.map f = word.map f ∧ closed = [] := by
  induction word generalizing s closed with
  | nil => rw [List.foldr_nil,matches_empty,List.map_nil,List.map_eq_nil_iff]
  | cons c word ih =>
      rw [List.foldr_cons,matches_seq]
      constructor
      · rintro ⟨_,tail,_,_,first,rest,rfl,rfl⟩
        obtain ⟨b,same,rfl,rfl⟩ := matches_one.mp first
        obtain ⟨others,rfl⟩ := ih.mp rest
        rw [List.singleton_append,List.map_cons,List.map_cons,others,eq_of_beq same]
        exact ⟨rfl,rfl⟩
      · rintro ⟨same,rfl⟩
        cases s with
        | nil => cases same
        | cons b tail =>
            rw [List.map_cons,List.map_cons,List.cons.injEq] at same
            exact ⟨[b],tail,[],[],.one (beq_iff_eq.mpr same.1),ih.mpr ⟨same.2,rfl⟩,rfl,rfl⟩

end Shape

theorem chosen_eq_some {R : Type} {left : Option R} {right : Unit → Option R} {r : R} (found : left.orElse right = some r) :
    left = some r ∨ left = none ∧ right () = some r := by
  rw [Option.orElse_eq_or] at found
  exact Option.or_eq_some_iff.mp found

theorem greedy_sound {R : Type} {accepts : Byte → Bool} {next : List Byte → Option R} {s : List Byte} {r : R}
    (found : greedy accepts next s = some r) :
    ∃ run rest, s = run ++ rest ∧ (∀ b ∈ run, accepts b = true) ∧ next rest = some r := by
  induction s with
  | nil => exact ⟨[],[],rfl,List.forall_mem_nil _,found⟩
  | cons b s ih =>
      rw [greedy] at found
      split at found
      · rename_i accepted
        rcases chosen_eq_some found with longer | ⟨_,here⟩
        · obtain ⟨run,rest,rfl,all,later⟩ := ih longer
          exact ⟨b :: run,rest,rfl,List.forall_mem_cons.mpr ⟨accepted,all⟩,later⟩
        · exact ⟨[],b :: s,rfl,List.forall_mem_nil _,here⟩
      · exact ⟨[],b :: s,rfl,List.forall_mem_nil _,found⟩

theorem greedy_complete {R : Type} {accepts : Byte → Bool} {next : List Byte → Option R} {run rest : List Byte}
    (all : ∀ b ∈ run, accepts b = true) (later : (next rest).isSome = true) :
    (greedy accepts next (run ++ rest)).isSome = true := by
  induction run with
  | nil =>
      cases rest with
      | nil => exact later
      | cons b rest =>
          rw [List.nil_append,greedy]
          split
          · rw [Option.orElse_eq_or,Option.isSome_or,later,Bool.or_true]
          · exact later
  | cons b run ih =>
      obtain ⟨accepted,others⟩ := List.forall_mem_cons.mp all
      rw [List.cons_append,greedy,if_pos accepted,Option.orElse_eq_or,Option.isSome_or,ih others,Bool.true_or]

theorem run_sound {R : Type} {r : Regex} {next : List Byte → List (List Byte) → Option R} {s : List Byte}
    {groups : List (List Byte)} {result : R} (found : run r next s groups = some result) :
    ∃ taken rest closed, s = taken ++ rest ∧ Matches r taken closed ∧ next rest (groups ++ closed) = some result := by
  induction r generalizing next s groups with
  | empty => exact ⟨[],s,[],rfl,.empty,by rwa [List.append_nil]⟩
  | one accepts =>
      cases s with
      | nil => cases found
      | cons b s =>
          rw [run] at found
          split at found
          · rename_i accepted
            exact ⟨[b],s,[],rfl,.one accepted,by rwa [List.append_nil]⟩
          · cases found
  | star accepts =>
      obtain ⟨taken,rest,whole,all,later⟩ := greedy_sound found
      exact ⟨taken,rest,[],whole,.star all,by rwa [List.append_nil]⟩
  | seq first second ihFirst ihSecond =>
      obtain ⟨taken,middle,left,rfl,head,later⟩ := ihFirst found
      obtain ⟨more,rest,right,rfl,tail,last⟩ := ihSecond later
      exact ⟨taken ++ more,rest,left ++ right,(List.append_assoc ..).symm,.seq head tail,by rwa [←List.append_assoc]⟩
  | alt first second ihFirst ihSecond =>
      rcases chosen_eq_some found with left | ⟨_,right⟩
      · obtain ⟨taken,rest,closed,whole,head,later⟩ := ihFirst left
        exact ⟨taken,rest,closed,whole,.altLeft head,later⟩
      · obtain ⟨taken,rest,closed,whole,head,later⟩ := ihSecond right
        exact ⟨taken,rest,closed,whole,.altRight head,later⟩
  | group inner ih =>
      obtain ⟨taken,rest,closed,rfl,head,later⟩ := ih found
      refine ⟨taken,rest,closed ++ [taken],rfl,.group head,?_⟩
      rw [List.length_append,Nat.add_sub_cancel,List.take_left,List.append_assoc] at later
      exact later

-- A text the expression takes is found, if not the first choice then a later one, when
-- what follows it can be handed on.
theorem run_complete {R : Type} {r : Regex} {taken : List Byte} {closed : List (List Byte)} (matched : Matches r taken closed)
    {next : List Byte → List (List Byte) → Option R} {rest : List Byte} {groups : List (List Byte)}
    (later : (next rest (groups ++ closed)).isSome = true) : (run r next (taken ++ rest) groups).isSome = true := by
  induction matched generalizing next rest groups with
  | empty => rwa [List.append_nil] at later
  | one accepted =>
      rw [List.append_nil] at later
      rw [List.cons_append,run,if_pos accepted]
      exact later
  | star all =>
      rw [List.append_nil] at later
      exact greedy_complete all later
  | seq head tail ihHead ihTail =>
      rw [List.append_assoc]
      rw [←List.append_assoc] at later
      exact ihHead (ihTail later)
  | altLeft _ ih =>
      rw [run,Option.orElse_eq_or,Option.isSome_or,ih later,Bool.true_or]
  | altRight _ ih =>
      rw [run,Option.orElse_eq_or,Option.isSome_or,ih later,Bool.or_true]
  | group head ih =>
      apply ih
      rw [List.length_append,Nat.add_sub_cancel,List.take_left,List.append_assoc]
      exact later

section Search
variable {r : Regex} {s : List Byte}

-- A search ends at the first place where a match starts.
theorem search_leftmost {groups : List (List Byte)} (found : search r s = some groups) :
    ∃ before here, s = before ++ here ∧ run r (fun _ groups => some groups) here [] = some groups ∧
      ∀ earlier there, s = earlier ++ there → (run r (fun _ groups => some groups) there []).isSome = true →
        before.length ≤ earlier.length := by
  induction s with
  | nil => exact ⟨[],[],rfl,found,fun _ _ _ _ => Nat.zero_le _⟩
  | cons b s ih =>
      rw [search] at found
      rcases chosen_eq_some found with here | ⟨nowhere,later⟩
      · exact ⟨[],b :: s,rfl,here,fun _ _ _ _ => Nat.zero_le _⟩
      · obtain ⟨before,here,rfl,matched,first⟩ := ih later
        refine ⟨b :: before,here,rfl,matched,?_⟩
        intro earlier there whole starts
        cases earlier with
        | nil =>
            rw [List.nil_append] at whole
            rw [←whole,nowhere] at starts
            cases starts
        | cons c earlier =>
            rw [List.cons_append,List.cons.injEq] at whole
            exact Nat.succ_le_succ (first earlier there whole.2 starts)

theorem search_complete {before here : List Byte} (whole : s = before ++ here)
    (starts : (run r (fun _ groups => some groups) here []).isSome = true) : (search r s).isSome = true := by
  subst whole
  induction before with
  | nil =>
      cases here with
      | nil => exact starts
      | cons b here => rw [List.nil_append,search,Option.orElse_eq_or,Option.isSome_or,starts,Bool.true_or]
  | cons b before ih => rw [List.cons_append,search,Option.orElse_eq_or,Option.isSome_or,ih,Bool.or_true]

end Search

end Regex

end Text
