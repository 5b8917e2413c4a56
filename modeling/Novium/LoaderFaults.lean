import Novium.Frontend

namespace Novium
open Storage TranslationEngine Text

namespace Pattern

-- The expressions of the parameters, up to their number.
def svHeader (name : String) : List Regex :=
  [litIcase "parameter",someSpaces,litIcase name,spaces,litIcase "=",spaces]

def chiselHeader (s t : String) : List Regex := [.group (.alt (lit s) (lit t)),spaces,lit "=",spaces]

theorem run_joined_append {R : Type} (front back : List Regex) (next : List Byte → List (List Byte) → Option R)
    (s : List Byte) (groups : List (List Byte)) :
    (joined (front ++ back)).run next s groups = (joined front).run ((joined back).run next) s groups := by
  induction front generalizing s groups with
  | nil => rfl
  | cons part front ih =>
      change part.run ((joined (front ++ back)).run next) s groups = _
      rw [show (joined (front ++ back)).run next = (joined front).run ((joined back).run next) from
        funext fun s => funext fun groups => ih s groups]
      rfl

theorem matches_joined_cons {part : Regex} {parts : List Regex} {s : List Byte} {closed : List (List Byte)} :
    (joined (part :: parts)).Matches s closed ↔ ∃ head tail left right, part.Matches head left ∧
      (joined parts).Matches tail right ∧ s = head ++ tail ∧ closed = left ++ right :=
  Regex.matches_seq

theorem matches_litIcase {word : String} {s : List Byte} {closed : List (List Byte)} :
    (litIcase word).Matches s closed ↔ s.map toLower = (ascii word).map toLower ∧ closed = [] :=
  Regex.matches_word

theorem matches_lit {word : String} {s : List Byte} {closed : List (List Byte)} :
    (lit word).Matches s closed ↔ s = ascii word ∧ closed = [] := by
  have word : (lit word).Matches s closed ↔ s.map id = (ascii word).map id ∧ closed = [] := Regex.matches_word
  rwa [List.map_id,List.map_id] at word

end Pattern

namespace Frontend
open Pattern

def Spaces (s : List Byte) : Prop := ∀ b ∈ s, isSpace b = true

def Number (digits : List Byte) : Prop := digits ≠ [] ∧ ∀ b ∈ digits, isDigit b = true

-- `parameter LANES =`, in any case and with any blanks.
def SvHeader (name : String) (head : List Byte) : Prop :=
  ∃ keyword gap key left right, head = keyword ++ (gap ++ (key ++ (left ++ (0x3D :: right)))) ∧
    keyword.map toLower = ascii "parameter" ∧ key.map toLower = (ascii name).map toLower ∧
    gap ≠ [] ∧ Spaces gap ∧ Spaces left ∧ Spaces right

-- `lanes =` or `LANES =`.
def ChiselHeader (s t : String) (head : List Byte) : Prop :=
  ∃ key left right, head = key ++ (left ++ (0x3D :: right)) ∧ (key = ascii s ∨ key = ascii t) ∧
    Spaces left ∧ Spaces right

-- The digits of the text's first number that stands behind such a header.
def Declared (Header : List Byte → Prop) (src digits : List Byte) : Prop :=
  ∃ before head rest, src = before ++ (head ++ (digits ++ rest)) ∧ Header head ∧ Number digits ∧ Stops isDigit rest ∧
    ∀ before' head' digits' rest', src = before' ++ (head' ++ (digits' ++ rest')) → Header head' → Number digits' →
      before.length ≤ before'.length

def Fits (Header : List Byte → Prop) (src : List Byte) : Prop :=
  ∀ digits, Declared Header src digits → decimal digits < 2^31

def NumbersFit : SourceKind → List Byte → Prop
  | .systemVerilog,src => Fits (SvHeader "TILE") src ∧ Fits (SvHeader "LANES") src ∧ Fits (SvHeader "BW") src
  | .chisel,src => Fits (ChiselHeader "lanes" "LANES") src
  | _,_ => True

theorem run_digits {s : List Byte} {groups result : List (List Byte)} :
    (joined [digits]).run (fun _ groups => some groups) s groups = some result ↔
      ∃ number rest, s = number ++ rest ∧ Number number ∧ Stops isDigit rest ∧ result = groups ++ [number] := by
  constructor
  · intro found
    cases s with
    | nil => cases found
    | cons b s =>
        by_cases digit : isDigit b = true
        · have read : (joined [digits]).run (fun _ groups => some groups) (b :: s) groups =
              some (groups ++ [(b :: s).takeWhile isDigit]) := Regex.run_group_plus digit
          refine ⟨_,(b :: s).dropWhile isDigit,List.takeWhile_append_dropWhile.symm,⟨?_,fun _ => List.mem_takeWhile_imp⟩,
            stops_dropWhile isDigit (b :: s),Option.some.inj (found.symm.trans read)⟩
          rw [List.takeWhile_cons_of_pos digit]
          exact List.cons_ne_nil _ _
        · have refused : (joined [digits]).run (fun _ groups => some groups) (b :: s) groups = none := by
            simp [joined,digits,Regex.plus,Regex.run,digit]
          cases refused.symm.trans found
  · rintro ⟨number,rest,rfl,⟨some,all⟩,stops,rfl⟩
    obtain ⟨b,more,rfl⟩ := List.exists_cons_of_ne_nil some
    have read := @Regex.run_group_plus isDigit b (more ++ rest) groups (all b List.mem_cons_self)
    rw [←List.cons_append,stops.taken all] at read
    exact read

theorem digits_start {number : List Byte} (rest : List Byte) (groups : List (List Byte)) (read : Number number) :
    ((joined [digits]).run (fun _ groups => some groups) (number ++ rest) groups).isSome = true := by
  obtain ⟨some,all⟩ := read
  obtain ⟨b,more,rfl⟩ := List.exists_cons_of_ne_nil some
  exact Option.isSome_of_eq_some (@Regex.run_group_plus isDigit b (more ++ rest) groups (all b List.mem_cons_self))

-- The parts spell a header that holds no digits and close so many groups.
structure Spells (header : List Regex) (groups : Nat) (Header : List Byte → Prop) : Prop where
  takes : ∀ {head : List Byte}, Header head → ∃ closed, (joined header).Matches head closed
  taken : ∀ {head : List Byte} {closed : List (List Byte)}, (joined header).Matches head closed →
    Header head ∧ closed.length = groups
  plain : ∀ {head : List Byte}, Header head → ∀ b ∈ head, isDigit b = false

section Declared
variable {header : List Regex} {n : Nat} {Header : List Byte → Prop} {src number : List Byte}

theorem Spells.found (spells : Spells header n Header) {groups : List (List Byte)}
    (found : (joined (header ++ [digits])).search src = some groups) :
    ∃ number, groups[n]? = some number ∧ Declared Header src number := by
  obtain ⟨before,here,whole,matched,first⟩ := Regex.search_leftmost found
  rw [run_joined_append] at matched
  obtain ⟨head,_,closed,rfl,taken,later⟩ := Regex.run_sound matched
  obtain ⟨number,rest,rfl,read,stops,rfl⟩ := run_digits.mp later
  obtain ⟨spelled,count⟩ := spells.taken taken
  refine ⟨number,?_,before,head,rest,whole,spelled,read,stops,?_⟩
  · rw [List.nil_append,←count,List.getElem?_concat_length]
  · intro before' head' number' rest' whole' spelled' read'
    obtain ⟨closed',taken'⟩ := spells.takes spelled'
    apply first before' _ whole'
    rw [run_joined_append]
    exact Regex.run_complete taken' (digits_start rest' _ read')

theorem Declared.unique (plain : ∀ {head : List Byte}, Header head → ∀ b ∈ head, isDigit b = false)
    {other : List Byte} (left : Declared Header src number) (right : Declared Header src other) : number = other := by
  obtain ⟨before,head,rest,whole,spelled,read,stops,first⟩ := left
  obtain ⟨before',head',rest',whole',spelled',read',stops',first'⟩ := right
  have place : before.length = before'.length :=
    Nat.le_antisymm (first before' head' other rest' whole' spelled' read')
      (first' before head number rest whole spelled read)
  obtain ⟨_,same⟩ := List.append_inj (whole.symm.trans whole') place
  have front {head number rest : List Byte} (spelled : Header head) (read : Number number) :
      (head ++ (number ++ rest)).dropWhile (fun b => !isDigit b) = number ++ rest := by
    apply (stops_digits rest read.1 read.2 fun b digit => by rw [digit]; rfl).dropped
    intro b member
    rw [plain spelled b member]
    rfl
  have numbers : number ++ rest = other ++ rest' := by
    rw [←front spelled read,same,front spelled' read']
  rw [←stops.taken read.2,numbers,stops'.taken read'.2]

theorem Spells.declared (spells : Spells header n Header) (declared : Declared Header src number) :
    ∃ groups, (joined (header ++ [digits])).search src = some groups ∧ groups[n]? = some number := by
  obtain ⟨before,head,rest,whole,spelled,read,_⟩ := id declared
  obtain ⟨closed,taken⟩ := spells.takes spelled
  have starts : ((joined (header ++ [digits])).run (fun _ groups => some groups) (head ++ (number ++ rest)) []).isSome =
      true := by
    rw [run_joined_append]
    exact Regex.run_complete taken (digits_start rest _ read)
  obtain ⟨groups,found⟩ := Option.isSome_iff_exists.mp (Regex.search_complete whole starts)
  obtain ⟨other,wanted,also⟩ := spells.found found
  exact ⟨groups,found,by rw [wanted,declared.unique spells.plain also]⟩

end Declared

theorem toLower_digit : ∀ b : Byte, isDigit b = true → isDigit (toLower b) = true := by decide +kernel

theorem isDigit_space : ∀ b : Byte, isSpace b = true → isDigit b = false := by decide +kernel

theorem toLower_equals : ∀ b : Byte, toLower b = 0x3D ↔ b = 0x3D := by decide +kernel

theorem word_plain {key word : List Byte} (same : key.map toLower = word.map toLower)
    (none : (word.map toLower).all (!isDigit ·) = true) : ∀ b ∈ key, isDigit b = false := by
  intro b member
  have listed : toLower b ∈ word.map toLower := same ▸ List.mem_map_of_mem member
  have other := List.all_eq_true.mp none _ listed
  cases digit : isDigit b with
  | false => rfl
  | true =>
      rw [toLower_digit b digit] at other
      cases other

theorem spaces_plain {s : List Byte} (spaces : Spaces s) : ∀ b ∈ s, isDigit b = false :=
  fun b member => isDigit_space b (spaces b member)

theorem spells_sv {name : String} (plain : ((ascii name).map toLower).all (!isDigit ·) = true) :
    Spells (svHeader name) 0 (SvHeader name) where
  takes := by
    rintro _ ⟨keyword,gap,key,left,right,rfl,first,second,some,gaps,lefts,rights⟩
    refine ⟨[],matches_joined_cons.mpr ⟨keyword,_,[],[],matches_litIcase.mpr ⟨first,rfl⟩,?_,rfl,rfl⟩⟩
    refine matches_joined_cons.mpr ⟨gap,_,[],[],Regex.matches_plus.mpr ⟨some,gaps,rfl⟩,?_,rfl,rfl⟩
    refine matches_joined_cons.mpr ⟨key,_,[],[],matches_litIcase.mpr ⟨second,rfl⟩,?_,rfl,rfl⟩
    refine matches_joined_cons.mpr ⟨left,_,[],[],Regex.matches_star.mpr ⟨lefts,rfl⟩,?_,rfl,rfl⟩
    refine matches_joined_cons.mpr ⟨[0x3D],right,[],[],matches_litIcase.mpr ⟨rfl,rfl⟩,?_,rfl,rfl⟩
    exact matches_joined_cons.mpr ⟨right,[],[],[],Regex.matches_star.mpr ⟨rights,rfl⟩,.empty,
      (List.append_nil right).symm,rfl⟩
  taken := by
    intro head closed matched
    obtain ⟨keyword,_,_,_,first,behindKeyword,rfl,rfl⟩ := matches_joined_cons.mp matched
    obtain ⟨gap,_,_,_,gaps,behindGap,rfl,rfl⟩ := matches_joined_cons.mp behindKeyword
    obtain ⟨key,_,_,_,second,behindKey,rfl,rfl⟩ := matches_joined_cons.mp behindGap
    obtain ⟨left,_,_,_,lefts,behindLeft,rfl,rfl⟩ := matches_joined_cons.mp behindKey
    obtain ⟨sign,_,_,_,third,behindSign,rfl,rfl⟩ := matches_joined_cons.mp behindLeft
    obtain ⟨right,_,_,_,rights,ending,rfl,rfl⟩ := matches_joined_cons.mp behindSign
    obtain ⟨rfl,rfl⟩ := Regex.matches_empty.mp ending
    obtain ⟨spelled,rfl⟩ := matches_litIcase.mp first
    obtain ⟨some,gapped,rfl⟩ := Regex.matches_plus.mp gaps
    obtain ⟨named,rfl⟩ := matches_litIcase.mp second
    obtain ⟨spacedLeft,rfl⟩ := Regex.matches_star.mp lefts
    obtain ⟨signed,rfl⟩ := matches_litIcase.mp third
    obtain ⟨spacedRight,rfl⟩ := Regex.matches_star.mp rights
    obtain ⟨b,rfl,equals⟩ := List.map_eq_singleton_iff.mp signed
    obtain rfl := (toLower_equals b).mp equals
    refine ⟨⟨keyword,gap,key,left,right,?_,spelled,named,some,gapped,spacedLeft,spacedRight⟩,rfl⟩
    rw [List.append_nil,List.singleton_append]
  plain := by
    rintro _ ⟨keyword,gap,key,left,right,rfl,first,second,_,gaps,lefts,rights⟩
    have keywords := @word_plain keyword (ascii "parameter") first (by decide)
    have keys := word_plain second plain
    simp only [List.forall_mem_append,List.forall_mem_cons]
    exact ⟨keywords,spaces_plain gaps,keys,spaces_plain lefts,rfl,spaces_plain rights⟩

theorem spells_chisel {s t : String} (plain : (ascii s ++ ascii t).all (!isDigit ·) = true) :
    Spells (chiselHeader s t) 1 (ChiselHeader s t) where
  takes := by
    rintro _ ⟨key,left,right,rfl,named,lefts,rights⟩
    have choice : (Regex.alt (lit s) (lit t)).Matches key [] := by
      rw [Regex.matches_alt,matches_lit,matches_lit]
      exact named.imp (⟨·,rfl⟩) (⟨·,rfl⟩)
    refine ⟨[key],matches_joined_cons.mpr ⟨key,_,[key],[],.group choice,?_,rfl,rfl⟩⟩
    refine matches_joined_cons.mpr ⟨left,_,[],[],Regex.matches_star.mpr ⟨lefts,rfl⟩,?_,rfl,rfl⟩
    refine matches_joined_cons.mpr ⟨[0x3D],right,[],[],matches_lit.mpr ⟨rfl,rfl⟩,?_,rfl,rfl⟩
    exact matches_joined_cons.mpr ⟨right,[],[],[],Regex.matches_star.mpr ⟨rights,rfl⟩,.empty,
      (List.append_nil right).symm,rfl⟩
  taken := by
    intro head closed matched
    obtain ⟨key,_,_,_,named,behindKey,rfl,rfl⟩ := matches_joined_cons.mp matched
    obtain ⟨left,_,_,_,lefts,behindLeft,rfl,rfl⟩ := matches_joined_cons.mp behindKey
    obtain ⟨sign,_,_,_,third,behindSign,rfl,rfl⟩ := matches_joined_cons.mp behindLeft
    obtain ⟨right,_,_,_,rights,ending,rfl,rfl⟩ := matches_joined_cons.mp behindSign
    obtain ⟨rfl,rfl⟩ := Regex.matches_empty.mp ending
    obtain ⟨_,choice,rfl⟩ := Regex.matches_group.mp named
    rw [Regex.matches_alt,matches_lit,matches_lit,←or_and_right] at choice
    obtain ⟨chosen,rfl⟩ := choice
    obtain ⟨spacedLeft,rfl⟩ := Regex.matches_star.mp lefts
    obtain ⟨rfl,rfl⟩ := matches_lit.mp third
    obtain ⟨spacedRight,rfl⟩ := Regex.matches_star.mp rights
    refine ⟨⟨key,left,right,?_,chosen,spacedLeft,spacedRight⟩,rfl⟩
    rw [List.append_nil]
    rfl
  plain := by
    rintro _ ⟨key,left,right,rfl,named,lefts,rights⟩
    have keys : ∀ b ∈ key, isDigit b = false := by
      intro b member
      have listed : b ∈ ascii s ++ ascii t := by
        rcases named with rfl | rfl
        · exact List.mem_append_left _ member
        · exact List.mem_append_right _ member
      simpa using List.all_eq_true.mp plain b listed
    simp only [List.forall_mem_append,List.forall_mem_cons]
    exact ⟨keys,spaces_plain lefts,rfl,spaces_plain rights⟩

-- A number that an int holds is converted, and any other thrown.
theorem stoi_number {number : List Byte} (read : Number number) :
    (∃ v, stoi number = .ok v) ↔ decimal number < 2^31 := by
  have value := readInt_digits read.1 read.2 (show Stops isDigit [] from fun _ none => by cases none)
  rw [List.append_nil] at value
  unfold stoi
  rw [value]
  dsimp only
  have range : isInt (decimal number : Int) ↔ decimal number < 2^31 := by
    unfold isInt
    omega
  rw [←range]
  split
  · rename_i fits
    exact ⟨fun _ => fits,fun _ => ⟨_,rfl⟩⟩
  · rename_i large
    constructor
    · intro ⟨_,returned⟩
      cases returned
    · exact fun fits => absurd fits large

def captured (p : Pattern) (src : List Byte) : Option (List Byte) :=
  (p.regex.search src).bind fun groups => groups[p.wanted]?

def Converts (p : Pattern) (src : List Byte) : Prop := ∀ number, captured p src = some number → ∃ v, stoi number = .ok v

theorem converts_iff {p : Pattern} {header : List Regex} {Header : List Byte → Prop} (src : List Byte)
    (spells : Spells header p.wanted Header) (shape : p.regex = joined (header ++ [digits])) :
    Converts p src ↔ Fits Header src := by
  have reads (number : List Byte) : captured p src = some number ↔ Declared Header src number := by
    unfold captured
    rw [shape,Option.bind_eq_some_iff]
    constructor
    · intro ⟨groups,found,wanted⟩
      obtain ⟨other,listed,declared⟩ := spells.found found
      rwa [Option.some.inj (wanted.symm.trans listed)]
    · exact spells.declared
  have number (digits : List Byte) (declared : Declared Header src digits) : Number digits := by
    obtain ⟨_,_,_,_,_,read,_⟩ := declared
    exact read
  constructor
  · intro converts digits declared
    exact (stoi_number (number digits declared)).mp (converts digits ((reads digits).mpr declared))
  · intro fits digits found
    have declared := (reads digits).mp found
    exact (stoi_number (number digits declared)).mpr (fits digits declared)

def Returns {α : Type} (x : Except LoadFault α) : Prop := ∃ a, x = .ok a

theorem returns_ok {α : Type} (a : α) : Returns (.ok a) := ⟨a,rfl⟩

theorem returns_bind {α β : Type} {x : Except LoadFault α} {f : α → Except LoadFault β} :
    Returns (x >>= f) ↔ ∃ a, x = .ok a ∧ Returns (f a) := by
  constructor
  · intro ⟨b,returned⟩
    obtain ⟨a,first,rest⟩ := returned_bind returned
    exact ⟨a,first,b,rest⟩
  · rintro ⟨a,rfl,b,rest⟩
    exact ⟨b,rest⟩

section Reads
variable {β : Type} {found : Option (List Byte)} {next : Option (List Byte) → Except LoadFault β} {P : Prop}

-- A search whose number is converted: the rest of the loader returns under the same
-- condition whether there was one or not.
theorem converted_returns (nothing : Returns (next none) ↔ P)
    (number : ∀ digits, Returns (next (some digits)) ↔ (∃ v, stoi digits = .ok v) ∧ P) :
    Returns (Except.ok found >>= next) ↔ (∀ digits, found = some digits → ∃ v, stoi digits = .ok v) ∧ P := by
  change Returns (next found) ↔ _
  cases found with
  | none => simpa using nothing
  | some digits => simpa using number digits

theorem stoi_returns {digits : List Byte} {rest : Word → Except LoadFault β} (same : ∀ v, Returns (rest v) ↔ P) :
    Returns (stoi digits >>= rest) ↔ (∃ v, stoi digits = .ok v) ∧ P := by
  rw [returns_bind]
  constructor
  · intro ⟨v,first,later⟩
    exact ⟨⟨v,first⟩,(same v).mp later⟩
  · intro ⟨⟨v,first⟩,later⟩
    exact ⟨v,first,(same v).mpr later⟩

theorem copied_returns (nothing : Returns (next none) ↔ P) (text : ∀ s, Returns (next (some s)) ↔ P) :
    Returns (Except.ok found >>= next) ↔ P := by
  cases found with
  | none => exact nothing
  | some s => exact text s

end Reads

section Loaders
variable (overflow : Int → Word) (src : List Byte) (name : String)

theorem svTarget_returns : Returns (svTarget {Library.standard with overflow := overflow} src) ↔
    Converts .svTile src ∧ Converts .svLanes src ∧ Converts .svBw src := by
  have searched (p : Pattern) : Library.standard.search p src = .ok (captured p src) := rfl
  have done {α : Type} (a : α) : Returns (pure a) ↔ True := iff_of_true (returns_ok a) trivial
  rw [←and_true (Converts .svBw src)]
  unfold svTarget
  simp only [searched]
  refine converted_returns ?_ fun _ => stoi_returns fun _ => ?_ <;>
    refine converted_returns ?_ fun _ => stoi_returns fun _ => ?_ <;>
      refine converted_returns ?_ fun _ => stoi_returns fun _ => ?_ <;>
        exact copied_returns (done _) fun _ => done _

theorem chiselTarget_returns : Returns (chiselTarget {Library.standard with overflow := overflow} src) ↔
    Converts .chiselLanes src := by
  have searched (p : Pattern) : Library.standard.search p src = .ok (captured p src) := rfl
  have done {α : Type} (a : α) : Returns (pure a) ↔ True := iff_of_true (returns_ok a) trivial
  rw [←and_true (Converts .chiselLanes src)]
  unfold chiselTarget
  simp only [searched]
  refine copied_returns ?_ fun _ => ?_ <;>
    refine copied_returns ?_ fun _ => ?_ <;>
      exact converted_returns (done _) fun _ => stoi_returns fun _ => done _

theorem lowerLine_returns (acc : List Word × Bool) (line : List Byte) :
    Returns (lowerLine {Library.standard with overflow := overflow} acc line) := by
  have searched : Library.standard.search .novium line = .ok (captured .novium line) := rfl
  unfold lowerLine
  simp only [searched]
  cases captured .novium line with
  | none => exact returns_ok acc
  | some cmd =>
      dsimp only [bind,Except.bind]
      split
      · exact returns_ok acc
      · exact returns_ok _

theorem lowerLines_return (acc : List Word × Bool) (lines : List (List Byte)) :
    Returns (lines.foldlM (lowerLine {Library.standard with overflow := overflow}) acc) := by
  induction lines generalizing acc with
  | nil => exact returns_ok acc
  | cons line lines ih =>
      obtain ⟨next,lowered⟩ := lowerLine_returns overflow acc line
      rw [List.foldlM_cons,returns_bind]
      exact ⟨next,lowered,ih next⟩

theorem loadCpp_returns : Returns (loadCpp {Library.standard with overflow := overflow} src name) := by
  obtain ⟨⟨program,found⟩,lines⟩ := lowerLines_return overflow ([],false) (getLines src)
  unfold loadCpp
  rw [returns_bind]
  refine ⟨_,lines,?_⟩
  dsimp only
  split
  · exact returns_ok _
  · split
    · exact returns_ok _
    · exact returns_ok _

-- The two hardware loaders fail only while they read their target.
theorem lowered_returns {τ : Type} {target : Except LoadFault τ} (made : τ → LoadResult → LoadResult) :
    Returns (target >>= fun t => loadCpp {Library.standard with overflow := overflow} src name >>= fun cppLike =>
      .ok (made t cppLike)) ↔ Returns target := by
  obtain ⟨cppLike,lowered⟩ := loadCpp_returns overflow src name
  rw [returns_bind]
  constructor
  · intro ⟨t,read,_⟩
    exact ⟨t,read⟩
  · intro ⟨t,read⟩
    exact ⟨t,read,returns_bind.mpr ⟨cppLike,lowered,returns_ok _⟩⟩

theorem loadSystemverilog_returns : Returns (loadSystemverilog {Library.standard with overflow := overflow} src name) ↔
    NumbersFit .systemVerilog src := by
  have target : Returns (loadSystemverilog {Library.standard with overflow := overflow} src name) ↔
      Returns (svTarget {Library.standard with overflow := overflow} src) := lowered_returns overflow src name _
  rw [target,svTarget_returns,converts_iff src (spells_sv (by decide)) rfl,converts_iff src (spells_sv (by decide)) rfl,
    converts_iff src (spells_sv (by decide)) rfl]
  rfl

theorem loadChisel_returns : Returns (loadChisel {Library.standard with overflow := overflow} src name) ↔
    NumbersFit .chisel src := by
  have target : Returns (loadChisel {Library.standard with overflow := overflow} src name) ↔
      Returns (chiselTarget {Library.standard with overflow := overflow} src) := lowered_returns overflow src name _
  rw [target,chiselTarget_returns,converts_iff src (spells_chisel (by decide)) rfl]
  rfl

-- The loaders report on a source exactly when an int holds each number they convert. The
-- diagnostic of an unknown kind is never empty; the other kinds are ok once they return.
theorem frontend_reports_iff (kind : SourceKind) :
    (∃ r, loadString {Library.standard with overflow := overflow} src kind name = .ok r ∧ (r.ok = true ∨ r.diag ≠ "")) ↔
      NumbersFit kind src := by
  cases kind with
  | unknown =>
      refine iff_of_true ⟨_,rfl,.inr ?_⟩ trivial
      intro none
      have text := congrArg String.toList none
      simp at text
  | cpp =>
      obtain ⟨r,returned⟩ := loadCpp_returns overflow src name
      exact iff_of_true ⟨r,returned,.inl (loadCpp_ends returned).1⟩ trivial
  | systemVerilog =>
      rw [←loadSystemverilog_returns overflow src name]
      constructor
      · intro ⟨r,returned,_⟩
        exact ⟨r,returned⟩
      · intro ⟨r,returned⟩
        exact ⟨r,returned,.inl (loadSystemverilog_ends returned).1⟩
  | chisel =>
      rw [←loadChisel_returns overflow src name]
      constructor
      · intro ⟨r,returned,_⟩
        exact ⟨r,returned⟩
      · intro ⟨r,returned⟩
        exact ⟨r,returned,.inl (loadChisel_ends returned).1⟩
  | guestAsm => exact iff_of_true ⟨_,rfl,.inl rfl⟩ trivial

end Loaders

-- A number of eleven digits leaves the loader as an exception.
theorem frontend_reports_large_lanes :
    ¬∃ r, loadString .standard (ascii "module m #(parameter LANES=99999999999);") .systemVerilog "m.sv" = .ok r ∧
      (r.ok = true ∨ r.diag ≠ "") := by
  have thrown : (loadString .standard (ascii "module m #(parameter LANES=99999999999);") .systemVerilog "m.sv").isOk =
      false := by decide +kernel
  intro ⟨r,returned,_⟩
  rw [returned] at thrown
  cases thrown

end Frontend

end Novium
