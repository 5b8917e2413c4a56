import Novium.Disassembly
import Novium.SourceText

namespace Novium
open Storage Effects Printf Text TranslationEngine

-- "%08X: %08X  ", the front of a line of the listing.
def listingLine : List Field := [.digits 16 8,.text (ascii ": "),.digits 16 8,.text (ascii "  ")]

def dumpCells : Nat → List Field
  | 0 => []
  | bytes+1 => .digits 16 2 :: .text (ascii " ") :: dumpCells bytes

def dumpLine (bytes : Nat) : List Field := .digits 16 8 :: .text (ascii ": ") :: dumpCells bytes

-- What a std::string can hold: at least the max_size() of libstdc++.
structure StringLimit where
  maxSize : Nat
  wide : 2^62-1 ≤ maxSize

inductive ListingError where
  | length
  | memory (err : EmulatorError)
  deriving DecidableEq, Repr

namespace StringLimit
variable {M : Type → Type} [Monad M] [MonadExceptOf ListingError M]

-- `reserve` and += throw std::length_error when the string would be longer than max_size().
def reserve (limit : StringLimit) (bytes : Nat) : M Unit := if limit.maxSize < bytes then throw .length else pure ()

def append (limit : StringLimit) (line : Nat → M (List Byte)) (s : List Byte) (i : Nat) : M (List Byte) := do
  let more ← line i
  if limit.maxSize < s.length+more.length then throw .length else pure (s ++ more)

def text (limit : StringLimit) (reserved : Nat) (line : Nat → M (List Byte)) (rows : List Nat) : M (List Byte) := do
  limit.reserve (reserved % 2^64)
  rows.foldlM (limit.append line) []

end StringLimit

namespace Debugger

def listedAt (start : Word) (i : Nat) : Word := start+BitVec.ofNat 32 (i*4)

def listed (mem : ByteStore) (start : Word) (i : Nat) : Except EmulatorError (List Byte) :=
  match VirtualSRAM.read32 mem (listedAt start i) with
  | .error e => .error e
  | .ok raw =>
    .ok (snprintf 128 (print listingLine [(listedAt start i).toNat,raw.toNat] ++ disassemble ⟨raw⟩ ++ [0x0A]))

def disassembleRange (limit : StringLimit) (mem : ByteStore) (start : Word) (count : Nat) : Except ListingError (List Byte) :=
  limit.text (count*48) (fun i => (listed mem start i).mapError .memory) (List.range count)

-- `ptr` is not checked: `none` is a byte outside the memory.
def byteAt (mem : ByteStore) (addr : Word) : Option Byte :=
  if addr.toNat < mem.size then some (mem.byte addr.toNat) else none

-- The line of the sixteen bytes, or fewer at the end, from the i-th on.
def dumped (mem : ByteStore) (addr : Word) (count i : Nat) : Option (List Byte) :=
  let n := min 16 (count-i)
  ((List.range n).mapM fun j => byteAt mem (addr+BitVec.ofNat 32 (i+j))).map fun bytes =>
    snprintf 160 (print (dumpLine n) (((addr+BitVec.ofNat 32 i).toNat : Int) :: bytes.map fun b => (b.toNat : Int))) ++ [0x0A]

def dumpMemory (limit : StringLimit) (mem : ByteStore) (addr : Word) (count : Nat) : ExceptT ListingError Option (List Byte) :=
  limit.text (count*20) (fun row => .lift (dumped mem addr count (16*row))) (List.range ((count+15)/16))

end Debugger

theorem mapM_pure_of {M : Type → Type} [Monad M] [LawfulMonad M] {α β : Type} {f : α → M β} {g : α → β} {l : List α}
    (all : ∀ x ∈ l, f x = pure (g x)) : l.mapM f = pure (l.map g) := by
  induction l with
  | nil => rfl
  | cons x l ih => rw [List.mapM_cons,all x (.head _),pure_bind,ih fun y member => all y (.tail _ member),pure_bind,List.map_cons]

namespace StringLimit
variable {M : Type → Type} [Monad M] [MonadExceptOf ListingError M] [LawfulMonad M] {limit : StringLimit} {line : Nat → M (List Byte)}
  {g : Nat → List Byte} {width : Nat} {rows : List Nat}

theorem append_fits {i : Nat} {s : List Byte} (passes : line i = pure (g i)) (fits : s.length+(g i).length ≤ limit.maxSize) :
    limit.append line s i = pure (s ++ g i) := by
  unfold append
  rw [passes,pure_bind,if_neg (Nat.not_lt.mpr fits)]

theorem rows_append {s : List Byte} (passes : ∀ i ∈ rows, line i = pure (g i)) (short : ∀ i ∈ rows, (g i).length ≤ width)
    (fits : s.length+rows.length*width ≤ limit.maxSize) : rows.foldlM (limit.append line) s = pure (s ++ (rows.map g).flatten) := by
  induction rows generalizing s with
  | nil => simp
  | cons i rows ih =>
    have here := short i (.head _)
    rw [List.length_cons,Nat.succ_mul] at fits
    rw [List.foldlM_cons,append_fits (passes i (.head _)) (by omega),pure_bind,
      ih (fun j member => passes j (.tail _ member)) (fun j member => short j (.tail _ member)) (by rw [List.length_append]; omega),
      List.append_assoc]
    rfl

theorem append_throws {line : Nat → Except ListingError (List Byte)} {i : Nat} {err : ListingError} (fails : line i = .error err)
    (s : List Byte) : limit.append line s i = .error err := by
  unfold append
  rw [fails]
  rfl

theorem text_fits {reserved : Nat} (passes : ∀ i ∈ rows, line i = pure (g i)) (short : ∀ i ∈ rows, (g i).length ≤ width)
    (reserves : reserved % 2^64 ≤ limit.maxSize) (fits : rows.length*width ≤ limit.maxSize) :
    limit.text reserved line rows = pure (rows.map g).flatten := by
  unfold text reserve
  rw [if_neg (Nat.not_lt.mpr reserves),pure_bind,rows_append passes short (by rwa [List.length_nil,Nat.zero_add])]
  rfl

end StringLimit

theorem getLines_terminated {lines : List (List Byte)} (oneLine : ∀ line ∈ lines, (0x0A : Byte) ∉ line) :
    getLines (lines.map (· ++ [0x0A])).flatten = lines := by
  induction lines with
  | nil => rfl
  | cons line lines ih =>
    rw [List.map_cons,List.flatten_cons,List.append_assoc,List.singleton_append,getLines_line (oneLine line (.head _)),
      ih fun next member => oneLine next (.tail _ member)]

theorem disassemble_oneLine (i : Instruction) : (0x0A : Byte) ∉ disassemble i := by
  cases known : i.opcode with
  | none =>
    rw [disassemble_unknown known]
    decide
  | some op =>
    rw [disassemble_known known]
    refine not_mem_print (lineOf_fits op i) ?_ (by decide) (by decide) newline_plain
    cases op <;> decide

theorem disassemble_stops (i : Instruction) : Stops isDigit (disassemble i) := by
  intro b first
  cases known : i.opcode with
  | none =>
    rw [disassemble_unknown known] at first
    cases first
    rfl
  | some op =>
    rw [disassemble_known known] at first
    cases op <;> cases first <;> rfl

theorem disassemble_short (i : Instruction) : (disassemble i).length < 64 := by
  cases known : i.opcode with
  | none =>
    rw [disassemble_unknown known]
    decide
  | some op =>
    rw [disassemble_known known]
    exact disassemble_room op i

theorem word_short (w : Word) : (integer (w.toNat : Int)).length ≤ 11 := by
  have small := w.isLt
  exact integer_length (by decide) (by omega)

theorem digits_fit {n : Nat} (w : BitVec n) {width : Nat} {fields : List Field} {args : List Int} (wide : 2^n ≤ 16^width) (rest : Suits fields args) :
    Suits (.digits 16 width :: fields) ((w.toNat : Int) :: args) := by
  have small := w.isLt
  refine ⟨by decide,by decide,Int.natCast_nonneg _,?_,rest⟩
  exact_mod_cast Nat.lt_of_lt_of_le small wide

namespace Debugger
variable {limit : StringLimit} {mem : ByteStore} {start addr : Word} {count : Nat}

theorem listingLine_fits (a raw : Word) : Suits listingLine [(a.toNat : Int),(raw.toNat : Int)] :=
  digits_fit a (by decide) (digits_fit raw (by decide) rfl)

theorem listingLine_length (a raw : Word) : (print listingLine [(a.toNat : Int),(raw.toNat : Int)]).length ≤ 20 := by
  have short : ∀ v ∈ [(a.toNat : Int),(raw.toNat : Int)], (integer v).length ≤ 11 := by
    intro v member
    rcases List.mem_cons.mp member with rfl | second
    · exact word_short _
    · cases List.mem_singleton.mp second
      exact word_short _
  have front := @print_length 11 listingLine _ short
  have room : room 11 listingLine = 20 := by decide
  omega

def listing (mem : ByteStore) (start : Word) (i : Nat) : List Byte :=
  print listingLine [((listedAt start i).toNat : Int),((mem.word (listedAt start i).toNat).toNat : Int)] ++
    disassemble ⟨mem.word (listedAt start i).toNat⟩

theorem listing_length (i : Nat) : (listing mem start i ++ [0x0A]).length ≤ 84 := by
  have front := listingLine_length (listedAt start i) (mem.word (listedAt start i).toNat)
  have back := disassemble_short ⟨mem.word (listedAt start i).toNat⟩
  unfold listing
  rw [List.length_append,List.length_append,List.length_singleton]
  omega

theorem listed_inside {i : Nat} (inside : (listedAt start i).toNat+4 ≤ mem.size) :
    listed mem start i = .ok (listing mem start i ++ [0x0A]) := by
  have read : VirtualSRAM.read32 mem (listedAt start i) = .ok (mem.word (listedAt start i).toNat) := if_pos inside
  have short := @listing_length mem start i
  unfold listed
  rw [read]
  exact congrArg Except.ok (snprintf_fits (Nat.lt_of_le_of_lt short (by decide)))

theorem listed_within {rows : Nat} (inside : ∀ i < rows, (listedAt start i).toNat+4 ≤ mem.size) :
    ∀ i ∈ List.range rows, (listed mem start i).mapError ListingError.memory = .ok (listing mem start i ++ [0x0A]) := by
  intro i member
  rw [listed_inside (inside i (List.mem_range.mp member))]
  rfl

theorem listing_reserves (fits : count*84 ≤ limit.maxSize) : count*48 % 2^64 ≤ limit.maxSize := by
  have reserved := Nat.mod_le (count*48) (2^64)
  omega

theorem listing_oneLine (i : Nat) : (0x0A : Byte) ∉ listing mem start i := by
  intro newline
  rcases List.mem_append.mp newline with front | back
  · exact not_mem_print (listingLine_fits _ _) (by decide) (by decide) (by decide) newline_plain front
  · exact disassemble_oneLine _ back

theorem listing_reads_back (fits : count*84 ≤ limit.maxSize) (inside : ∀ i < count, (listedAt start i).toNat+4 ≤ mem.size) :
    ∃ text, disassembleRange limit mem start count = .ok text ∧ (getLines text).map (read listingLine) =
      (List.range count).map fun i => some ([((listedAt start i).toNat : Int),((mem.word (listedAt start i).toNat).toNat : Int)],
        disassemble ⟨mem.word (listedAt start i).toNat⟩) := by
  have oneLine : ∀ l ∈ (List.range count).map (listing mem start), (0x0A : Byte) ∉ l := by
    intro l member
    obtain ⟨i,_,rfl⟩ := List.mem_map.mp member
    exact listing_oneLine i
  have lines := getLines_terminated oneLine
  rw [List.map_map] at lines
  refine ⟨_,StringLimit.text_fits (listed_within inside) (fun i _ => listing_length i) (listing_reserves fits) (by rwa [List.length_range]),?_⟩
  have same : (fun i => listing mem start i ++ [0x0A]) = (fun l => l ++ [0x0A]) ∘ listing mem start := rfl
  rw [same,lines,List.map_map]
  apply List.map_congr_left
  intro i _
  exact read_print (listingLine_fits _ _) (by decide) (disassemble_stops _)

theorem listing_too_long (long : limit.maxSize < count*48 % 2^64) : disassembleRange limit mem start count = .error .length := by
  unfold disassembleRange StringLimit.text StringLimit.reserve
  rw [if_pos long]
  rfl

theorem listing_throws (fits : count*84 ≤ limit.maxSize) {i : Nat} (within : i < count)
    (before : ∀ j < i, (listedAt start j).toNat+4 ≤ mem.size) (beyond : mem.size < (listedAt start i).toNat+4) :
    disassembleRange limit mem start count = .error (.memory (.sramBounds (listedAt start i) 4)) := by
  have fails : (listed mem start i).mapError ListingError.memory = .error (.memory (.sramBounds (listedAt start i) 4)) := by
    have read : VirtualSRAM.read32 mem (listedAt start i) = .error (.sramBounds (listedAt start i) 4) := if_neg (by omega)
    unfold listed
    rw [read]
    rfl
  obtain ⟨later,split⟩ : ∃ later, List.range count = List.range i ++ i :: later := by
    refine ⟨(List.range (count-i-1)).map fun k => i+1+k,?_⟩
    rw [show count = i+(1+(count-i-1)) by omega,List.range_add,List.range_add]
    simp
  have room : ([] : List Byte).length+(List.range i).length*84 ≤ limit.maxSize := by
    rw [List.length_nil,List.length_range]
    omega
  have first := StringLimit.rows_append (listed_within before) (fun j _ => listing_length j) room
  have ends := @StringLimit.append_throws limit (fun i => (listed mem start i).mapError .memory) i _ fails
  unfold disassembleRange StringLimit.text StringLimit.reserve
  rw [if_neg (Nat.not_lt.mpr (listing_reserves fits)),pure_bind,split,List.foldlM_append,first,pure_bind,List.foldlM_cons,ends]
  rfl

def dumpBytes (line : List Byte) : List Int := ((read (dumpLine ((line.length-10)/3)) line).map fun r => r.1.drop 1).getD []

theorem dumpLine_fits (a : Word) (bytes : List Byte) :
    Suits (dumpLine bytes.length) ((a.toNat : Int) :: bytes.map fun b => (b.toNat : Int)) := by
  refine digits_fit a (by decide) ?_
  induction bytes with
  | nil => rfl
  | cons b bytes ih => exact digits_fit b (by decide) ih

theorem dumpLine_plain (n : Nat) : delimited (dumpLine n) = true ∧ avoids 0x0A (dumpLine n) = true := by
  have cells (n : Nat) : delimited (dumpCells n) = true ∧ avoids 0x0A (dumpCells n) = true := by
    induction n with
    | zero => exact ⟨rfl,rfl⟩
    | succ n ih => exact ih
  exact cells n

theorem dumpLine_length (a : Word) (bytes : List Byte) :
    (print (dumpLine bytes.length) ((a.toNat : Int) :: bytes.map fun b => (b.toNat : Int))).length = 10+3*bytes.length := by
  have cells : (print (dumpCells bytes.length) (bytes.map fun b => (b.toNat : Int))).length = 3*bytes.length := by
    induction bytes with
    | nil => rfl
    | cons b bytes ih =>
      change (fixed 16 2 b.toNat ++ (ascii " " ++ print (dumpCells bytes.length) (bytes.map fun b => (b.toNat : Int)))).length =
        3*(bytes.length+1)
      rw [List.length_append,List.length_append,fixed_length,ih]
      change 2+(1+3*bytes.length) = _
      omega
  change (fixed 16 8 a.toNat ++ (ascii ": " ++ print (dumpCells bytes.length) (bytes.map fun b => (b.toNat : Int)))).length = _
  rw [List.length_append,List.length_append,fixed_length,cells]
  change 8+(2+3*bytes.length) = _
  omega

theorem dumpBytes_line (a : Word) (bytes : List Byte) :
    dumpBytes (print (dumpLine bytes.length) ((a.toNat : Int) :: bytes.map fun b => (b.toNat : Int))) = bytes.map fun b => (b.toNat : Int) := by
  have stops : Stops isDigit [] := fun b here => by cases here
  have round := read_print (dumpLine_fits a bytes) (dumpLine_plain bytes.length).1 stops
  rw [List.append_nil] at round
  unfold dumpBytes
  rw [dumpLine_length,Nat.add_sub_cancel_left,Nat.mul_div_cancel_left _ (by decide),round]
  rfl

theorem rows_range {rows count : Nat} (enough : count ≤ 16*rows) :
    (List.range rows).flatMap (fun row => (List.range (min 16 (count-16*row))).map (16*row+·)) = List.range count := by
  induction rows generalizing count with
  | zero =>
    cases Nat.le_zero.mp enough
    rfl
  | succ rows ih =>
    have earlier := @ih (min count (16*rows)) (Nat.min_le_right ..)
    have same : (List.range rows).flatMap (fun row => (List.range (min 16 (count-16*row))).map (16*row+·)) =
        (List.range rows).flatMap fun row => (List.range (min 16 (min count (16*rows)-16*row))).map (16*row+·) := by
      apply List.flatMap_congr
      intro row member
      have below := List.mem_range.mp member
      rw [show min 16 (count-16*row) = min 16 (min count (16*rows)-16*row) by omega]
    rw [List.range_succ,List.flatMap_append,same,earlier,List.flatMap_singleton]
    by_cases full : count ≤ 16*rows
    · rw [show min 16 (count-16*rows) = 0 by omega,Nat.min_eq_left full]
      exact List.append_nil _
    · have total : count = 16*rows+min 16 (count-16*rows) := by omega
      rw [Nat.min_eq_right (by omega)]
      conv_rhs => rw [total,List.range_add]

theorem byteAt_inside {a : Word} (inside : a.toNat < mem.size) : byteAt mem a = some (mem.byte a.toNat) := if_pos inside

theorem dump_reads_back (inside : addr.toNat+count ≤ mem.size) (addressed : mem.size ≤ 2^32) :
    ∃ text, dumpMemory limit mem addr count = some (.ok text) ∧
      (getLines text).flatMap dumpBytes = (mem.read addr.toNat count).map fun b => (b.toNat : Int) := by
  let cells := fun i => (List.range (min 16 (count-i))).map fun j => mem.byte (addr.toNat+(i+j))
  let line := fun i => print (dumpLine (cells i).length) (((addr+BitVec.ofNat 32 i).toNat : Int) :: (cells i).map fun b => (b.toNat : Int))
  have length (i : Nat) : (cells i).length = min 16 (count-i) := by simp [cells]
  have passes : ∀ i < count, dumped mem addr count i = some (line i ++ [0x0A]) := by
    intro i before
    have loop : (List.range (min 16 (count-i))).mapM (fun j => byteAt mem (addr+BitVec.ofNat 32 (i+j))) = some (cells i) := by
      apply mapM_pure_of
      intro j member
      have below := List.mem_range.mp member
      have exact : (addr+BitVec.ofNat 32 (i+j)).toNat = addr.toNat+(i+j) := by
        rw [BitVec.toNat_add,BitVec.toNat_ofNat]
        omega
      rw [byteAt_inside (by omega),exact]
      rfl
    unfold dumped
    dsimp only
    rw [loop,Option.map_some,snprintf_fits]
    · rw [← length]
    · rw [← length,dumpLine_length,length]
      omega
  have rows : ∀ row ∈ List.range ((count+15)/16), ExceptT.lift (dumped mem addr count (16*row)) =
      (pure (line (16*row) ++ [0x0A]) : ExceptT ListingError Option (List Byte)) := by
    intro row member
    have below := List.mem_range.mp member
    rw [passes (16*row) (by omega)]
    rfl
  have short : ∀ row ∈ List.range ((count+15)/16), (line (16*row) ++ [0x0A]).length ≤ 59 := by
    intro row _
    rw [List.length_append,dumpLine_length,length,List.length_singleton]
    omega
  have wide := limit.wide
  have reserved := Nat.mod_le (count*20) (2^64)
  have oneLine : ∀ l ∈ (List.range ((count+15)/16)).map (fun row => line (16*row)), (0x0A : Byte) ∉ l := by
    intro l member
    obtain ⟨row,_,rfl⟩ := List.mem_map.mp member
    exact not_mem_print (dumpLine_fits _ _) (dumpLine_plain _).2 (by decide) (by decide) newline_plain
  have lines := getLines_terminated oneLine
  rw [List.map_map] at lines
  refine ⟨_,StringLimit.text_fits rows short (by omega) (by rw [List.length_range]; omega),?_⟩
  have same : (fun row => line (16*row) ++ [0x0A]) = (fun l => l ++ [0x0A]) ∘ fun row => line (16*row) := rfl
  rw [same,lines,List.flatMap_map]
  have each (row : Nat) : dumpBytes (line (16*row)) =
      ((List.range (min 16 (count-16*row))).map (16*row+·)).map fun k => ((mem.byte (addr.toNat+k)).toNat : Int) := by
    rw [List.map_map]
    exact (dumpBytes_line _ _).trans (List.map_map ..)
  have whole : (mem.read addr.toNat count).map (fun b => (b.toNat : Int)) =
      (List.range count).map fun k => ((mem.byte (addr.toNat+k)).toNat : Int) := List.map_map ..
  simp only [each]
  rw [← List.map_flatMap,rows_range (by omega),whole]

def libstdcxx : StringLimit := ⟨2^62-1,Nat.le_refl _⟩

theorem dump_reads_back_rows : ∃ text, dumpMemory libstdcxx (zeroStore 20) 1 18 = some (.ok text) ∧
    (getLines text).flatMap dumpBytes = List.replicate 18 0 := by
  obtain ⟨text,dumped,bytes⟩ := @dump_reads_back libstdcxx (zeroStore 20) 1 18 (by decide) (by decide)
  exact ⟨text,dumped,bytes.trans (by decide)⟩

-- The listing of a stretch of memory: nothing is read when what is reserved for it is more than a
-- string can hold; a listing that fits gives the words and their disassembly back off its lines, or
-- throws the first word outside the memory.
theorem listing_exact (limit : StringLimit) (mem : ByteStore) (start : Word) (count : Nat) :
    (limit.maxSize < count*48 % 2^64 → disassembleRange limit mem start count = .error .length) ∧
    (count*84 ≤ limit.maxSize →
      ((∀ i < count, (listedAt start i).toNat+4 ≤ mem.size) → ∃ text, disassembleRange limit mem start count = .ok text ∧
        (getLines text).map (read listingLine) = (List.range count).map fun i =>
          some ([((listedAt start i).toNat : Int),((mem.word (listedAt start i).toNat).toNat : Int)],
            disassemble ⟨mem.word (listedAt start i).toNat⟩)) ∧
      ∀ i < count, (∀ j < i, (listedAt start j).toNat+4 ≤ mem.size) → mem.size < (listedAt start i).toNat+4 →
        disassembleRange limit mem start count = .error (.memory (.sramBounds (listedAt start i) 4))) :=
  ⟨listing_too_long,fun fits => ⟨listing_reads_back fits,fun _ => listing_throws fits⟩⟩

-- Two words asked of a memory of one, a NOP, and more than can be reserved for.
theorem listing_exact_word : (∃ text, disassembleRange libstdcxx (zeroStore 4) 0 1 = .ok text ∧
      (getLines text).map (read listingLine) = [some ([0,0],ascii "NOP")]) ∧
    disassembleRange libstdcxx (zeroStore 4) 0 2 = .error (.memory (.sramBounds 4 4)) ∧
    disassembleRange libstdcxx (zeroStore 4) 0 (2^58) = .error .length := by
  obtain ⟨text,listed,lines⟩ := ((listing_exact libstdcxx (zeroStore 4) 0 1).2 (by decide)).1 (by decide)
  refine ⟨⟨text,listed,lines.trans (by decide)⟩,?_,?_⟩
  · exact ((listing_exact libstdcxx (zeroStore 4) 0 2).2 (by decide)).2 1 (by decide) (by decide) (by decide)
  · exact (listing_exact libstdcxx (zeroStore 4) 0 (2^58)).1 (by decide)

end Debugger
end Novium
