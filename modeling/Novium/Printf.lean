import Novium.Text

-- Text put together from literals, numbers and digits of a fixed width, as the printf family
-- does, and the reader that takes it apart again.
namespace Printf
open Storage Text

inductive Field where
  | text (t : List Byte)
  | number
  | digits (base width : Nat)

-- Upper case, as %X prints it.
def digitByte (d : Nat) : Byte := if d < 10 then BitVec.ofNat 8 (0x30+d) else BitVec.ofNat 8 (0x37+d)
def digitValue (b : Byte) : Nat := if b.toNat < 0x40 then b.toNat-0x30 else b.toNat-0x37

-- The last digits of a number, zeros in front.
def fixed (base : Nat) : Nat → Nat → List Byte
  | 0,_ => []
  | width+1,n => fixed base width (n/base) ++ [digitByte (n%base)]

def value (base : Nat) (s : List Byte) : Nat := s.foldl (fun n b => base*n+digitValue b) 0

-- A number as %d prints it.
def integer (z : Int) : List Byte := if z < 0 then 0x2D :: shown z.natAbs else shown z.natAbs

def print : List Field → List Int → List Byte
  | .text t :: fields,args => t ++ print fields args
  | .number :: fields,a :: args => integer a ++ print fields args
  | .digits base width :: fields,a :: args => fixed base width a.toNat ++ print fields args
  | _,_ => []

def read : List Field → List Byte → Option (List Int × List Byte)
  | [],s => some ([],s)
  | .text t :: fields,s => if t.isPrefixOf s then read fields (s.drop t.length) else none
  | .number :: fields,s => do
    let (a,rest) ← readInt s
    let (args,rest) ← read fields rest
    return (a :: args,rest)
  | .digits base width :: fields,s =>
    if width ≤ s.length then (read fields (s.drop width)).map fun r => ((value base (s.take width) : Int) :: r.1,r.2) else none

-- One argument for each field, and digits enough for it.
def Suits : List Field → List Int → Prop
  | [],args => args = []
  | .text _ :: fields,args => Suits fields args
  | .number :: fields,_ :: args => Suits fields args
  | .digits base width :: fields,a :: args => 2 ≤ base ∧ base ≤ 16 ∧ 0 ≤ a ∧ a < (base^width : Nat) ∧ Suits fields args
  | _ :: _,[] => False

-- What follows a number shows where it ends.
def delimited : List Field → Bool
  | [] => true
  | .number :: .text t :: fields => t.head?.any (fun b => !isDigit b) && delimited (.text t :: fields)
  | .number :: fields => fields.isEmpty
  | _ :: fields => delimited fields

theorem fixed_length (base width n : Nat) : (fixed base width n).length = width := by
  induction width generalizing n with
  | zero => rfl
  | succ width ih =>
    unfold fixed
    rw [List.length_append,ih]
    rfl

theorem digit_read : ∀ d < 16, digitValue (digitByte d) = d := by decide

theorem value_fixed {base width n : Nat} (least : 2 ≤ base) (most : base ≤ 16) (small : n < base^width) :
    value base (fixed base width n) = n := by
  induction width generalizing n with
  | zero =>
    rw [pow_zero] at small
    exact (Nat.lt_one_iff.mp small).symm
  | succ width ih =>
    have below : n/base < base^width := Nat.div_lt_of_lt_mul (by rwa [← Nat.pow_succ'])
    have digit : n%base < 16 := Nat.lt_of_lt_of_le (Nat.mod_lt n (by omega)) most
    have high : value base (fixed base width (n/base)) = n/base := ih below
    unfold value at high ⊢
    unfold fixed
    rw [List.foldl_append,high,List.foldl_cons,List.foldl_nil,digit_read _ digit]
    exact Nat.div_add_mod n base

theorem newline_plain : ∀ d < 16, (0x0A : Byte) ≠ digitByte d := by decide

theorem mem_fixed {base width n : Nat} {b : Byte} (positive : 0 < base) (most : base ≤ 16) (member : b ∈ fixed base width n) :
    ∃ d < 16, b = digitByte d := by
  induction width generalizing n with
  | zero => cases member
  | succ width ih =>
    unfold fixed at member
    rcases List.mem_append.mp member with earlier | last
    · exact ih earlier
    · exact ⟨n%base,Nat.lt_of_lt_of_le (Nat.mod_lt n positive) most,List.mem_singleton.mp last⟩

theorem readInt_integer (z : Int) {rest : List Byte} (stops : Stops isDigit rest) : readInt (integer z ++ rest) = some (z,rest) := by
  unfold integer
  by_cases negative : z < 0
  · have taken := stops.taken fun _ => shown_digits (n := z.natAbs)
    have dropped := stops.dropped fun _ => shown_digits (n := z.natAbs)
    have space : isSpace 0x2D = false := by decide
    rw [if_pos negative]
    unfold readInt
    simp only [List.cons_append,List.dropWhile_cons_of_neg (Bool.eq_false_iff.mp space),List.head?_cons,BEq.rfl,Bool.true_or,
      if_true,List.drop_succ_cons,List.drop_zero,taken,dropped,List.isEmpty_iff,shown_ne_nil,if_false,decimal_shown]
    rw [show -(z.natAbs : Int) = z by omega]
  · rw [if_neg negative,readInt_shown _ stops,show (z.natAbs : Int) = z by omega]

theorem delimited_number {fields : List Field} (args : List Int) {s : List Byte} (apart : delimited (.number :: fields) = true)
    (stops : Stops isDigit s) : delimited fields = true ∧ Stops isDigit (print fields args ++ s) := by
  cases fields with
  | nil => exact ⟨rfl,stops⟩
  | cons field fields =>
    cases field with
    | number => cases apart
    | digits base width => cases apart
    | text t =>
      obtain ⟨first,rest⟩ := Bool.and_eq_true_iff.mp apart
      refine ⟨rest,?_⟩
      cases t with
      | nil => cases first
      | cons b t =>
        intro c here
        cases here
        exact (Bool.not_eq_true' _).mp first

theorem read_print {fields : List Field} {args : List Int} {s : List Byte} (fits : Suits fields args)
    (apart : delimited fields = true) (stops : Stops isDigit s) : read fields (print fields args ++ s) = some (args,s) := by
  induction fields generalizing args with
  | nil =>
    cases fits
    rfl
  | cons field fields ih =>
    cases field with
    | text t =>
      have whole : print (.text t :: fields) args ++ s = t ++ (print fields args ++ s) := by
        rw [print,List.append_assoc]
      rw [whole,read,if_pos (List.isPrefixOf_iff_prefix.mpr (List.prefix_append ..)),List.drop_left]
      exact ih fits apart
    | number =>
      cases args with
      | nil => cases fits
      | cons a args =>
        have ends := delimited_number args apart stops
        have whole : print (.number :: fields) (a :: args) ++ s = integer a ++ (print fields args ++ s) := by
          rw [print,List.append_assoc]
        rw [whole,read,readInt_integer a ends.2]
        simp [ih fits ends.1]
    | digits base width =>
      cases args with
      | nil => cases fits
      | cons a args =>
        obtain ⟨least,most,positive,small,rest⟩ := fits
        have whole : print (.digits base width :: fields) (a :: args) ++ s = fixed base width a.toNat ++ (print fields args ++ s) := by
          rw [print,List.append_assoc]
        have length := fixed_length base width a.toNat
        rw [whole,read,if_pos (by rw [List.length_append,length]; exact Nat.le_add_right ..)]
        rw [List.drop_left' length,List.take_left' length,value_fixed least most (by omega),ih rest apart]
        simp [Int.toNat_of_nonneg positive]

theorem stops_append {accepts : Byte → Bool} {s t : List Byte} (first : Stops accepts s) (second : Stops accepts t) :
    Stops accepts (s ++ t) := by
  cases s with
  | nil => exact second
  | cons b s => exact first

theorem read_other {t : List Byte} {fields : List Field} {s : List Byte} (other : t.isPrefixOf s = false) :
    read (.text t :: fields) s = none := by
  simp [Printf.read,other]

def readPiece (piece : List Field) (s : List Byte) : Option (List Int) × List Byte :=
  match read piece s with
  | some (args,rest) => (some args,rest)
  | none => (none,s)

theorem readPiece_print {piece : List Field} {args : List Int} {s : List Byte} (fits : Suits piece args)
    (apart : delimited piece = true) (stops : Stops isDigit s) : readPiece piece (print piece args ++ s) = (some args,s) := by
  simp [readPiece,read_print fits apart stops]

theorem readPiece_other {t : List Byte} {fields : List Field} {s : List Byte} (other : t.isPrefixOf s = false) :
    readPiece (.text t :: fields) s = (none,s) := by
  simp [readPiece,read_other other]

theorem print_inj {fields : List Field} {args args' : List Int} {s s' : List Byte} (fits : Suits fields args) (fits' : Suits fields args')
    (apart : delimited fields = true) (stops : Stops isDigit s) (stops' : Stops isDigit s')
    (same : print fields args ++ s = print fields args' ++ s') : args = args' ∧ s = s' := by
  have first := read_print fits apart stops
  rw [same,read_print fits' apart stops'] at first
  cases first
  exact ⟨rfl,rfl⟩

-- A buffer of `size` bytes holds this much of a text.
def snprintf (size : Nat) (s : List Byte) : List Byte := s.take (size-1)

theorem snprintf_fits {size : Nat} {s : List Byte} (room : s.length < size) : snprintf size s = s :=
  List.take_of_length_le (by omega)

theorem shown_length {n width : Nat} (positive : 0 < width) (small : n < 10^width) : (shown n).length ≤ width := by
  unfold shown
  rw [List.length_map]
  exact (Nat.length_toDigits_le_iff (by decide) positive).mpr small

theorem integer_length {z : Int} {width : Nat} (positive : 0 < width) (small : z.natAbs < 10^width) : (integer z).length ≤ width+1 := by
  have digits := shown_length positive small
  unfold integer
  split
  · exact Nat.succ_le_succ digits
  · exact Nat.le_succ_of_le digits

-- A byte that no number is made of and that is in no literal is nowhere in the text.
def avoids (b : Byte) : List Field → Bool
  | [] => true
  | .text t :: fields => !t.contains b && avoids b fields
  | _ :: fields => avoids b fields

theorem not_mem_integer {b : Byte} (z : Int) (digit : isDigit b = false) (sign : b ≠ 0x2D) : b ∉ integer z := by
  unfold integer
  split
  · exact fun member => (List.mem_cons.mp member).elim sign (not_mem_shown _ digit)
  · exact not_mem_shown _ digit

theorem not_mem_print {b : Byte} {fields : List Field} {args : List Int} (fits : Suits fields args) (avoided : avoids b fields = true)
    (digit : isDigit b = false) (sign : b ≠ 0x2D) (letter : ∀ d < 16, b ≠ digitByte d) : b ∉ print fields args := by
  fun_induction print fields args with
  | case1 t fields args ih =>
    obtain ⟨here,later⟩ := Bool.and_eq_true_iff.mp avoided
    simp only [Bool.not_eq_true',List.contains_eq_mem,decide_eq_false_iff_not] at here
    exact fun member => (List.mem_append.mp member).elim here (ih fits later)
  | case2 fields a args ih =>
    exact fun member => (List.mem_append.mp member).elim (not_mem_integer a digit sign) (ih fits avoided)
  | case3 base width fields a args ih =>
    obtain ⟨least,most,_,_,rest⟩ := fits
    intro member
    rcases List.mem_append.mp member with here | later
    · obtain ⟨d,small,same⟩ := mem_fixed (by omega) most here
      exact letter d small same
    · exact ih rest avoided later
  | case4 => exact List.not_mem_nil

def room (number : Nat) : List Field → Nat
  | [] => 0
  | .text t :: fields => t.length+room number fields
  | .number :: fields => number+room number fields
  | .digits _ width :: fields => width+room number fields

theorem print_length {number : Nat} {fields : List Field} {args : List Int} (short : ∀ a ∈ args, (integer a).length ≤ number) :
    (print fields args).length ≤ room number fields := by
  fun_induction print fields args with
  | case1 t fields args ih =>
    rw [List.length_append]
    exact Nat.add_le_add_left (ih short) _
  | case2 fields a args ih =>
    rw [List.length_append]
    exact Nat.add_le_add (short a (.head _)) (ih fun b member => short b (.tail _ member))
  | case3 base width fields a args ih =>
    rw [List.length_append,fixed_length]
    exact Nat.add_le_add_left (ih fun b member => short b (.tail _ member)) _
  | case4 => exact Nat.zero_le _

end Printf
