import Mathlib.Tactic.IntervalCases

namespace Storage

abbrev Byte := BitVec 8

-- A block of `size` bytes. Accesses are checked against `size` by the code that
-- makes them; nothing outside the block is ever given a meaning by a reader.
structure ByteStore where
  size : Nat
  byte : Nat → Byte

def wordBytes (w : BitVec 32) : List Byte :=
  [w.extractLsb' 0 8,w.extractLsb' 8 8,w.extractLsb' 16 8,w.extractLsb' 24 8]

namespace ByteStore

def write (s : ByteStore) (addr : Nat) (data : List Byte) : ByteStore :=
  {s with byte := fun i => if addr ≤ i then data[i-addr]?.getD (s.byte i) else s.byte i}

def read (s : ByteStore) (addr count : Nat) : List Byte :=
  (List.range count).map fun k => s.byte (addr+k)

def word (s : ByteStore) (addr : Nat) : BitVec 32 :=
  s.byte (addr+3) ++ s.byte (addr+2) ++ s.byte (addr+1) ++ s.byte addr

def dword (s : ByteStore) (addr : Nat) : BitVec 64 := s.word (addr+4) ++ s.word addr

def cleared (s : ByteStore) : ByteStore := {s with byte := fun _ => 0}

@[simp] theorem write_size (s : ByteStore) (addr : Nat) (data : List Byte) :
    (s.write addr data).size = s.size := rfl
@[simp] theorem read_length (s : ByteStore) (addr count : Nat) : (s.read addr count).length = count := by
  simp [read]

theorem write_outside (s : ByteStore) (addr : Nat) (data : List Byte) (i : Nat)
    (apart : i < addr ∨ addr + data.length ≤ i) : (s.write addr data).byte i = s.byte i := by
  unfold write
  dsimp only
  split
  · rw [List.getElem?_eq_none (by omega)]
    rfl
  · rfl

theorem write_within (s : ByteStore) (addr : Nat) {data : List Byte} {k : Nat} {b : Byte} (listed : data[k]? = some b) :
    (s.write addr data).byte (addr+k) = b := by
  unfold write
  dsimp only
  rw [if_pos (Nat.le_add_right addr k),Nat.add_sub_cancel_left,listed]
  rfl

theorem write_wordBytes_byte (s : ByteStore) (addr : Nat) (w : BitVec 32) (i : Nat) :
    (s.write addr (wordBytes w)).byte i = if addr ≤ i ∧ i < addr+4 then w.extractLsb' (8*(i-addr)) 8 else s.byte i := by
  split
  · rename_i inside
    obtain ⟨k,rfl⟩ := Nat.exists_eq_add_of_le inside.1
    have small : k < 4 := by omega
    apply s.write_within
    rw [Nat.add_sub_cancel_left]
    interval_cases k <;> rfl
  · rename_i outside
    apply s.write_outside
    change i < addr ∨ addr+4 ≤ i
    omega

theorem write_nothing (s : ByteStore) (addr : Nat) : s.write addr [] = s := by
  unfold write
  simp

theorem write_append (s : ByteStore) (addr : Nat) (first rest : List Byte) :
    s.write addr (first ++ rest) = (s.write addr first).write (addr+first.length) rest := by
  unfold write
  congr 1
  funext i
  dsimp only
  by_cases low : addr ≤ i
  · by_cases inside : i-addr < first.length
    · rw [if_pos low,if_neg (show ¬ addr+first.length ≤ i by omega),if_pos low,List.getElem?_append_left inside]
    · have past : first[i-addr]? = none := List.getElem?_eq_none (by omega)
      rw [if_pos low,if_pos (show addr+first.length ≤ i by omega),if_pos low,past,
        List.getElem?_append_right (by omega),Nat.sub_sub]
      rfl
  · rw [if_neg low,if_neg (show ¬ addr+first.length ≤ i by omega),if_neg low]

theorem word_congr {s t : ByteStore} {addr : Nat} (same : ∀ k < 4, s.byte (addr+k) = t.byte (addr+k)) :
    s.word addr = t.word addr := by
  have zero := same 0 (by decide)
  simp only [Nat.add_zero] at zero
  simp only [word,zero,same 1 (by decide),same 2 (by decide),same 3 (by decide)]

theorem read_listed (s : ByteStore) (addr : Nat) {count k : Nat} (inside : k < count) :
    (s.read addr count)[k]? = some (s.byte (addr+k)) := by
  simp [read,inside]

theorem word_copied (s t : ByteStore) (dest src : Nat) {count k : Nat} (inside : k+4 ≤ count) :
    (t.write dest (s.read src count)).word (dest+k) = s.word (src+k) := by
  have byte : ∀ j < 4, (t.write dest (s.read src count)).byte (dest+k+j) = s.byte (src+k+j) := by
    intro j small
    rw [Nat.add_assoc,Nat.add_assoc]
    exact t.write_within dest (s.read_listed src (by omega))
  unfold word
  rw [byte 3 (by decide),byte 2 (by decide),byte 1 (by decide)]
  exact congrArg (_ ++ ·) (byte 0 (by decide))

theorem word_apart (s : ByteStore) (addr : Nat) (data : List Byte) (k : Nat)
    (apart : k+4 ≤ addr ∨ addr+data.length ≤ k) : (s.write addr data).word k = s.word k := by
  apply word_congr
  intro j small
  exact s.write_outside addr data (k+j) (by omega)

end ByteStore

theorem word_of_bytes (w : BitVec 32) :
    (w.extractLsb' 24 8 ++ w.extractLsb' 16 8 ++ w.extractLsb' 8 8 ++ w.extractLsb' 0 8 : BitVec 32) = w := by
  apply BitVec.eq_of_getLsbD_eq
  intro k inside
  apply BitVec.getLsbD_append.trans
  rw [BitVec.getLsbD_append,BitVec.getLsbD_append]
  interval_cases k <;> simp

theorem getElem?_flatMap_even {α β : Type} {f : α → List β} {n : Nat} (even : ∀ a, (f a).length = n) {xs : List α}
    {k : Nat} {x : α} (listed : xs[k]? = some x) (j : Nat) (small : j < n) : (xs.flatMap f)[n*k+j]? = (f x)[j]? := by
  induction xs generalizing k with
  | nil => cases listed
  | cons first rest ih =>
    rw [List.flatMap_cons]
    cases k with
    | zero =>
      cases listed
      rw [Nat.mul_zero,Nat.zero_add,List.getElem?_append_left (by rw [even]; exact small)]
    | succ k =>
      have later := ih (k := k) listed
      have after : n*(k+1)+j-n = n*k+j := by
        rw [Nat.mul_succ]
        omega
      rw [List.getElem?_append_right (by rw [even,Nat.mul_succ]; omega),even,after,later]

theorem length_flatMap_even {α β : Type} {f : α → List β} {n : Nat} (even : ∀ a, (f a).length = n) (xs : List α) :
    (xs.flatMap f).length = n*xs.length := by
  induction xs with
  | nil => rfl
  | cons first rest ih => rw [List.flatMap_cons,List.length_append,even,ih,List.length_cons,Nat.mul_succ,Nat.add_comm]

theorem flatMap_wordBytes {words : List (BitVec 32)} {k : Nat} {w : BitVec 32} (listed : words[k]? = some w) (j : Nat)
    (small : j < 4) : (words.flatMap wordBytes)[4*k+j]? = (wordBytes w)[j]? :=
  getElem?_flatMap_even (n := 4) (fun _ => rfl) listed j small

theorem word_written (s : ByteStore) (base : Nat) {words : List (BitVec 32)} {k : Nat} {w : BitVec 32}
    (listed : words[k]? = some w) : (s.write base (words.flatMap wordBytes)).word (base+4*k) = w := by
  have byte : ∀ j b, j < 4 → (wordBytes w)[j]? = some b → (s.write base (words.flatMap wordBytes)).byte (base+4*k+j) = b := by
    intro j b small found
    rw [Nat.add_assoc]
    exact s.write_within base ((flatMap_wordBytes listed j small).trans found)
  unfold ByteStore.word
  rw [byte 3 _ (by decide) rfl,byte 2 _ (by decide) rfl,byte 1 _ (by decide) rfl]
  rw [show base+4*k = base+4*k+0 from rfl,byte 0 _ (by decide) rfl]
  exact word_of_bytes w

end Storage
