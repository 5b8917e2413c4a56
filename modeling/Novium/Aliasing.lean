import Novium.Retirement

namespace Novium
namespace Host
variable {h : Host} {vr : Lanes} {d a b : Fin numVr} {n : Nat}

-- The product of the operands as they were, in the destination and nowhere else.
structure Multiplies (h : Host) (d a b : Fin numVr) (n : Nat) (vr vr' : Lanes) : Prop where
  elements : ∀ i j, i < n → j < n → lane vr' d (i*n+j) = h.tileSum vr a b n i j
  behind : ∀ k : Fin vecWidth, n*n ≤ k.val → vr' d k = vr d k
  others : ∀ r, r ≠ d → vr' r = vr r

section Stored
variable {count k : Nat}

theorem tiled_other {r : Fin numVr} (apart : r ≠ d) (count : Nat) : h.tiled vr d a b n count r = vr r := by
  induction count with
  | zero => rfl
  | succ count ih =>
    rw [tiled_succ,← ih]
    exact Function.update_of_ne apart ..

theorem lane_setLane {j : Nat} (inside : j < vecWidth) (inside' : k < vecWidth) (r : Fin numVr) (value : Word) :
    lane (setLane vr d k value) r j = if r = d ∧ j = k then value else lane vr r j := by
  have index : (Fin.ofNat vecWidth j).val = j := Nat.mod_eq_of_lt inside
  have index' : (Fin.ofNat vecWidth k).val = k := Nat.mod_eq_of_lt inside'
  unfold lane setLane
  by_cases same : r = d
  · subst same
    rw [Function.update_self,Function.update_apply]
    simp only [true_and,Fin.ext_iff,index,index']
  · rw [Function.update_of_ne same,if_neg (fun both => same both.1)]

-- Lanes that are still to come.
theorem tiled_ahead (ahead : count ≤ k) (inside : k < vecWidth) (r : Fin numVr) :
    lane (h.tiled vr d a b n count) r k = lane vr r k := by
  induction count with
  | zero => rfl
  | succ count ih => rw [tiled_succ,lane_setLane inside (by omega),if_neg (by omega),ih (by omega)]

-- A stored element is the sum over the registers as they were when it was its turn.
theorem tiled_stored (done : k < count) (inside : count ≤ vecWidth) :
    lane (h.tiled vr d a b n count) d k = h.tileSum (h.tiled vr d a b n k) a b n (k/n) (k%n) := by
  induction count with
  | zero => omega
  | succ count ih =>
    rw [tiled_succ,lane_setLane (by omega) (by omega)]
    by_cases last : k = count
    · subst last
      rw [if_pos ⟨rfl,rfl⟩]
    · rw [if_neg (fun both => last both.2),ih (by omega) (by omega)]

end Stored

theorem place_inside {i j : Nat} (row : i < n) (column : j < n) : i*n+j < n*n := by
  have rows : i*n+n ≤ n*n := by
    rw [← Nat.succ_mul]
    exact Nat.mul_le_mul_right n row
  omega

section Tile
variable (fits : n*n ≤ vecWidth)
include fits

theorem element_at {i j : Nat} (row : i < n) (column : j < n) : lane (h.matmulTile vr d a b n) d (i*n+j) =
    h.tileSum (h.tiled vr d a b n (i*n+j)) a b n i j := by
  have inside := place_inside row column
  obtain ⟨div,mod⟩ := place_row (i := i) column
  rw [matmulTile_tiled,tiled_stored inside fits,div,mod]

-- Right whenever no element has entered a later sum.
theorem multiplies_of (unread : ∀ i j, i < n → j < n → h.tileSum (h.tiled vr d a b n (i*n+j)) a b n i j = h.tileSum vr a b n i j) :
    h.Multiplies d a b n vr (h.matmulTile vr d a b n) := by
  refine ⟨?_,?_,?_⟩
  · intro i j row column
    rw [element_at fits row column,unread i j row column]
  · intro k behind
    have index : Fin.ofNat vecWidth k.val = k := Fin.ext (Nat.mod_eq_of_lt k.isLt)
    have kept : lane (h.tiled vr d a b n (n*n)) d k.val = lane vr d k.val := tiled_ahead behind k.isLt d
    unfold lane at kept
    rwa [index,← matmulTile_tiled] at kept
  · intro r apart
    rw [matmulTile_tiled,tiled_other apart]

theorem multiplies_apart (left : d ≠ a) (right : d ≠ b) : h.Multiplies d a b n vr (h.matmulTile vr d a b n) := by
  apply multiplies_of fits
  intro i j _ _
  exact tileSum_congr (tiled_other left.symm _) (tiled_other right.symm _) n i j

end Tile

theorem multiplies_single : h.Multiplies d a b 1 vr (h.matmulTile vr d a b 1) := by
  apply multiplies_of (by decide)
  intro i j row column
  have first : i*1+j = 0 := by omega
  rw [first]
  rfl

def oneF32 : Word := 0x3F800000

-- What binary32 arithmetic does with 0.0 and 1.0.
structure Counts (h : Host) : Prop where
  add_zero : ∀ x, x = 0 ∨ x = oneF32 → h.addF32 x 0 = x
  zero_add : ∀ x, x = 0 ∨ x = oneF32 → h.addF32 0 x = x
  mul_zero : ∀ x, x = 0 ∨ x = oneF32 → h.mulF32 x 0 = 0
  zero_mul : ∀ x, x = 0 ∨ x = oneF32 → h.mulF32 0 x = 0
  one_mul : h.mulF32 oneF32 oneF32 = oneF32

section Sums
variable (counts : Counts h) {i j : Nat}
include counts

theorem tileSum_zero (zero : ∀ k < n, h.mulF32 (lane vr a (i*n+k)) (lane vr b (k*n+j)) = 0) : h.tileSum vr a b n i j = 0 := by
  have summed : ∀ count ≤ n, (List.range count).foldl
      (fun sum k => h.addF32 sum (h.mulF32 (lane vr a (i*n+k)) (lane vr b (k*n+j)))) 0 = 0 := by
    intro count
    induction count with
    | zero => intro _; rfl
    | succ count ih =>
      intro more
      rw [List.range_succ,List.foldl_append,ih (by omega),List.foldl_cons,List.foldl_nil,zero count more,counts.add_zero 0 (.inl rfl)]
  exact summed n (Nat.le_refl n)

theorem tileSum_one {hit : Nat} (inside : hit < n) (one : h.mulF32 (lane vr a (i*n+hit)) (lane vr b (hit*n+j)) = oneF32)
    (zero : ∀ k < n, k ≠ hit → h.mulF32 (lane vr a (i*n+k)) (lane vr b (k*n+j)) = 0) : h.tileSum vr a b n i j = oneF32 := by
  have summed : ∀ count ≤ n, (List.range count).foldl
      (fun sum k => h.addF32 sum (h.mulF32 (lane vr a (i*n+k)) (lane vr b (k*n+j)))) 0 = if hit < count then oneF32 else 0 := by
    intro count
    induction count with
    | zero => intro _; rfl
    | succ count ih =>
      intro more
      rw [List.range_succ,List.foldl_append,ih (by omega),List.foldl_cons,List.foldl_nil]
      by_cases here : count = hit
      · subst here
        rw [one,if_neg (by omega),if_pos (by omega),counts.zero_add _ (.inr rfl)]
      · rw [zero count more here]
        by_cases before : hit < count
        · rw [if_pos before,if_pos (by omega),counts.add_zero _ (.inr rfl)]
        · rw [if_neg before,if_neg (by omega),counts.add_zero _ (.inl rfl)]
  have whole := summed n (Nat.le_refl n)
  rwa [if_pos inside] at whole

end Sums

-- Two lanes at 1.0, every other lane at 0.0.
def marked (r : Fin numVr) (k : Nat) (r' : Fin numVr) (k' : Nat) : Lanes :=
  fun s j => if (s = r ∧ j.val = k) ∨ (s = r' ∧ j.val = k') then oneF32 else 0

theorem lane_marked {r r' s : Fin numVr} {k k' j : Nat} (inside : j < vecWidth) :
    lane (marked r k r' k') s j = if (s = r ∧ j = k) ∨ (s = r' ∧ j = k') then oneF32 else 0 := by
  have index : (Fin.ofNat vecWidth j).val = j := Nat.mod_eq_of_lt inside
  unfold lane marked
  rw [index]

theorem lane_bit {r r' s : Fin numVr} {k k' j : Nat} : lane (marked r k r' k') s j = 0 ∨ lane (marked r k r' k') s j = oneF32 := by
  unfold lane marked
  split
  · exact .inr rfl
  · exact .inl rfl

theorem first_stored (fits : n*n ≤ vecWidth) {i j : Nat} (row : i < n) (column : j < n) (later : 0 < i*n+j) :
    lane (h.tiled vr d a b n (i*n+j)) d (0*n+0) = h.tileSum vr a b n 0 0 := by
  have inside := place_inside row column
  rw [Nat.zero_mul,tiled_stored later (by omega),Nat.zero_div,Nat.zero_mod]
  rfl

section Overwritten
variable (counts : Counts h) (fits : n*n ≤ vecWidth) (several : 2 ≤ n)
include counts fits several

-- The first element of the row is overwritten before the second one is summed.
theorem left_overwritten (apart : a ≠ b) : ¬ h.Multiplies a a b n (marked a 0 b 1) (h.matmulTile (marked a 0 b 1) a a b n) := by
  intro right
  have inside : ∀ i k, i < n → k < n → i*n+k < vecWidth := fun i k row column => Nat.lt_of_lt_of_le (place_inside row column) fits
  have later : ∀ k, k < n → k ≠ 0 → lane (marked a 0 b 1) a (0*n+k) = 0 := by
    intro k column behind
    rw [lane_marked (inside 0 k (by omega) column),if_neg (by omega)]
  have before : h.tileSum (marked a 0 b 1) a b n 0 1 = oneF32 := by
    apply tileSum_one counts (by omega : 0 < n)
    · rw [lane_marked (inside 0 0 (by omega) (by omega)),lane_marked (inside 0 1 (by omega) (by omega)),if_pos (by omega),
        if_pos (by omega)]
      exact counts.one_mul
    · intro k column behind
      rw [later k column behind]
      exact counts.zero_mul _ lane_bit
  have first : h.tileSum (marked a 0 b 1) a b n 0 0 = 0 := by
    apply tileSum_zero counts
    intro k column
    by_cases start : k = 0
    · subst start
      rw [lane_marked (s := b) (inside 0 0 (by omega) (by omega)),if_neg (by omega)]
      exact counts.mul_zero _ lane_bit
    · rw [later k column start]
      exact counts.zero_mul _ lane_bit
  have after : h.tileSum (h.tiled (marked a 0 b 1) a a b n (0*n+1)) a b n 0 1 = 0 := by
    apply tileSum_zero counts
    intro k column
    have source : lane (h.tiled (marked a 0 b 1) a a b n (0*n+1)) b (k*n+1) = lane (marked a 0 b 1) b (k*n+1) := by
      unfold lane
      rw [tiled_other apart.symm]
    have cleared : lane (h.tiled (marked a 0 b 1) a a b n (0*n+1)) a (0*n+k) = 0 := by
      by_cases start : k = 0
      · rw [start,first_stored fits (by omega) (by omega) (by omega),first]
      · rw [tiled_ahead (by omega) (inside 0 k (by omega) column),later k column start]
    rw [source,cleared]
    exact counts.zero_mul _ lane_bit
  have element := right.elements 0 1 (by omega) (by omega)
  rw [element_at fits (by omega) (by omega),before,after] at element
  exact absurd element (by decide)

-- The first element of the column is overwritten before the second row is summed.
theorem right_overwritten (apart : a ≠ b) : ¬ h.Multiplies b a b n (marked a n b 0) (h.matmulTile (marked a n b 0) b a b n) := by
  intro right
  have inside : ∀ i k, i < n → k < n → i*n+k < vecWidth := fun i k row column => Nat.lt_of_lt_of_le (place_inside row column) fits
  have later : ∀ k, k < n → k ≠ 0 → lane (marked a n b 0) a (1*n+k) = 0 := by
    intro k column behind
    rw [lane_marked (inside 1 k (by omega) column),if_neg (by omega)]
  have before : h.tileSum (marked a n b 0) a b n 1 0 = oneF32 := by
    apply tileSum_one counts (by omega : 0 < n)
    · rw [lane_marked (inside 1 0 (by omega) (by omega)),lane_marked (inside 0 0 (by omega) (by omega)),if_pos (by omega),
        if_pos (by omega)]
      exact counts.one_mul
    · intro k column behind
      rw [later k column behind]
      exact counts.zero_mul _ lane_bit
  have first : h.tileSum (marked a n b 0) a b n 0 0 = 0 := by
    apply tileSum_zero counts
    intro k column
    rw [lane_marked (s := a) (inside 0 k (by omega) column),if_neg (by omega)]
    exact counts.zero_mul _ lane_bit
  have after : h.tileSum (h.tiled (marked a n b 0) b a b n (1*n+0)) a b n 1 0 = 0 := by
    apply tileSum_zero counts
    intro k column
    have source : lane (h.tiled (marked a n b 0) b a b n (1*n+0)) a (1*n+k) = lane (marked a n b 0) a (1*n+k) := by
      unfold lane
      rw [tiled_other apart]
    rw [source]
    by_cases start : k = 0
    · rw [start,first_stored fits (by omega) (by omega) (by omega),first]
      exact counts.mul_zero _ lane_bit
    · have below : 1*n+0 ≤ k*n+0 := by
        rw [Nat.add_zero,Nat.add_zero]
        exact Nat.mul_le_mul_right n (by omega)
      rw [later k column start,tiled_ahead below (inside k 0 column (by omega))]
      exact counts.zero_mul _ lane_bit
  have element := right.elements 1 0 (by omega) (by omega)
  rw [element_at fits (by omega) (by omega),before,after] at element
  exact absurd element (by decide)

-- Squaring in place: the first element is read again in its own row.
theorem square_overwritten : ¬ h.Multiplies a a a n (marked a 1 a n) (h.matmulTile (marked a 1 a n) a a a n) := by
  intro right
  have inside : ∀ i k, i < n → k < n → i*n+k < vecWidth := fun i k row column => Nat.lt_of_lt_of_le (place_inside row column) fits
  have later : ∀ k, k < n → k ≠ 1 → lane (marked a 1 a n) a (0*n+k) = 0 := by
    intro k column other
    rw [lane_marked (inside 0 k (by omega) column),if_neg (by omega)]
  have corner : lane (marked a 1 a n) a (1*n+1) = 0 := by
    rw [lane_marked (inside 1 1 (by omega) (by omega)),if_neg (by omega)]
  have products : ∀ k < n, h.mulF32 (lane (marked a 1 a n) a (0*n+k)) (lane (marked a 1 a n) a (k*n+1)) = 0 := by
    intro k column
    by_cases second : k = 1
    · rw [second,corner]
      exact counts.mul_zero _ lane_bit
    · rw [later k column second]
      exact counts.zero_mul _ lane_bit
  have before : h.tileSum (marked a 1 a n) a a n 0 1 = 0 := tileSum_zero counts products
  have first : h.tileSum (marked a 1 a n) a a n 0 0 = oneF32 := by
    apply tileSum_one counts (by omega : 1 < n)
    · rw [lane_marked (inside 0 1 (by omega) (by omega)),lane_marked (inside 1 0 (by omega) (by omega)),if_pos (by omega),
        if_pos (by omega)]
      exact counts.one_mul
    · intro k column other
      rw [later k column other]
      exact counts.zero_mul _ lane_bit
  have start : lane (h.tiled (marked a 1 a n) a a a n (0*n+1)) a (0*n+0) = oneF32 := by
    rw [first_stored fits (by omega) (by omega) (by omega),first]
  have kept : ∀ k, 1 ≤ k → k < vecWidth → lane (h.tiled (marked a 1 a n) a a a n (0*n+1)) a k = lane (marked a 1 a n) a k :=
    fun k behind bound => tiled_ahead (by omega) bound a
  have after : h.tileSum (h.tiled (marked a 1 a n) a a a n (0*n+1)) a a n 0 1 = oneF32 := by
    apply tileSum_one counts (by omega : 0 < n)
    · have second := inside 0 1 (by omega) (by omega)
      rw [start,kept _ (by omega) second,lane_marked second,if_pos (by omega)]
      exact counts.one_mul
    · intro k column behind
      rw [kept _ (by omega) (inside 0 k (by omega) column),kept _ (by omega) (inside k 1 column (by omega))]
      exact products k column
  have element := right.elements 0 1 (by omega) (by omega)
  rw [element_at fits (by omega) (by omega),before,after] at element
  exact absurd element (by decide)

end Overwritten

theorem multiplies_iff (counts : Counts h) (sized : 1 ≤ n ∧ n ≤ tileSize) :
    (∀ vr, h.Multiplies d a b n vr (h.matmulTile vr d a b n)) ↔ n = 1 ∨ (d ≠ a ∧ d ≠ b) := by
  have fits : n*n ≤ vecWidth := Nat.mul_le_mul sized.2 sized.2
  constructor
  · intro right
    by_cases single : n = 1
    · exact .inl single
    · have several : 2 ≤ n := by omega
      refine .inr ⟨?_,?_⟩
      · intro same
        subst same
        by_cases square : d = b
        · subst square
          exact square_overwritten counts fits several (right _)
        · exact left_overwritten counts fits several square (right _)
      · intro same
        subst same
        by_cases square : a = d
        · subst square
          exact square_overwritten counts fits several (right _)
        · exact right_overwritten counts fits several square (right _)
  · intro holds vr
    rcases holds with single | ⟨left,right⟩
    · subst single
      exact multiplies_single
    · exact multiplies_apart fits left right

-- A unit that is binary32 on 0.0 and 1.0.
def counting : Host where
  addF32 x y := if x = 0 then y else if y = 0 then x else 0x40000000
  mulF32 x y := if x = 0 ∨ y = 0 then 0 else if x = oneF32 then y else x
  simd := .scalar

theorem counting_counts : Counts counting := by
  refine ⟨?_,?_,?_,?_,by decide⟩
  · intro x bit
    rcases bit with rfl | rfl <;> decide
  · intro x bit
    rcases bit with rfl | rfl <;> decide
  · intro x bit
    rcases bit with rfl | rfl <;> decide
  · intro x bit
    rcases bit with rfl | rfl <;> decide

end Host

open Host

def holding (vr : Lanes) : Machine := {Machine.initial 512 256 with regs := {RegisterFile.initial with vr := vr}}

section Instruction
variable {i : Instruction} {d a b : Fin numVr} {n : Nat} (opcode : i.opcode = some .matmulTile) (rd : i.rd.toNat = d.val)
  (ra : i.ra.toNat = a.val) (rb : i.rb.toNat = b.val) (size : (i.func &&& 0xF).toNat = n) (sized : 1 ≤ n ∧ n ≤ tileSize)
include opcode rd ra rb size sized

theorem executes_tile (h : Host) (m : Machine) : ∃ cycles m', execute h i m = .ok cycles m' ∧
    m'.regs.vr = h.matmulTile m.regs.vr d a b n := by
  obtain ⟨cycles,m',ran,core⟩ := takes_matmulTile (h := h) opcode rd ra rb size sized m rfl
  exact ⟨cycles,m',ran,congrArg (fun c : Core => c.regs.vr) core⟩

theorem matmul_tile_iff {h : Host} (counts : Counts h) :
    (∀ m : Machine, ∃ cycles m', execute h i m = .ok cycles m' ∧ h.Multiplies d a b n m.regs.vr m'.regs.vr) ↔
      n = 1 ∨ (d ≠ a ∧ d ≠ b) := by
  rw [← multiplies_iff counts sized]
  constructor
  · intro right vr
    obtain ⟨cycles,m',ran,multiplies⟩ := right (holding vr)
    obtain ⟨cycles',m'',ran',lanes⟩ := executes_tile opcode rd ra rb size sized h (holding vr)
    cases ran.symm.trans ran'
    rwa [lanes] at multiplies
  · intro right m
    obtain ⟨cycles,m',ran,lanes⟩ := executes_tile opcode rd ra rb size sized h m
    refine ⟨cycles,m',ran,?_⟩
    rw [lanes]
    exact right m.regs.vr

end Instruction

-- v3 = v0*v1 on 4x4 tiles, where v0 and v1 have 1.0 in lane 0 and in lane 1.
theorem matmul_tile_apart : ∃ cycles m', execute counting ⟨Enc.matmulTile 3 0 1 4⟩ (holding (marked 0 0 1 1)) = .ok cycles m' ∧
    counting.Multiplies 3 0 1 4 (marked 0 0 1 1) m'.regs.vr :=
  (matmul_tile_iff (i := ⟨Enc.matmulTile 3 0 1 4⟩) (by decide) (by decide) (by decide) (by decide) (by decide) (by decide)
    counting_counts).mpr (by decide) (holding (marked 0 0 1 1))

-- v0 = v0*v1 on 2x2 tiles, with the same contents.
theorem matmul_tile_in_place : ¬ ∀ (h : Host), Counts h → ∀ (i : Instruction) (d a b : Fin numVr) (n : Nat) (m : Machine),
    i.opcode = some .matmulTile → i.rd.toNat = d.val → i.ra.toNat = a.val → i.rb.toNat = b.val → (i.func &&& 0xF).toNat = n →
    1 ≤ n ∧ n ≤ tileSize → ∃ cycles m', execute h i m = .ok cycles m' ∧ h.Multiplies d a b n m.regs.vr m'.regs.vr := by
  intro right
  obtain ⟨cycles,m',ran,multiplies⟩ := right counting counting_counts ⟨Enc.matmulTile 0 0 1 2⟩ 0 0 1 2 (holding (marked 0 0 1 1))
    (by decide) (by decide) (by decide) (by decide) (by decide) (by decide)
  obtain ⟨cycles',m'',ran',lanes⟩ := executes_tile (i := ⟨Enc.matmulTile 0 0 1 2⟩) (d := 0) (a := 0) (b := 1) (n := 2) (by decide)
    (by decide) (by decide) (by decide) (by decide) (by decide) counting (holding (marked 0 0 1 1))
  cases ran.symm.trans ran'
  rw [lanes] at multiplies
  exact left_overwritten counting_counts (by decide) (by decide) (by decide) multiplies

end Novium
