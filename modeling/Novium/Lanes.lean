import Novium.Registers
import Mathlib.Data.List.Basic

namespace Novium.Host
variable (h : Host)

def laneSum (vr : Lanes) (a b : Fin numVr) (k : Fin vecWidth) : Word := h.addF32 (vr a k) (vr b k)

def filled (vr : Lanes) (d : Fin numVr) (f : Fin vecWidth → Word) (n : Nat) : Lanes :=
  Function.update vr d fun k => if k.val < n then f k else vr d k

variable {h} {vr : Lanes} {d a b : Fin numVr} {f : Fin vecWidth → Word}

theorem filled_none : filled vr d f 0 = vr := by
  unfold filled
  simp

theorem filled_all : filled vr d f vecWidth = Function.update vr d f := by
  unfold filled
  congr 1
  funext k
  rw [if_pos k.isLt]

theorem filled_other {r : Fin numVr} (apart : r ≠ d) (n : Nat) : filled vr d f n r = vr r := Function.update_of_ne apart ..

-- Lanes that are still to come hold what they held, in the destination too.
theorem filled_ahead {n k : Nat} (r : Fin numVr) (ahead : n ≤ k) (inside : k < vecWidth) :
    lane (filled vr d f n) r k = lane vr r k := by
  have index : (Fin.ofNat vecWidth k).val = k := Nat.mod_eq_of_lt inside
  unfold lane filled
  by_cases same : r = d
  · subst same
    rw [Function.update_self,if_neg (by omega)]
  · rw [Function.update_of_ne same]

theorem setLane_filled {n : Nat} (inside : n < vecWidth) :
    setLane (filled vr d f n) d n (f (Fin.ofNat vecWidth n)) = filled vr d f (n+1) := by
  have index : (Fin.ofNat vecWidth n).val = n := Nat.mod_eq_of_lt inside
  unfold setLane filled
  rw [Function.update_self,Function.update_idem]
  congr 1
  funext k
  by_cases same : k = Fin.ofNat vecWidth n
  · subst same
    rw [Function.update_self,if_pos (by omega)]
  · have apart : k.val ≠ n := by
      intro equal
      exact same (Fin.ext (equal.trans index.symm))
    rw [Function.update_of_ne same]
    by_cases done : k.val < n
    · rw [if_pos done,if_pos (by omega)]
    · rw [if_neg done,if_neg (by omega)]

theorem addLanes_filled {start width : Nat} (inside : start+width ≤ vecWidth) :
    h.addLanes (filled vr d (h.laneSum vr a b) start) d a b start width = filled vr d (h.laneSum vr a b) (start+width) := by
  unfold addLanes
  -- The sums are taken from the array before the first store, so the induction is
  -- on how many of them are stored while the array they come from stays fixed.
  have stored : ∀ count ≤ width, (((List.range count).map fun k => (start+k,
      h.addF32 (lane (filled vr d (h.laneSum vr a b) start) a (start+k)) (lane (filled vr d (h.laneSum vr a b) start) b (start+k)))).foldl
      (fun acc entry => setLane acc d entry.1 entry.2) (filled vr d (h.laneSum vr a b) start)) =
      filled vr d (h.laneSum vr a b) (start+count) := by
    intro count
    induction count with
    | zero => intro _; rfl
    | succ count ih =>
      intro more
      rw [List.range_succ,List.map_append,List.foldl_append,ih (by omega)]
      simp only [List.map_cons,List.map_nil,List.foldl_cons,List.foldl_nil]
      rw [filled_ahead a (by omega) (by omega),filled_ahead b (by omega) (by omega)]
      exact setLane_filled (by omega)
  exact stored width (Nat.le_refl _)

-- Chunked or lane by lane, in place or not: every lane is the sum of the source lanes.
theorem vecAddWidth_lanes {width : Nat} (fits : vecWidth/width*width = vecWidth) :
    h.vecAddWidth width vr d a b = Function.update vr d (h.laneSum vr a b) := by
  have chunks : ∀ count, count*width ≤ vecWidth → (List.range count).foldl
      (fun acc chunk => h.addLanes acc d a b (chunk*width) width) vr = filled vr d (h.laneSum vr a b) (count*width) := by
    intro count
    induction count with
    | zero =>
      intro _
      rw [Nat.zero_mul,filled_none]
      rfl
    | succ count ih =>
      intro inside
      rw [Nat.succ_mul] at inside ⊢
      rw [List.range_succ,List.foldl_append,ih (by omega)]
      exact addLanes_filled inside
  unfold vecAddWidth
  rw [chunks _ (by omega),fits,filled_all]

theorem vecAddHost_lanes : h.vecAddHost vr d a b = Function.update vr d (h.laneSum vr a b) := by
  unfold vecAddHost
  cases h.simd <;> exact vecAddWidth_lanes rfl

theorem matmulTileHost_eq (n : Nat) : h.matmulTileHost vr d a b n = h.matmulTile vr d a b n := by
  unfold matmulTileHost
  split
  · rename_i four
    rw [four]
  · rfl

def tileElement (h : Host) (vr : Lanes) (a b : Fin numVr) (n : Nat) (k : Fin vecWidth) : Word :=
  h.tileSum vr a b n (k.val/n) (k.val%n)

theorem tileSum_congr {other : Lanes} (left : other a = vr a) (right : other b = vr b) (n i j : Nat) :
    h.tileSum other a b n i j = h.tileSum vr a b n i j := by
  unfold tileSum lane
  rw [left,right]

theorem foldl_grid {σ : Type} (g : σ → Nat → σ) (n rows : Nat) (s : σ) :
    (List.range rows).foldl (fun acc i => (List.range n).foldl (fun acc j => g acc (i*n+j)) acc) s = (List.range (rows*n)).foldl g s := by
  induction rows with
  | zero =>
    rw [Nat.zero_mul]
    rfl
  | succ rows ih =>
    rw [List.range_succ,List.foldl_append,ih,Nat.succ_mul,List.range_add,List.foldl_append,List.foldl_map]
    rfl

-- The registers when the first `count` elements have been stored.
def tiled (h : Host) (vr : Lanes) (d a b : Fin numVr) (n count : Nat) : Lanes :=
  (List.range count).foldl (fun acc k => setLane acc d k (h.tileSum acc a b n (k/n) (k%n))) vr

theorem tiled_succ (n count : Nat) : h.tiled vr d a b n (count+1) =
    setLane (h.tiled vr d a b n count) d count (h.tileSum (h.tiled vr d a b n count) a b n (count/n) (count%n)) := by
  unfold tiled
  rw [List.range_succ,List.foldl_append]
  rfl

theorem place_row {n i j : Nat} (column : j < n) : (i*n+j)/n = i ∧ (i*n+j)%n = j := by
  rw [Nat.mul_comm i n,Nat.mul_add_div (by omega),Nat.div_eq_of_lt column,Nat.mul_add_mod,Nat.mod_eq_of_lt column]
  exact ⟨rfl,rfl⟩

theorem matmulTile_tiled (n : Nat) : h.matmulTile vr d a b n = h.tiled vr d a b n (n*n) := by
  unfold tiled
  rw [← foldl_grid]
  unfold matmulTile
  congr 1
  funext acc i
  apply List.foldl_ext
  intro acc j listed
  obtain ⟨row,column⟩ := place_row (i := i) (List.mem_range.mp listed)
  rw [row,column]

-- The operands are not the destination, so what was stored before does not enter the
-- sums, and the lanes behind the tile stay.
theorem matmulTile_lanes {n : Nat} (fits : n*n ≤ vecWidth) (left : d ≠ a) (right : d ≠ b) :
    h.matmulTile vr d a b n = filled vr d (h.tileElement vr a b n) (n*n) := by
  have stored : ∀ count ≤ n*n, h.tiled vr d a b n count = filled vr d (h.tileElement vr a b n) count := by
    intro count
    induction count with
    | zero =>
      intro _
      rw [filled_none]
      rfl
    | succ count ih =>
      intro more
      have index : (Fin.ofNat vecWidth count).val = count := Nat.mod_eq_of_lt (by omega)
      have sum : h.tileElement vr a b n (Fin.ofNat vecWidth count) = h.tileSum vr a b n (count/n) (count%n) := by
        unfold tileElement
        rw [index]
      rw [tiled_succ,ih (by omega),tileSum_congr (filled_other left.symm _) (filled_other right.symm _),← sum]
      exact setLane_filled (by omega)
  rw [matmulTile_tiled,stored _ (Nat.le_refl _)]

end Novium.Host
