import Novium.Isa

namespace Novium

structure StatusFlags where
  zero : Bool
  negative : Bool
  overflow : Bool
  deriving DecidableEq, Repr

-- Vector lanes are FP32 bit patterns.
structure RegisterFile where
  gpr : Fin numGpr → Word
  vr : Fin numVr → Fin vecWidth → Word
  pc : Word
  halt : Bool
  status : StatusFlags

namespace RegisterFile

def initial : RegisterFile := ⟨fun _ => 0,fun _ _ => 0,0,false,⟨false,false,false⟩⟩

-- Subscripts are unchecked in the source: `none` is undefined behaviour.
def gprIndex (idx : Nat) : Option (Fin numGpr) := if h : idx < numGpr then some ⟨idx,h⟩ else none
def vrIndex (idx : Nat) : Option (Fin numVr) := if h : idx < numVr then some ⟨idx,h⟩ else none

def readGpr (r : RegisterFile) (idx : Nat) : Option Word :=
  if idx = 0 then some 0 else (gprIndex idx).map r.gpr

def writeGpr (r : RegisterFile) (idx : Nat) (value : Word) : Option RegisterFile :=
  if idx = 0 then some {r with gpr := Function.update r.gpr 0 0}
  else (gprIndex idx).map fun k => {r with gpr := Function.update (Function.update r.gpr k value) 0 0}

def updateFlagsU32 (r : RegisterFile) (result : Word) : RegisterFile :=
  {r with status := ⟨result == 0,(result >>> 31) &&& 1 == 1,false⟩}

theorem readGpr_some {r : RegisterFile} {idx : Nat} : (∃ v, r.readGpr idx = some v) ↔ idx < numGpr := by
  unfold readGpr gprIndex
  split
  · rename_i zero
    simp [zero,numGpr]
  · split <;> simp_all

theorem writeGpr_some {r : RegisterFile} {idx : Nat} {value : Word} :
    (∃ r', r.writeGpr idx value = some r') ↔ idx < numGpr := by
  unfold writeGpr gprIndex
  split
  · rename_i zero
    simp [zero,numGpr]
  · split <;> simp_all

theorem vrIndex_some {idx : Nat} : (∃ k, vrIndex idx = some k) ↔ idx < numVr := by
  unfold vrIndex
  split <;> simp_all

theorem outside_of_none {α : Type} {o : Option α} {inside : Prop} (subscript : (∃ v, o = some v) ↔ inside)
    (missing : o = none) : ¬ inside := by
  intro within
  obtain ⟨v,found⟩ := subscript.mpr within
  rw [missing] at found
  cases found

theorem writeGpr_frame {r r' : RegisterFile} {idx : Nat} {value : Word} (wrote : r.writeGpr idx value = some r') :
    r' = {r with gpr := r'.gpr} := by
  unfold writeGpr at wrote
  split at wrote
  · cases Option.some.inj wrote
    rfl
  · obtain ⟨k,_,rfl⟩ := Option.map_eq_some_iff.mp wrote
    rfl

end RegisterFile

inductive HostSimd where
  | scalar | avx2 | avx512 | neon
  deriving DecidableEq, Repr

def HostSimd.lanes : HostSimd → Nat
  | .scalar => 1
  | .avx2 => 8
  | .avx512 => 16
  | .neon => 4

-- The host's FP32 addition and multiplication are parameters. The build is assumed not to
-- contract the a*b+c of the tile sums into a fused multiply-add (which -mfma would allow).
structure Host where
  addF32 : Word → Word → Word
  mulF32 : Word → Word → Word
  simd : HostSimd

namespace Host
variable (h : Host)

abbrev Lanes := Fin numVr → Fin vecWidth → Word

def setLane (vr : Lanes) (d : Fin numVr) (k : Nat) (value : Word) : Lanes :=
  Function.update vr d (Function.update (vr d) (Fin.ofNat vecWidth k) value)

def lane (vr : Lanes) (a : Fin numVr) (k : Nat) : Word := vr a (Fin.ofNat vecWidth k)

-- One load-add-store of `width` lanes: both operands are read before the store.
def addLanes (vr : Lanes) (d a b : Fin numVr) (start width : Nat) : Lanes :=
  ((List.range width).map fun k => (start+k,h.addF32 (lane vr a (start+k)) (lane vr b (start+k)))).foldl
    (fun acc entry => setLane acc d entry.1 entry.2) vr

def vecAddWidth (width : Nat) (vr : Lanes) (d a b : Fin numVr) : Lanes :=
  (List.range (vecWidth/width)).foldl (fun acc chunk => h.addLanes acc d a b (chunk*width) width) vr

def vecAddHost (vr : Lanes) (d a b : Fin numVr) : Lanes := h.vecAddWidth h.simd.lanes vr d a b

def tileSum (vr : Lanes) (a b : Fin numVr) (n i j : Nat) : Word :=
  (List.range n).foldl
    (fun sum k => h.addF32 sum (h.mulF32 (lane vr a (i*n+k)) (lane vr b (k*n+j)))) 0

-- Row by row, each element stored as soon as it is summed.
def matmulTile (vr : Lanes) (d a b : Fin numVr) (n : Nat) : Lanes :=
  (List.range n).foldl (fun rows i =>
    (List.range n).foldl (fun acc j => setLane acc d (i*n+j) (h.tileSum acc a b n i j)) rows) vr

def matmulTileHost (vr : Lanes) (d a b : Fin numVr) (n : Nat) : Lanes :=
  if n = 4 then h.matmulTile vr d a b 4 else h.matmulTile vr d a b n

def ieee (simd : HostSimd) : Host where
  addF32 a b := (Float32.ofBits ⟨a⟩ + Float32.ofBits ⟨b⟩).toBits.toBitVec
  mulF32 a b := (Float32.ofBits ⟨a⟩ * Float32.ofBits ⟨b⟩).toBits.toBitVec
  simd := simd

end Host
end Novium
