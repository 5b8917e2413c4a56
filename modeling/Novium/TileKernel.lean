import Novium.TilePrograms

namespace Novium
open Storage Effects Handlers StateTransition

-- The kernel of the integration program, over its five addresses.
def tileKernel (a1 a2 m1 m2 mr : BitVec 16) : List Word :=
  [Enc.movi 5 a1,Enc.movi 6 a2,Enc.movi 7 m1,Enc.movi 8 m2,Enc.dmaLoad 5 7 64,Enc.dmaLoad 6 8 64,Enc.loadVr 0 5 0,
    Enc.loadVr 1 6 0,Enc.vecAdd 2 0 1,Enc.matmulTile 3 0 1 4,Enc.storeVr 3 5 0,Enc.movi 9 mr,Enc.dmaStore 9 5 64,Enc.halt]

abbrev Matrix4 := Fin 4 → Fin 4 → Word

def rowMajor (i j : Fin 4) : Fin vecWidth := ⟨4*i.val+j.val,by change _ < 16; omega⟩

-- The matrix lies in memory row by row.
def HoldsMatrix (mem : ByteStore) (addr : Nat) (x : Matrix4) : Prop := ∀ i j, mem.word (addr+4*(rowMajor i j).val) = x i j

-- Summed from the left, from 0.
def Host.product (h : Host) (x y : Matrix4) (i j : Fin 4) : Word :=
  (List.finRange 4).foldl (fun sum k => h.addF32 sum (h.mulF32 (x i k) (y k j))) 0

def Emulator.launched (code : List Word) (ram : ByteStore) : Except EmulatorError Emulator :=
  Emulator.loadProgram {Emulator.initial scratchpadSize mainRamSize with
    core := {Machine.initial scratchpadSize mainRamSize with mainRam := ram}} (code.flatMap wordBytes)

structure Multiplied (h : Host) (x y : Matrix4) (ram : ByteStore) (addr : Nat) (m : Machine) : Prop where
  halted : m.regs.halt = true
  product : HoldsMatrix m.mainRam addr (h.product x y)
  sum : ∀ i j, m.regs.vr 2 (rowMajor i j) = h.addF32 (x i j) (y i j)
  others : ∀ a, a < addr ∨ addr+vrByteSize ≤ a → m.mainRam.byte a = ram.byte a

namespace Tile

def kernel (a1 a2 m1 m2 mr : BitVec 16) : List Op :=
  [.movi 5 a1,.movi 6 a2,.movi 7 m1,.movi 8 m2,.dmaLoad 5 7 64,.dmaLoad 6 8 64,.loadVr 0 5 0,.loadVr 1 6 0,.vecAdd 2 0 1,
    .matmulTile 3 0 1 4,.storeVr 3 5 0,.movi 9 mr,.dmaStore 9 5 64]

theorem kernel_assembled (a1 a2 m1 m2 mr : BitVec 16) : assemble (kernel a1 a2 m1 m2 mr) = tileKernel a1 a2 m1 m2 mr := rfl

section Kernel
variable (h : Host) (a1 a2 m1 m2 mr : BitVec 16) (s : Store)

def fetched : ByteStore := (s.pad.write a1.toNat (s.ram.read m1.toNat 64)).write a2.toNat (s.ram.read m2.toNat 64)

def operands : Host.Lanes :=
  Function.update (Function.update s.vr 0 fun k => (fetched a1 a2 m1 m2 s).word (a1.toNat+4*k.val)) 1
    fun k => (fetched a1 a2 m1 m2 s).word (a2.toNat+4*k.val)

def results : Host.Lanes :=
  h.matmulTile (Function.update (operands a1 a2 m1 m2 s) 2 (h.laneSum (operands a1 a2 m1 m2 s) 0 1)) 3 0 1 4

theorem wide (a : BitVec 16) : a.toNat%4294967296 = a.toNat := by omega

theorem kernel_exec : (exec h (kernel a1 a2 m1 m2 mr) s).vr = results h a1 a2 m1 m2 s ∧
    (exec h (kernel a1 a2 m1 m2 mr) s).ram = s.ram.write mr.toNat
      (((fetched a1 a2 m1 m2 s).write a1.toNat (vrBytes (results h a1 a2 m1 m2 s 3))).read a1.toNat 64) := by
  simp [exec,kernel,Op.exec,results,operands,fetched,wide]

theorem kernel_safe (first : 56 ≤ a1.toNat) (second : 56 ≤ a2.toNat) (pad : s.pad.size = scratchpadSize) (ram : s.ram.size = mainRamSize) :
    Safe h 56 (kernel a1 a2 m1 m2 mr) s := by
  have sizes : scratchpadSize = 67108864 ∧ mainRamSize = 67108864 := by decide
  have short : ∀ a : BitVec 16, a.toNat+64 ≤ 67108864 := by
    intro a
    omega
  simp [kernel,Safe,Op.Safe,Op.exec,wide,pad,ram,sizes.1,sizes.2,short,first,second]

end Kernel

section Results
variable {h : Host} {a1 a2 m1 m2 mr : BitVec 16} {s : Store} {x y : Matrix4}

theorem rowMajor_inside (i j : Fin 4) : 4*(rowMajor i j).val+4 ≤ 64 := by
  have inside : (rowMajor i j).val < 16 := (rowMajor i j).isLt
  omega

theorem operands_left (apart : a1.toNat+64 ≤ a2.toNat ∨ a2.toNat+64 ≤ a1.toNat) (holds : HoldsMatrix s.ram m1.toNat x) (i j : Fin 4) :
    operands a1 a2 m1 m2 s 0 (rowMajor i j) = x i j := by
  have inside := rowMajor_inside i j
  change (fetched a1 a2 m1 m2 s).word _ = _
  unfold fetched
  rw [ByteStore.word_apart _ _ _ _ (by rw [ByteStore.read_length]; omega),ByteStore.word_copied _ _ _ _ inside]
  exact holds i j

theorem operands_right (holds : HoldsMatrix s.ram m2.toNat y) (i j : Fin 4) : operands a1 a2 m1 m2 s 1 (rowMajor i j) = y i j := by
  change (fetched a1 a2 m1 m2 s).word _ = _
  unfold fetched
  rw [ByteStore.word_copied _ _ _ _ (rowMajor_inside i j)]
  exact holds i j

theorem results_lanes : results h a1 a2 m1 m2 s = Function.update
    (Function.update (operands a1 a2 m1 m2 s) 2 (h.laneSum (operands a1 a2 m1 m2 s) 0 1)) 3
    (h.tileElement (operands a1 a2 m1 m2 s) 0 1 4) := by
  unfold results
  rw [Host.matmulTile_lanes (n := 4) (by decide) (by decide) (by decide)]
  exact Host.filled_all

theorem tileElement_product {vr : Host.Lanes} {a b : Fin numVr} (left : ∀ i j, vr a (rowMajor i j) = x i j)
    (right : ∀ i j, vr b (rowMajor i j) = y i j) (i j : Fin 4) : h.tileElement vr a b 4 (rowMajor i j) = h.product x y i j := by
  have lanes : ∀ (r : Fin numVr) (z : Matrix4), (∀ i j, vr r (rowMajor i j) = z i j) → ∀ i j : Fin 4, Host.lane vr r (i.val*4+j.val) = z i j := by
    intro r z holds i j
    have index : Fin.ofNat vecWidth (i.val*4+j.val) = rowMajor i j := by
      apply Fin.ext
      change (i.val*4+j.val)%16 = 4*i.val+j.val
      omega
    unfold Host.lane
    rw [index]
    exact holds i j
  have row : (rowMajor i j).val/4 = i.val := by
    change (4*i.val+j.val)/4 = i.val
    omega
  have column : (rowMajor i j).val%4 = j.val := by
    change (4*i.val+j.val)%4 = j.val
    omega
  unfold Host.tileElement Host.tileSum Host.product
  rw [row,column,← List.map_coe_finRange_eq_range,List.foldl_map]
  congr 1
  funext sum k
  rw [lanes a x left i k,lanes b y right k j]

theorem vrBytes_word (mem : ByteStore) (addr : Nat) (lanes : Fin vecWidth → Word) (k : Fin vecWidth) :
    (mem.write addr (vrBytes lanes)).word (addr+4*k.val) = lanes k := by
  have words : vrBytes lanes = ((List.finRange vecWidth).map lanes).flatMap wordBytes := by
    rw [List.flatMap_map]
    rfl
  rw [words]
  exact word_written mem addr (by simp)

theorem multiplied {m : Machine} (apart : a1.toNat+64 ≤ a2.toNat ∨ a2.toNat+64 ≤ a1.toNat) (left : HoldsMatrix s.ram m1.toNat x)
    (right : HoldsMatrix s.ram m2.toNat y) (halted : m.regs.halt = true)
    (store : m.core.store = exec h (kernel a1 a2 m1 m2 mr) s) : Multiplied h x y s.ram mr.toNat m := by
  obtain ⟨lanes,stored⟩ := kernel_exec h a1 a2 m1 m2 mr s
  rw [← store] at lanes stored
  have vr : m.regs.vr = results h a1 a2 m1 m2 s := lanes
  have ram : m.mainRam = _ := stored
  refine ⟨halted,?_,?_,?_⟩
  · intro i j
    rw [ram,ByteStore.word_copied _ _ _ _ (rowMajor_inside i j),vrBytes_word,results_lanes,Function.update_self]
    exact tileElement_product (operands_left apart left) (operands_right right) i j
  · intro i j
    rw [vr,results_lanes,Function.update_of_ne (by decide),Function.update_self,Host.laneSum,operands_left apart left,operands_right right]
  · intro a outside
    rw [ram,ByteStore.write_outside _ _ _ _ (by rw [ByteStore.read_length]; exact outside)]

end Results
end Tile

theorem loadProgram_ok {e : Emulator} {bytes : List Byte} (small : bytes.length ≤ textSize)
    (inside : textBase.toNat+bytes.length ≤ e.core.scratchpad.size) : e.loadProgram bytes =
      .ok (Emulator.clearBlocks {e with core := {e.core with scratchpad := e.core.scratchpad.write textBase.toNat bytes}}) := by
  unfold Emulator.loadProgram
  rw [if_neg (by omega),VirtualSRAM.writeBytes,if_pos inside]

theorem launched_ready {code : List Word} (fits : 4*code.length ≤ textSize) (ram : ByteStore) :
    ∃ e, Emulator.launched code ram = .ok e ∧ Ready code 0 e.core.core ∧ e.blockCache = .empty ∧
      e.core.profiler = .initial ∧ e.core.core.store.pad.size = scratchpadSize ∧ e.core.core.store.ram = ram := by
  have length : (code.flatMap wordBytes).length = 4*code.length := by
    rw [List.length_flatMap]
    simp [wordBytes,Nat.mul_comm]
  have sizes : scratchpadSize = 67108864 ∧ textSize = 8388608 ∧ mmioBase.toNat = 66060288 := by decide
  obtain ⟨pad,text,devices⟩ := sizes
  have inside : textBase.toNat+(code.flatMap wordBytes).length ≤ scratchpadSize := by
    rw [length]
    change 0+4*code.length ≤ _
    omega
  have loaded : Loaded 0 code ((zeroStore scratchpadSize).write 0 (code.flatMap wordBytes)) :=
    ⟨by change _ ≤ scratchpadSize; omega,by omega,fun _ _ listed => word_written _ 0 listed⟩
  have cfg : (Machine.initial 0 0).axi.cfg.dataWidth*(Machine.initial 0 0).axi.cfg.burstLen ≠ 0 := by decide
  have masked : CSRFile.initial.mstatusMie = false := by decide
  refine ⟨⟨{Machine.initial scratchpadSize mainRamSize with
    mainRam := ram,scratchpad := (zeroStore scratchpadSize).write 0 (code.flatMap wordBytes)},.empty⟩,?_,?_,rfl,rfl,rfl,rfl⟩
  · exact loadProgram_ok (by omega) inside
  · exact ⟨⟨rfl,.inl masked⟩,cfg,rfl,rfl,rfl,loaded,by change _ ≤ scratchpadSize; omega,rfl⟩

-- From a fresh emulator both loops halt with the product in main RAM, the sum in v2
-- and the rest of main RAM as it was.
theorem tile_kernel_multiplies (h : Host) (a1 a2 m1 m2 mr : BitVec 16) (x y : Matrix4) (ram : ByteStore) (size : ram.size = mainRamSize)
    (left : HoldsMatrix ram m1.toNat x) (right : HoldsMatrix ram m2.toNat y)
    (first : 4*(tileKernel a1 a2 m1 m2 mr).length ≤ a1.toNat) (second : 4*(tileKernel a1 a2 m1 m2 mr).length ≤ a2.toNat)
    (apart : a1.toNat+64 ≤ a2.toNat ∨ a2.toNat+64 ≤ a1.toNat) :
    ∃ e, Emulator.launched (tileKernel a1 a2 m1 m2 mr) ram = .ok e ∧
      (∃ m, Reaches (runNext h) (.loop e.core) (.done m) ∧ Multiplied h x y ram mr.toNat m) ∧
      ∃ m cache, Reaches (fastNext h) (.loop e) (.done ⟨m,cache⟩) ∧ Multiplied h x y ram mr.toNat m := by
  obtain ⟨e,launched,ready,empty,_,pad,contents⟩ := launched_ready (show 4*(tileKernel a1 a2 m1 m2 mr).length ≤ textSize by change 56 ≤ textSize; decide) ram
  rw [← Tile.kernel_assembled] at ready
  have faithful : Faithful (Tile.assemble (Tile.kernel a1 a2 m1 m2 mr)) e.blockCache := by
    intro pc blk found
    rw [empty] at found
    cases found
  have safe := Tile.kernel_safe h a1 a2 m1 m2 mr e.core.core.store first second pad (by rw [contents]; exact size)
  rw [← contents] at left right
  obtain ⟨slow,fast⟩ := Tile.runs (h := h) e ready faithful safe
  obtain ⟨m,ran,halted,store⟩ := slow
  obtain ⟨n,cache,replayed,stopped,same⟩ := fast
  have multiplied : Multiplied h x y e.core.core.store.ram mr.toNat m := Tile.multiplied apart left right halted store
  have again : Multiplied h x y e.core.core.store.ram mr.toNat n := Tile.multiplied apart left right stopped same
  rw [contents] at multiplied again
  exact ⟨e,launched,⟨m,ran,multiplied⟩,n,cache,replayed,again⟩

-- The addresses of the integration program, with the identity and a matrix of twos.
def identity4 (i j : Fin 4) : Word := if i = j then 0x3F800000 else 0

def twos4 (_ _ : Fin 4) : Word := 0x40000000

def operandRam : ByteStore := (zeroStore mainRamSize).write 0
  ((((List.finRange 4).flatMap fun i => (List.finRange 4).map (identity4 i)) ++ List.replicate 16 0x40000000).flatMap wordBytes)

theorem tile_kernel_multiplies_identity : ∃ e, Emulator.launched (tileKernel 0x1000 0x1040 0 64 0x2000) operandRam = .ok e ∧
    (∃ m, Reaches (runNext (.ieee .avx2)) (.loop e.core) (.done m) ∧ Multiplied (.ieee .avx2) identity4 twos4 operandRam 0x2000 m) ∧
    ∃ m cache, Reaches (fastNext (.ieee .avx2)) (.loop e) (.done ⟨m,cache⟩) ∧
      Multiplied (.ieee .avx2) identity4 twos4 operandRam 0x2000 m := by
  have left : HoldsMatrix operandRam 0 identity4 := by
    unfold HoldsMatrix
    decide
  have right : HoldsMatrix operandRam 64 twos4 := by
    unfold HoldsMatrix
    decide
  exact tile_kernel_multiplies (.ieee .avx2) 0x1000 0x1040 0 64 0x2000 identity4 twos4 operandRam rfl left right (by decide) (by decide)
    (by decide)

end Novium
