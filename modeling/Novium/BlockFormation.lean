import Novium.Blocks

namespace Novium
open Storage Effects

-- What a cache miss is to decode: the words from `pc` on, up to the first of HALT, JMP,
-- BEQ and BNE, the end of the line of 64 bytes or the 32nd word.
structure Formed (mem : ByteStore) (pc : Word) (blk : DecodedBlock) : Prop where
  start : blk.startPc = pc
  nonempty : 1 ≤ blk.ops.length
  bounded : blk.ops.length ≤ 32
  words : ∀ i ins, blk.ops[i]? = some ins → VirtualSRAM.read32 mem (opPc pc i) = .ok ins.raw
  ends : blk.endPc = opPc pc blk.ops.length
  straight : ∀ i ins, i+1 < blk.ops.length → blk.ops[i]? = some ins →
    ins.opcode ∉ [some .halt,some .jmp,some .beq,some .bne]
  inLine : ∀ i, 0 < i → i < blk.ops.length → (opPc pc i).toNat % 64 ≠ 0
  stops : (∃ last, blk.ops.getLast? = some last ∧ last.opcode ∈ [some .halt,some .jmp,some .beq,some .bne]) ∨
    blk.endPc.toNat % 64 = 0 ∨ blk.ops.length = 32
  halts : blk.endsWithHalt = true ↔ ∃ last, blk.ops.getLast? = some last ∧ last.opcode = some .halt
  branches : blk.endsWithBranch = true ↔
    ∃ last, blk.ops.getLast? = some last ∧ last.opcode ∈ [some .jmp,some .beq,some .bne]

-- The scan gets to the i-th word.
def ScanReaches (mem : ByteStore) (pc : Word) (i : Nat) : Prop :=
  ∀ j < i, ∃ raw, VirtualSRAM.read32 mem (opPc pc j) = .ok raw ∧
    (⟨raw⟩ : Instruction).opcode ∉ [some .halt,some .jmp,some .beq,some .bne] ∧ (opPc pc (j+1)).toNat % 64 ≠ 0

-- Every word that the scan gets to can be read.
def Readable (mem : ByteStore) (pc : Word) : Prop :=
  ∀ i < 32, ScanReaches mem pc i → ∃ raw, VirtualSRAM.read32 mem (opPc pc i) = .ok raw

theorem line_iff (a : Word) : a &&& 0x3F = 0 ↔ a.toNat % 64 = 0 := by
  rw [←BitVec.toNat_inj,BitVec.toNat_and]
  change a.toNat &&& (2^6-1) = 0 ↔ _
  rw [Nat.and_two_pow_sub_one_eq_mod]

theorem endsBlock_iff (ins : Instruction) :
    ins.endsBlock = true ↔ ins.opcode ∈ [some .halt,some .jmp,some .beq,some .bne] := by
  unfold Instruction.endsBlock
  cases ins.opcode with
  | none => simp
  | some op => cases op <;> simp [Opcode.endsBlock]

theorem straight_iff (ins : Instruction) :
    ins.endsBlock = false ↔ ins.opcode ∉ [some .halt,some .jmp,some .beq,some .bne] := by
  rw [←endsBlock_iff,Bool.not_eq_true]

theorem last_cons {P : Instruction → Prop} {ins : Instruction} (ops : List Instruction) (other : ¬P ins) :
    (∃ last, (ins :: ops).getLast? = some last ∧ P last) ↔ ∃ last, ops.getLast? = some last ∧ P last := by
  cases ops with
  | nil => simp [other]
  | cons next ops => rw [List.getLast?_cons_cons]

structure ScanFormed (left : Nat) (cur : Word) (scan : Scan) : Prop where
  nonempty : 0 < left → scan.ops ≠ []
  bounded : scan.ops.length ≤ left
  straight : ∀ i ins, i+1 < scan.ops.length → scan.ops[i]? = some ins → ins.endsBlock = false
  inLine : ∀ i, 0 < i → i < scan.ops.length → (opPc cur i).toNat % 64 ≠ 0
  stops : (∃ last, scan.ops.getLast? = some last ∧ last.endsBlock = true) ∨ scan.endPc.toNat % 64 = 0 ∨
    scan.ops.length = left
  halts : scan.endsWithHalt = true ↔ ∃ last, scan.ops.getLast? = some last ∧ last.opcode = some .halt
  branches : scan.endsWithBranch = true ↔
    ∃ last, scan.ops.getLast? = some last ∧ last.opcode ∈ [some .jmp,some .beq,some .bne]

variable {mem : ByteStore}

theorem ScanFormed.more {left : Nat} {cur : Word} {ins : Instruction} {rest : Scan} (formed : ScanFormed left (cur+4) rest)
    (straight : ins.endsBlock = false) (line : (cur+4).toNat % 64 ≠ 0) :
    ScanFormed (left+1) cur {rest with ops := ins :: rest.ops} where
  nonempty := fun _ => List.cons_ne_nil _ _
  bounded := Nat.succ_le_succ formed.bounded
  straight := by
    intro i op before found
    cases i with
    | zero =>
        cases found
        exact straight
    | succ i => exact formed.straight i op (Nat.lt_of_succ_lt_succ before) found
  inLine := by
    intro i positive before
    obtain ⟨i,rfl⟩ := Nat.exists_eq_add_one_of_ne_zero (Nat.ne_of_gt positive)
    rw [←opPc_succ]
    cases i with
    | zero =>
        rw [opPc_zero]
        exact line
    | succ i => exact formed.inLine (i+1) (Nat.succ_pos i) (Nat.lt_of_succ_lt_succ before)
  stops := by
    rcases formed.stops with ends | line | full
    · exact .inl ((last_cons rest.ops (by rw [straight]; exact Bool.false_ne_true)).mpr ends)
    · exact .inr (.inl line)
    · exact .inr (.inr (congrArg Nat.succ full))
  halts := by
    have other := (straight_iff ins).mp straight
    rw [last_cons rest.ops fun same => other (by rw [same]; decide)]
    exact formed.halts
  branches := by
    have other := (straight_iff ins).mp straight
    rw [last_cons rest.ops fun listed => other (List.mem_cons_of_mem _ listed)]
    exact formed.branches

theorem ScanFormed.single {left : Nat} {cur endPc : Word} {ins : Instruction} {branch halt : Bool}
    (stops : ins.endsBlock = true ∨ endPc.toNat % 64 = 0) (halts : halt = true ↔ ins.opcode = some .halt)
    (branches : branch = true ↔ ins.opcode ∈ [some .jmp,some .beq,some .bne]) :
    ScanFormed (left+1) cur ⟨[ins],endPc,branch,halt⟩ where
  nonempty := fun _ => List.cons_ne_nil _ _
  bounded := Nat.succ_le_succ (Nat.zero_le left)
  straight := by
    intro i op before
    exact absurd before (Nat.not_lt.mpr (Nat.le_add_left 1 i))
  inLine := by
    intro i positive before
    exact absurd before (Nat.not_lt.mpr positive)
  stops := by
    rcases stops with ends | line
    · exact .inl ⟨ins,rfl,ends⟩
    · exact .inr (.inl line)
  halts := by simpa using halts
  branches := by simpa using branches

theorem scanBlock_formed {left : Nat} {cur : Word} {scan : Scan} (scanned : scanBlock mem left cur = .ok scan) :
    ScanFormed left cur scan := by
  induction left generalizing cur scan with
  | zero =>
      cases scanned
      exact ⟨fun none => absurd none (Nat.lt_irrefl 0),Nat.le_refl 0,by simp,by simp,.inr (.inr rfl),by simp,by simp⟩
  | succ left ih =>
      cases scanBlock_pass.mp scanned with
      | @ends raw word ends =>
          refine .single (.inl ends) decide_eq_true_iff ?_
          have listed := List.mem_cons.mp ((endsBlock_iff ⟨raw⟩).mp ends)
          rw [decide_eq_true_iff]
          constructor
          · exact listed.resolve_left
          · intro branches same
            rw [same] at branches
            exact absurd branches (by decide)
      | @line raw word straight line =>
          have other := (straight_iff ⟨raw⟩).mp straight
          refine .single (.inr ((line_iff _).mp line)) ?_ ?_
          · exact iff_of_false Bool.false_ne_true fun same => other (by rw [same]; decide)
          · exact iff_of_false Bool.false_ne_true fun listed => other (List.mem_cons_of_mem _ listed)
      | more word straight line tail =>
          exact (ih tail).more straight fun same => line ((line_iff _).mpr same)

theorem freshBlock_formed {pc : Word} {blk : DecodedBlock} (fresh : freshBlock mem pc = .ok blk) : Formed mem pc blk := by
  obtain ⟨scan,scanned,rfl⟩ := freshBlock_ok.mp fresh
  have formed := scanBlock_formed scanned
  exact {
    start := rfl
    nonempty := List.length_pos_iff.mpr (formed.nonempty (by decide))
    bounded := formed.bounded
    words := fun _ _ => scanBlock_words scanned
    ends := scanBlock_end scanned
    straight := fun i ins before found => (straight_iff ins).mp (formed.straight i ins before found)
    inLine := formed.inLine
    stops := by
      rcases formed.stops with ⟨last,found,ends⟩ | others
      · exact .inl ⟨last,found,(endsBlock_iff last).mp ends⟩
      · exact .inr others
    halts := formed.halts
    branches := formed.branches}

theorem ScanReaches.succ {cur : Word} {raw : Word} {i : Nat} (word : VirtualSRAM.read32 mem cur = .ok raw)
    (straight : (⟨raw⟩ : Instruction).endsBlock = false) (line : (cur+4) &&& 0x3F ≠ 0)
    (reached : ScanReaches mem (cur+4) i) : ScanReaches mem cur (i+1) := by
  intro j before
  cases j with
  | zero =>
      refine ⟨raw,?_,(straight_iff _).mp straight,?_⟩
      · rw [opPc_zero]
        exact word
      · rw [←opPc_next,opPc_zero]
        exact fun same => line ((line_iff _).mpr same)
  | succ j =>
      have later := reached j (Nat.lt_of_succ_lt_succ before)
      rwa [opPc_succ,opPc_succ] at later

theorem scanBlock_returns {left : Nat} {cur : Word}
    (reads : ∀ i < left, ScanReaches mem cur i → ∃ raw, VirtualSRAM.read32 mem (opPc cur i) = .ok raw) :
    ∃ scan, scanBlock mem left cur = .ok scan := by
  induction left generalizing cur with
  | zero => exact ⟨_,rfl⟩
  | succ left ih =>
      obtain ⟨raw,word⟩ := reads 0 (Nat.succ_pos left) fun _ none => absurd none (Nat.not_lt_zero _)
      rw [opPc_zero] at word
      by_cases ends : (⟨raw⟩ : Instruction).endsBlock = true
      · exact ⟨_,scanBlock_pass.mpr (.ends word ends)⟩
      · have straight := Bool.eq_false_iff.mpr ends
        by_cases line : (cur+4) &&& 0x3F = 0
        · exact ⟨_,scanBlock_pass.mpr (.line word straight line)⟩
        · have later : ∀ i < left, ScanReaches mem (cur+4) i → ∃ raw, VirtualSRAM.read32 mem (opPc (cur+4) i) = .ok raw := by
            intro i before reached
            rw [opPc_succ]
            exact reads (i+1) (Nat.succ_lt_succ before) (reached.succ word straight line)
          obtain ⟨rest,tail⟩ := ih later
          exact ⟨_,scanBlock_pass.mpr (.more word straight line tail)⟩

theorem freshBlock_returns {pc : Word} (readable : Readable mem pc) : ∃ blk, freshBlock mem pc = .ok blk := by
  obtain ⟨scan,scanned⟩ := scanBlock_returns readable
  exact ⟨_,freshBlock_ok.mpr ⟨scan,scanned,rfl⟩⟩

namespace BlockCache
variable {c : BlockCache} {pc : Word} {blk : DecodedBlock}

-- Translations one after another, whatever the memory holds at each.
def translateAll (c : BlockCache) (calls : List (ByteStore × Word)) : BlockCache :=
  calls.foldl (fun c call => (c.translate call.1 call.2).2) c

theorem translate_missed (miss : c.map pc = none) (fresh : freshBlock mem pc = .ok blk) :
    (c.translate mem pc).1 = .ok blk ∧ (c.translate mem pc).2.map pc = some blk := by
  unfold translate
  split
  · rename_i found
    rw [miss] at found
    cases found
  · split
    · rename_i failed
      rw [fresh] at failed
      cases failed
    · rename_i decoded made
      rw [fresh] at made
      cases made
      exact ⟨rfl,Function.update_self ..⟩

theorem translate_hit (found : c.map pc = some blk) (mem : ByteStore) : (c.translate mem pc).1 = .ok blk := by
  unfold translate
  rw [found]

theorem translate_keeps (found : c.map pc = some blk) (mem : ByteStore) (other : Word) :
    (c.translate mem other).2.map pc = some blk := by
  unfold translate
  split
  · exact found
  · rename_i miss
    split
    · exact found
    · have apart : pc ≠ other := by
        rintro rfl
        rw [found] at miss
        cases miss
      exact (Function.update_of_ne apart ..).trans found

theorem translateAll_keeps (calls : List (ByteStore × Word)) (found : c.map pc = some blk) :
    (c.translateAll calls).map pc = some blk := by
  induction calls generalizing c with
  | nil => exact found
  | cons call calls ih => exact ih (translate_keeps found call.1 call.2)

end BlockCache

theorem block_formation (c : BlockCache) (mem : ByteStore) (pc : Word) (miss : c.map pc = none)
    (readable : Readable mem pc) :
    ∃ blk, (c.translate mem pc).1 = .ok blk ∧ Formed mem pc blk ∧
      ∀ (calls : List (ByteStore × Word)) (now : ByteStore),
        (((c.translate mem pc).2.translateAll calls).translate now pc).1 = .ok blk := by
  obtain ⟨blk,fresh⟩ := freshBlock_returns readable
  obtain ⟨returned,stored⟩ := BlockCache.translate_missed miss fresh
  refine ⟨blk,returned,freshBlock_formed fresh,?_⟩
  intro calls now
  exact BlockCache.translate_hit (BlockCache.translateAll_keeps calls stored) now

-- NOP and HALT in a memory of two words: no read goes behind the HALT.
def haltingWords : ByteStore := ({size := 8,byte := fun _ => 0} : ByteStore).write 4 (wordBytes Enc.halt)

theorem haltingWords_readable : Readable haltingWords 0 := by
  intro i small reached
  rcases i with _ | _ | i
  · exact ⟨_,rfl⟩
  · exact ⟨_,rfl⟩
  · obtain ⟨raw,word,straight,_⟩ := reached 1 (by omega)
    have halt : VirtualSRAM.read32 haltingWords (opPc 0 1) = .ok Enc.halt := by decide +kernel
    rw [halt] at word
    cases word
    exact absurd straight (by decide +kernel)

theorem block_formation_halting :
    ∃ blk, (BlockCache.empty.translate haltingWords 0).1 = .ok blk ∧ Formed haltingWords 0 blk ∧
      ∀ (calls : List (ByteStore × Word)) (now : ByteStore),
        (((BlockCache.empty.translate haltingWords 0).2.translateAll calls).translate now 0).1 = .ok blk :=
  block_formation .empty haltingWords 0 rfl haltingWords_readable

end Novium
