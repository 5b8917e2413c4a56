import Novium.Emulator

namespace Novium
open Storage Effects

def opPc (start : Word) (i : Nat) : Word := start + BitVec.ofNat 32 (4*i)

@[simp] theorem opPc_zero (start : Word) : opPc start 0 = start := by
  simp [opPc]

theorem opPc_next (start : Word) (i : Nat) : opPc start i + 4 = opPc start (i+1) := by
  simp only [opPc,Nat.mul_add,BitVec.ofNat_add,BitVec.add_assoc]
  rfl

theorem opPc_succ (start : Word) (i : Nat) : opPc (start+4) i = opPc start (i+1) := by
  rw [← opPc_next]
  simp only [opPc,BitVec.add_assoc,BitVec.add_comm 4]

variable {mem other : ByteStore}

-- One pass of the decoding loop: the word ends the block, it is the last one of its
-- line, or the scan goes on behind it.
inductive ScanPass (mem : ByteStore) (left : Nat) (cur : Word) : Scan → Prop where
  | ends : VirtualSRAM.read32 mem cur = .ok raw → (⟨raw⟩ : Instruction).endsBlock = true →
      ScanPass mem left cur ⟨[⟨raw⟩],cur+4,(⟨raw⟩ : Instruction).opcode ≠ some .halt,
        (⟨raw⟩ : Instruction).opcode = some .halt⟩
  | line : VirtualSRAM.read32 mem cur = .ok raw → (⟨raw⟩ : Instruction).endsBlock = false → (cur+4) &&& 0x3F = 0 →
      ScanPass mem left cur ⟨[⟨raw⟩],cur+4,false,false⟩
  | more : VirtualSRAM.read32 mem cur = .ok raw → (⟨raw⟩ : Instruction).endsBlock = false → (cur+4) &&& 0x3F ≠ 0 →
      scanBlock mem left (cur+4) = .ok rest → ScanPass mem left cur {rest with ops := ⟨raw⟩ :: rest.ops}

theorem scanBlock_pass {left : Nat} {cur : Word} {scan : Scan} :
    scanBlock mem (left+1) cur = .ok scan ↔ ScanPass mem left cur scan := by
  constructor
  · intro scanned
    unfold scanBlock at scanned
    split at scanned
    · cases scanned
    · rename_i word
      dsimp only at scanned
      split at scanned
      · rename_i ends
        cases scanned
        exact .ends word ends
      · rename_i straight
        split at scanned
        · rename_i line
          cases scanned
          exact .line word (by simpa using straight) line
        · rename_i line
          split at scanned
          · cases scanned
          · rename_i tail
            cases scanned
            exact .more word (by simpa using straight) line tail
  · intro pass
    unfold scanBlock
    cases pass with
    | ends word ends => simp only [word,ends,if_true]
    | line word straight line => simp only [word,straight,line,Bool.false_eq_true,if_false,if_true]
    | more word straight line tail => simp only [word,straight,line,tail,Bool.false_eq_true,if_false]

theorem ScanPass.first {left : Nat} {cur : Word} {scan : Scan} (pass : ScanPass mem left cur scan) :
    ∃ ins, scan.ops[0]? = some ins ∧ VirtualSRAM.read32 mem cur = .ok ins.raw := by
  cases pass with
  | ends word _ => exact ⟨_,rfl,word⟩
  | line word _ _ => exact ⟨_,rfl,word⟩
  | more word _ _ _ => exact ⟨_,rfl,word⟩

theorem scanBlock_words {left : Nat} {cur : Word} {scan : Scan} (scanned : scanBlock mem left cur = .ok scan)
    {i : Nat} {ins : Instruction} (op : scan.ops[i]? = some ins) :
    VirtualSRAM.read32 mem (opPc cur i) = .ok ins.raw := by
  induction left generalizing cur scan i with
  | zero =>
    cases scanned
    simp at op
  | succ left ih =>
    have pass := scanBlock_pass.mp scanned
    cases i with
    | zero =>
      obtain ⟨first,found,word⟩ := pass.first
      rw [op] at found
      cases found
      rw [opPc_zero]
      exact word
    | succ i =>
      rw [← opPc_succ]
      cases pass with
      | ends => simp at op
      | line => simp at op
      | more _ _ _ tail => exact ih tail (by simpa using op)

theorem freshBlock_words {pc : Word} {blk : DecodedBlock} (fresh : freshBlock mem pc = .ok blk)
    {i : Nat} {ins : Instruction} (op : blk.ops[i]? = some ins) :
    VirtualSRAM.read32 mem (opPc pc i) = .ok ins.raw := by
  obtain ⟨scan,scanned,rfl⟩ := freshBlock_ok.mp fresh
  exact scanBlock_words scanned op

theorem freshBlock_nonempty {pc : Word} {blk : DecodedBlock} (fresh : freshBlock mem pc = .ok blk) :
    ∃ ins, blk.ops[0]? = some ins := by
  obtain ⟨scan,scanned,rfl⟩ := freshBlock_ok.mp fresh
  obtain ⟨ins,found,_⟩ := (scanBlock_pass.mp scanned).first
  exact ⟨ins,found⟩

theorem scanBlock_end {left : Nat} {cur : Word} {scan : Scan} (scanned : scanBlock mem left cur = .ok scan) :
    scan.endPc = opPc cur scan.ops.length := by
  induction left generalizing cur scan with
  | zero =>
    cases scanned
    simp
  | succ left ih =>
    cases scanBlock_pass.mp scanned with
    | ends => simp [← opPc_next]
    | line => simp [← opPc_next]
    | more _ _ _ rest =>
      change _ = opPc cur (_+1)
      rw [← opPc_succ]
      exact ih rest

theorem freshBlock_end {pc : Word} {blk : DecodedBlock} (fresh : freshBlock mem pc = .ok blk) :
    blk.endPc = opPc blk.startPc blk.ops.length := by
  obtain ⟨scan,scanned,rfl⟩ := freshBlock_ok.mp fresh
  exact scanBlock_end scanned

-- Two memories that agree below a bound decode alike below it.
def AgreeBelow (bound : Nat) (mem other : ByteStore) : Prop :=
  bound ≤ mem.size ∧ bound ≤ other.size ∧ ∀ a < bound, mem.byte a = other.byte a

theorem read32_agree {bound : Nat} (agree : AgreeBelow bound mem other) {addr : Word}
    (inside : addr.toNat+4 ≤ bound) : VirtualSRAM.read32 mem addr = VirtualSRAM.read32 other addr := by
  have left : addr.toNat+4 ≤ mem.size := Nat.le_trans inside agree.1
  have right : addr.toNat+4 ≤ other.size := Nat.le_trans inside agree.2.1
  have words : mem.word addr.toNat = other.word addr.toNat := by
    apply ByteStore.word_congr
    intro k small
    exact agree.2.2 _ (by omega)
  simp only [VirtualSRAM.read32,left,right,if_true,words]

theorem next_toNat {cur : Word} (room : cur.toNat+4 < 2^32) : (cur+4).toNat = cur.toNat+4 :=
  BitVec.toNat_add_of_lt room

theorem scanBlock_agree {bound : Nat} (agree : AgreeBelow bound mem other) (small : bound < 2^32)
    (left : Nat) {cur : Word} (inside : cur.toNat+4*left ≤ bound) :
    scanBlock mem left cur = scanBlock other left cur := by
  induction left generalizing cur with
  | zero => rfl
  | succ left ih =>
    have next : (cur+4).toNat = cur.toNat+4 := next_toNat (by omega)
    have tail : scanBlock mem left (cur+4) = scanBlock other left (cur+4) := ih (by omega)
    simp only [scanBlock,read32_agree agree (by omega : cur.toNat+4 ≤ bound),tail]

theorem freshBlock_agree {bound : Nat} (agree : AgreeBelow bound mem other) (small : bound < 2^32)
    {pc : Word} (inside : pc.toNat+128 ≤ bound) : freshBlock mem pc = freshBlock other pc := by
  unfold freshBlock
  rw [scanBlock_agree agree small maxBlockLen (by simpa [maxBlockLen] using inside)]

theorem scanBlock_total {bound : Nat} (room : bound ≤ mem.size) (small : bound < 2^32)
    (left : Nat) {cur : Word} (inside : cur.toNat+4*left ≤ bound) : ∃ scan, scanBlock mem left cur = .ok scan := by
  induction left generalizing cur with
  | zero => exact ⟨_,rfl⟩
  | succ left ih =>
    have next : (cur+4).toNat = cur.toNat+4 := next_toNat (by omega)
    obtain ⟨rest,tail⟩ := ih (by omega : (cur+4).toNat+4*left ≤ bound)
    have fits : cur.toNat+4 ≤ mem.size := by omega
    unfold scanBlock
    simp only [VirtualSRAM.read32,fits,if_true,tail]
    split
    · exact ⟨_,rfl⟩
    · split
      · exact ⟨_,rfl⟩
      · exact ⟨_,rfl⟩

theorem freshBlock_total {bound : Nat} (room : bound ≤ mem.size) (small : bound < 2^32)
    {pc : Word} (inside : pc.toNat+128 ≤ bound) : ∃ blk, freshBlock mem pc = .ok blk := by
  obtain ⟨scan,scanned⟩ := scanBlock_total room small maxBlockLen
    (by simpa [maxBlockLen] using inside : pc.toNat+4*maxBlockLen ≤ bound)
  exact ⟨_,freshBlock_ok.mpr ⟨scan,scanned,rfl⟩⟩

-- Every cached block is the one a miss would decode from `mem` now.
def FreshCache (mem : ByteStore) (cache : BlockCache) : Prop :=
  ∀ pc blk, cache.map pc = some blk → freshBlock mem pc = .ok blk

theorem FreshCache.empty (mem : ByteStore) : FreshCache mem .empty := fun _ _ none => nomatch none

-- Translation at a pc where the present memory still decodes as `mem` hands out the
-- block of `mem` and keeps the cache fresh.
theorem FreshCache.translate {mem now : ByteStore} {cache : BlockCache} {pc : Word} {blk : DecodedBlock}
    (sound : FreshCache mem cache) (same : freshBlock now pc = freshBlock mem pc) (fresh : freshBlock mem pc = .ok blk) :
    ∃ cache', cache.translate now pc = (.ok blk,cache') ∧ FreshCache mem cache' := by
  unfold BlockCache.translate
  split
  · rename_i stored found
    have known := sound pc stored found
    rw [fresh] at known
    cases known
    exact ⟨_,rfl,sound⟩
  · split
    · rename_i missed
      rw [same,fresh] at missed
      cases missed
    · rename_i decoded missed
      rw [same,fresh] at missed
      cases missed
      refine ⟨_,rfl,?_⟩
      intro key other found
      by_cases here : key = pc
      · subst here
        have stored : some blk = some other := by simpa [BlockCache.insert] using found
        cases stored
        exact fresh
      · exact sound key other (by simpa [BlockCache.insert,Function.update_of_ne here] using found)

def BlockCache.covers (c : BlockCache) (a : Nat) : Prop :=
  ∃ pc blk i, c.map pc = some blk ∧ i < blk.ops.length ∧ (opPc pc i).toNat ≤ a ∧ a < (opPc pc i).toNat+4

theorem read32_congr {addr : Word} (size : other.size = mem.size)
    (same : ∀ k < 4, other.byte (addr.toNat+k) = mem.byte (addr.toNat+k)) :
    VirtualSRAM.read32 other addr = VirtualSRAM.read32 mem addr := by
  simp only [VirtualSRAM.read32,size,ByteStore.word_congr same]

theorem scanBlock_kept {left : Nat} {cur : Word} {scan : Scan} (size : other.size = mem.size)
    (scanned : scanBlock mem left cur = .ok scan)
    (same : ∀ i < scan.ops.length, ∀ k < 4, other.byte ((opPc cur i).toNat+k) = mem.byte ((opPc cur i).toNat+k)) :
    scanBlock other left cur = .ok scan := by
  induction left generalizing cur scan with
  | zero => exact scanned
  | succ left ih =>
    have word : 0 < scan.ops.length → VirtualSRAM.read32 other cur = VirtualSRAM.read32 mem cur := by
      intro some
      apply read32_congr size
      simpa using same 0 some
    rw [scanBlock_pass] at scanned ⊢
    cases scanned with
    | ends stored ends => exact .ends ((word (by simp)).trans stored) ends
    | line stored straight line => exact .line ((word (by simp)).trans stored) straight line
    | more stored straight line tail =>
      refine .more ((word (by simp)).trans stored) straight line (ih tail ?_)
      intro i small
      rw [opPc_succ]
      exact same (i+1) (by simpa using small)

theorem freshBlock_kept {pc : Word} {blk : DecodedBlock} (size : other.size = mem.size)
    (fresh : freshBlock mem pc = .ok blk)
    (same : ∀ i < blk.ops.length, ∀ k < 4, other.byte ((opPc pc i).toNat+k) = mem.byte ((opPc pc i).toNat+k)) :
    freshBlock other pc = .ok blk := by
  rw [freshBlock_ok] at fresh ⊢
  obtain ⟨scan,scanned,rfl⟩ := fresh
  exact ⟨scan,scanBlock_kept size scanned same,rfl⟩

-- Memory may change wherever no cached operation was decoded from.
theorem FreshCache.kept {cache : BlockCache} (sound : FreshCache mem cache) (size : other.size = mem.size)
    (same : ∀ a, cache.covers a → other.byte a = mem.byte a) : FreshCache other cache := by
  intro pc blk found
  apply freshBlock_kept size (sound pc blk found)
  intro i small k within
  exact same _ ⟨pc,blk,i,found,small,by omega,by omega⟩

end Novium
