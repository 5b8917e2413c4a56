import Novium.Dma

namespace Novium
open Storage Effects Handlers

-- The words `dma_load` and `dma_store` make of a byte count.
inductive EncodesDma (rd ra : BitVec 8) (bytes : BitVec 16) : Opcode → Word → Prop where
  | load : EncodesDma rd ra bytes .dmaLoad (Enc.dmaLoad rd ra bytes)
  | store : EncodesDma rd ra bytes .dmaStore (Enc.dmaStore rd ra bytes)

-- The destination holds the bytes of the source as it was; nothing else has changed.
structure CopiesExactly (op : Opcode) (dest src bytes : Nat) (m m' : Machine) : Prop where
  copied : ∀ k < bytes, (m'.dmaDest op).byte (dest+k) = (m.dmaSrc op).byte (src+k)
  others : ∀ a, a < dest ∨ dest+bytes ≤ a → (m'.dmaDest op).byte a = (m.dmaDest op).byte a
  source : ∀ a, (m'.dmaSrc op).byte a = (m.dmaSrc op).byte a

section Length
variable {h : Host} {op : Opcode} {i : Instruction} {m m' : Machine} {rd ra : BitVec 8} {bytes : BitVec 16} {word : Word}

theorem EncodesDma.isDma (encodes : EncodesDma rd ra bytes op word) : op.isDma := by
  cases encodes with
  | load => exact .inl rfl
  | store => exact .inr rfl

theorem EncodesDma.fields (encodes : EncodesDma rd ra bytes op word) (firstBelow : rd.toNat < numGpr) (secondBelow : ra.toNat < numGpr) :
    (⟨word⟩ : Instruction).opcode = some op ∧ (⟨word⟩ : Instruction).rd.toNat = rd.toNat ∧
      (⟨word⟩ : Instruction).ra.toNat = ra.toNat ∧ (dmaCount ⟨word⟩).toNat = bytes.toNat % 2048 := by
  have register : ∀ {r : BitVec 8}, r.toNat < numGpr → (r.truncate 5).toNat = r.toNat := by
    intro r below
    rw [BitVec.truncate_eq_setWidth,BitVec.toNat_setWidth]
    exact Nat.mod_eq_of_lt (Nat.lt_trans below (by decide))
  have count : ((bytes.truncate 11).zeroExtend 32).toNat = bytes.toNat % 2048 := by
    rw [BitVec.zeroExtend_eq_setWidth,BitVec.truncate_eq_setWidth,BitVec.toNat_setWidth,BitVec.toNat_setWidth]
    omega
  cases encodes with
  | load =>
    rw [Enc.dmaLoad,Enc.rtype_opcode,Enc.rtype_rd,Enc.rtype_ra,dmaCount,Enc.rtype_func]
    exact ⟨rfl,register firstBelow,register secondBelow,count⟩
  | store =>
    rw [Enc.dmaStore,Enc.rtype_opcode,Enc.rtype_rd,Enc.rtype_ra,dmaCount,Enc.rtype_func]
    exact ⟨rfl,register firstBelow,register secondBelow,count⟩

theorem DmaSite.Copied.exact_iff {s : DmaSite m i} (copied : s.Copied op m') {count : Nat} (fewer : (dmaCount i).toNat ≤ count) :
    CopiesExactly op s.dest.toNat s.src.toNat count m m' ↔
      ∀ k, (dmaCount i).toNat ≤ k → k < count → (m.dmaDest op).byte (s.dest.toNat+k) = (m.dmaSrc op).byte (s.src.toNat+k) := by
  have untouched : ∀ a, a < s.dest.toNat ∨ s.dest.toNat+(dmaCount i).toNat ≤ a → (m'.dmaDest op).byte a = (m.dmaDest op).byte a := by
    intro a apart
    rw [copied.dest]
    apply ByteStore.write_outside
    rw [ByteStore.read_length]
    exact apart
  constructor
  · intro exact k beyond inside
    rw [← untouched _ (.inr (Nat.add_le_add_left beyond _))]
    exact exact.copied k inside
  · intro same
    refine ⟨?_,?_,?_⟩
    · intro k inside
      by_cases reached : k < (dmaCount i).toNat
      · rw [copied.dest]
        exact ByteStore.write_within _ _ (ByteStore.read_listed _ _ reached)
      · rw [untouched _ (.inr (Nat.add_le_add_left (Nat.not_lt.mp reached) _))]
        exact same k (Nat.not_lt.mp reached) inside
    · intro a apart
      exact untouched a (by omega)
    · intro a
      rw [copied.src]

theorem execute_inside (s : DmaSite m i) (opcode : i.opcode = some op) (dma : op.isDma) (inside : s.Inside op) :
    (m.issues = true ∧ ∃ cycles m', execute h i m = .ok cycles m' ∧ s.Copied op m') ∨
      (m.issues = false ∧ execute h i m = .undefined .zeroBurst) := by
  unfold execute
  rw [opcode]
  dsimp only
  rcases dma_inside h s dma inside with ⟨issues,axi,_,ran⟩ | ⟨stuck,ran⟩
  · refine .inl ⟨issues,_,_,Exec.bind_ok ran,?_⟩
    rcases dma with rfl | rfl
    · exact ⟨rfl,rfl⟩
    · exact ⟨rfl,rfl⟩
  · refine .inr ⟨stuck,?_⟩
    rw [Exec.bind_apply,ran]

end Length

-- The word copies the count modulo 2048, so that a longer transfer is complete only when
-- the rest of the destination already holds the bytes of the source.
theorem dma_length_iff (h : Host) (op : Opcode) (rd ra : BitVec 8) (bytes : BitVec 16) (word : Word) (m : Machine)
    (encodes : EncodesDma rd ra bytes op word) (first : rd.toNat < numGpr) (second : ra.toNat < numGpr) (off : m.mmu.enabled = false)
    (room : (m.regs.get ⟨rd.toNat,first⟩).toNat+bytes.toNat ≤ (m.dmaDest op).size)
    (source : (m.regs.get ⟨ra.toNat,second⟩).toNat+bytes.toNat ≤ (m.dmaSrc op).size) :
    (∃ cycles m', execute h ⟨word⟩ m = .ok cycles m' ∧
      CopiesExactly op (m.regs.get ⟨rd.toNat,first⟩).toNat (m.regs.get ⟨ra.toNat,second⟩).toNat bytes.toNat m m') ↔
    m.issues = true ∧ ∀ k, bytes.toNat % 2048 ≤ k → k < bytes.toNat →
      (m.dmaDest op).byte ((m.regs.get ⟨rd.toNat,first⟩).toNat+k) = (m.dmaSrc op).byte ((m.regs.get ⟨ra.toNat,second⟩).toNat+k) := by
  obtain ⟨opcode,destReg,srcReg,count⟩ := encodes.fields first second
  have fewer : (dmaCount ⟨word⟩).toNat ≤ bytes.toNat := by
    rw [count]
    exact Nat.mod_le _ _
  have readDest : m.regs.readGpr (⟨word⟩ : Instruction).rd.toNat = some (m.regs.get ⟨rd.toNat,first⟩) := by
    rw [destReg]
    exact m.regs.readGpr_get ⟨rd.toNat,first⟩
  have readSrc : m.regs.readGpr (⟨word⟩ : Instruction).ra.toNat = some (m.regs.get ⟨ra.toNat,second⟩) := by
    rw [srcReg]
    exact m.regs.readGpr_get ⟨ra.toNat,second⟩
  let s : DmaSite m ⟨word⟩ := .ofRegs off readDest readSrc
  have inside : s.Inside op :=
    ⟨Nat.le_trans (Nat.add_le_add_left fewer _) room,Nat.le_trans (Nat.add_le_add_left fewer _) source⟩
  rw [← count]
  rcases execute_inside (h := h) s opcode encodes.isDma inside with ⟨issues,cycles,m',ran,copied⟩ | ⟨stuck,ran⟩
  · constructor
    · rintro ⟨_,_,ran',exact⟩
      cases ran.symm.trans ran'
      exact ⟨issues,(copied.exact_iff fewer).mp exact⟩
    · rintro ⟨_,same⟩
      exact ⟨cycles,m',ran,(copied.exact_iff fewer).mpr same⟩
  · constructor
    · rintro ⟨_,_,ran',_⟩
      cases ran.symm.trans ran'
    · rintro ⟨issues,_⟩
      cases stuck.symm.trans issues

-- An erased scratchpad beside main RAM full of ones.
def onesInRam : Machine := {Machine.initial 4096 4096 with mainRam := ⟨4096,fun _ => 1⟩}

theorem dma_length_longest : ∃ cycles m', execute (.ieee .scalar) ⟨Enc.dmaLoad 1 2 2047⟩ onesInRam = .ok cycles m' ∧
    CopiesExactly .dmaLoad 0 0 2047 onesInRam m' := by
  refine (dma_length_iff (.ieee .scalar) .dmaLoad 1 2 2047 _ onesInRam .load (by decide) (by decide) rfl (by decide) (by decide)).mpr
    ⟨by decide +kernel,?_⟩
  intro k beyond inside
  exact absurd inside (Nat.not_lt.mpr beyond)

-- A transfer of 2048 bytes copies none.
theorem dma_length_lost : ¬ ∀ (h : Host) (op : Opcode) (rd ra : BitVec 8) (bytes : BitVec 16) (word : Word) (m : Machine)
    (first : rd.toNat < numGpr) (second : ra.toNat < numGpr), EncodesDma rd ra bytes op word → m.mmu.enabled = false →
      (m.regs.get ⟨rd.toNat,first⟩).toNat+bytes.toNat ≤ (m.dmaDest op).size →
      (m.regs.get ⟨ra.toNat,second⟩).toNat+bytes.toNat ≤ (m.dmaSrc op).size →
      ∃ cycles m', execute h ⟨word⟩ m = .ok cycles m' ∧
        CopiesExactly op (m.regs.get ⟨rd.toNat,first⟩).toNat (m.regs.get ⟨ra.toNat,second⟩).toNat bytes.toNat m m' := by
  intro right
  obtain ⟨cycles,m',ran,exact⟩ := right (.ieee .scalar) .dmaLoad 1 2 2048 _ onesInRam (by decide) (by decide) .load rfl (by decide) (by decide)
  have erased : (execute (.ieee .scalar) ⟨Enc.dmaLoad 1 2 2048⟩ onesInRam).Sat (fun _ m' => m'.scratchpad.byte 0 = 0)
      (fun _ _ => False) (fun _ => False) := by decide +kernel
  rw [ran] at erased
  have copied : m'.scratchpad.byte 0 = 1 := exact.copied 0 (by decide)
  rw [show m'.scratchpad.byte 0 = 0 from erased] at copied
  exact absurd copied (by decide)

end Novium
