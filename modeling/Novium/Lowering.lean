import Novium.Decoder
import Novium.Rv32
import Mathlib.Tactic.IntervalCases

namespace Novium
open Storage

namespace TranslationEngine

section Fields
variable (w : Word)

-- The shifts and masks of the decoder read the fields of the format.
theorem opcode_field : w &&& 0x7F = (Rv32.opcode w).zeroExtend 32 := by
  unfold Rv32.opcode
  ext k inside
  interval_cases k <;> simp

theorem funct3_field : (w >>> 12) &&& 0x7 = (Rv32.funct3 w).zeroExtend 32 := by
  unfold Rv32.funct3
  ext k inside
  interval_cases k <;> simp

theorem funct7_field : (w >>> 25) &&& 0x7F = (Rv32.funct7 w).zeroExtend 32 := by
  unfold Rv32.funct7
  ext k inside
  interval_cases k <;> simp

-- The host register that stands for a guest register.
def host (r : Rv32.Reg) : BitVec 8 := r.zeroExtend 8 &&& 0xF

theorem reg_rd : reg ((w >>> 7) &&& 0x1F) = host (Rv32.rd w) := by
  unfold reg host Rv32.rd
  ext k inside
  interval_cases k <;> simp

theorem reg_rs1 : reg ((w >>> 15) &&& 0x1F) = host (Rv32.rs1 w) := by
  unfold reg host Rv32.rs1
  ext k inside
  interval_cases k <;> simp

theorem reg_rs2 : reg ((w >>> 20) &&& 0x1F) = host (Rv32.rs2 w) := by
  unfold reg host Rv32.rs2
  ext k inside
  interval_cases k <;> simp

theorem immI_field : (w.sshiftRight 20 &&& 0xFFFF).truncate 16 = (Rv32.immI w).signExtend 16 := by
  unfold Rv32.immI
  ext k inside
  interval_cases k <;> simp [BitVec.getElem_signExtend,BitVec.getElem_sshiftRight,BitVec.msb_eq_getLsbD_last]

theorem and_bit {v mask : Word} {b : Nat} (single : mask = BitVec.twoPow 32 b) (nonzero : mask ≠ 0) :
    (v &&& mask ≠ 0) ↔ v.getLsbD b = true := by
  subst single
  rw [BitVec.and_twoPow]
  cases v.getLsbD b with
  | true => simpa using nonzero
  | false => simp

-- Setting the bits above the field when its top bit is set extends the sign.
theorem sign_filled {n : Nat} (low : BitVec n) (high : Word) (fill : ∀ k < 32, high.getLsbD k = decide (n ≤ k)) :
    (if low.msb = true then low.setWidth 32 ||| high else low.setWidth 32) = low.signExtend 32 := by
  cases negative : low.msb with
  | false =>
    rw [BitVec.signExtend_eq_setWidth_of_msb_false negative]
    exact if_neg Bool.false_ne_true
  | true =>
    rw [if_pos rfl]
    apply BitVec.eq_of_getLsbD_eq
    intro k inside
    rw [BitVec.getLsbD_or,fill k inside,BitVec.getLsbD_setWidth,BitVec.getLsbD_signExtend,negative]
    by_cases within : k < n
    · simp [within,inside]
    · simp [within,inside,Nat.not_lt.mp within]

theorem immS_parts : ((w >>> 25) <<< 5) ||| ((w >>> 7) &&& 0x1F) = (Rv32.immS w).setWidth 32 := by
  apply BitVec.eq_of_getLsbD_eq
  intro k inside
  rw [BitVec.getLsbD_setWidth,Rv32.immS_bit]
  interval_cases k <;> simp

theorem immB_parts : (((w >>> 31) &&& 1) <<< 12) ||| (((w >>> 7) &&& 1) <<< 11) ||| (((w >>> 25) &&& 0x3F) <<< 5) |||
    (((w >>> 8) &&& 0xF) <<< 1) = (Rv32.immB w).setWidth 32 := by
  apply BitVec.eq_of_getLsbD_eq
  intro k inside
  rw [BitVec.getLsbD_setWidth,Rv32.immB_bit]
  interval_cases k <;> simp

theorem immJ_parts : (((w >>> 31) &&& 1) <<< 20) ||| (((w >>> 12) &&& 0xFF) <<< 12) ||| (((w >>> 20) &&& 1) <<< 11) |||
    (((w >>> 21) &&& 0x3FF) <<< 1) = (Rv32.immJ w).setWidth 32 := by
  apply BitVec.eq_of_getLsbD_eq
  intro k inside
  rw [BitVec.getLsbD_setWidth,Rv32.immJ_bit]
  interval_cases k <;> simp

theorem immS_field : storeImm w = (Rv32.immS w).signExtend 32 := by
  have sign : (w &&& 0x80000000 ≠ 0) = ((Rv32.immS w).msb = true) := by
    rw [and_bit (by rfl : (0x80000000 : Word) = BitVec.twoPow 32 31) (by decide),BitVec.msb_eq_getLsbD_last,Rv32.immS_bit]
    simp
  unfold storeImm
  dsimp only
  rw [immS_parts,← sign_filled (Rv32.immS w) 0xFFFFF000 (by decide)]
  simp only [sign]

theorem immB_field : branchImm w = (Rv32.immB w).signExtend 32 := by
  have sign : ((Rv32.immB w).setWidth 32 &&& 0x1000 ≠ 0) = ((Rv32.immB w).msb = true) := by
    rw [and_bit (by rfl : (0x1000 : Word) = BitVec.twoPow 32 12) (by decide),BitVec.msb_eq_getLsbD_last,BitVec.getLsbD_setWidth]
    rfl
  unfold branchImm
  dsimp only
  rw [immB_parts,← sign_filled (Rv32.immB w) 0xFFFFE000 (by decide)]
  simp only [sign]

theorem immJ_field : jumpImm w = (Rv32.immJ w).signExtend 32 := by
  have sign : ((Rv32.immJ w).setWidth 32 &&& 0x100000 ≠ 0) = ((Rv32.immJ w).msb = true) := by
    rw [and_bit (by rfl : (0x100000 : Word) = BitVec.twoPow 32 20) (by decide),BitVec.msb_eq_getLsbD_last,BitVec.getLsbD_setWidth]
    rfl
  unfold jumpImm
  dsimp only
  rw [immJ_parts,← sign_filled (Rv32.immJ w) 0xFFE00000 (by decide)]
  simp only [sign]

end Fields

def lower : Rv32.Instr → List Word
  | .add rd rs1 rs2 => [Enc.add (host rd) (host rs1) (host rs2)]
  | .sub rd rs1 rs2 => [Enc.sub (host rd) (host rs1) (host rs2)]
  | .mul rd rs1 rs2 => [Enc.mul (host rd) (host rs1) (host rs2)]
  | .addi rd rs1 imm => [Enc.movi 15 (imm.signExtend 16),Enc.add (host rd) (host rs1) 15]
  | .lw rd rs1 imm => [Enc.load (host rd) (host rs1) (imm.signExtend 16)]
  | .sw rs2 rs1 imm => [Enc.store (host rs2) (host rs1) (imm.signExtend 16)]
  | .beq rs1 rs2 offset => [Enc.beq (host rs1) (host rs2) (((offset.signExtend 32-4).sdiv 4).truncate 16)]
  | .bne rs1 rs2 offset => [Enc.bne (host rs1) (host rs2) (((offset.signExtend 32-4).sdiv 4).truncate 16)]
  | .jal _ offset => [Enc.jmp (offset.signExtend 32 &&& targetMask)]

theorem low_half (imm : BitVec 12) : (imm.signExtend 32 &&& 0xFFFF).truncate 16 = imm.signExtend 16 := by
  ext k inside
  interval_cases k <;> simp [BitVec.getElem_signExtend]

theorem translateOneRiscv_decoded {w : Word} {i : Rv32.Instr} (decoded : Rv32.decode w = some i) :
    translateOneRiscv w = some (lower i) := by
  unfold translateOneRiscv
  dsimp only
  rw [opcode_field,funct3_field,funct7_field,reg_rd,reg_rs1,reg_rs2,immI_field,immS_field,immB_field,immJ_field,low_half]
  cases Rv32.decode_formats decoded with
  | add kind funct3 funct7 =>
    rw [kind,funct3,funct7]
    rfl
  | sub kind funct3 funct7 =>
    rw [kind,funct3,funct7]
    rfl
  | mul kind funct3 funct7 =>
    rw [kind,funct3,funct7]
    rfl
  | addi kind funct3 =>
    rw [kind]
    rfl
  | lw kind funct3 =>
    rw [kind]
    rfl
  | sw kind funct3 =>
    rw [kind]
    rfl
  | beq kind funct3 =>
    rw [kind,funct3]
    rfl
  | bne kind funct3 =>
    rw [kind,funct3]
    rfl
  | jal kind =>
    rw [kind]
    rfl

theorem translateOneRiscv_size {w : Word} {tmp : List Word} (accepted : translateOneRiscv w = some tmp) :
    tmp.length = 1 ∨ tmp.length = 2 := by
  unfold translateOneRiscv at accepted
  dsimp only at accepted
  repeat' split at accepted
  all_goals cases accepted
  all_goals simp

-- The words a guest word stands for in the output.
def lowered (w : Word) : List Word := (translateOneRiscv w).getD [Enc.nop]

theorem foldl_appends {α β σ : Type} {push : List β × σ → α → List β × σ} {emits : α → List β}
    (appends : ∀ acc a, (push acc a).1 = acc.1 ++ emits a) (items : List α) (acc : List β × σ) :
    (items.foldl push acc).1 = acc.1 ++ items.flatMap emits := by
  induction items generalizing acc with
  | nil => simp
  | cons a rest ih => rw [List.foldl_cons,ih,List.flatMap_cons,← List.append_assoc,appends]

theorem translateWords_out (one : Word → Option (List Word)) (words : List Word) :
    (translateWords one words).1 = words.flatMap fun w => (one w).getD [Enc.nop] := by
  refine foldl_appends ?_ words _
  intro acc w
  unfold pushWord
  cases one w with
  | none => rfl
  | some tmp => rfl

theorem guestWords_image (words : List Word) : guestWords (words.flatMap wordBytes) = words := by
  induction words with
  | nil => rfl
  | cons w rest ih =>
    rw [List.flatMap_cons]
    simp only [wordBytes,List.cons_append,List.nil_append,guestWords,ih,word_of_bytes]

theorem translateBytes_riscv (words : List Word) : (translateBytes .riscv64 (words.flatMap wordBytes)).1 = words.flatMap lowered := by
  unfold translateBytes
  dsimp only
  rw [guestWords_image,translateWords_out]
  rfl

end TranslationEngine
end Novium
