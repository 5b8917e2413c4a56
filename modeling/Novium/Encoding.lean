import Novium.Isa
import Mathlib.Tactic.IntervalCases

namespace Novium
namespace Enc

-- What the constructors put into a word is what the fields of the instruction read back.
-- The opcode keeps its low six bits, a register number its low five.
namespace Raw
variable (op rd ra rb : BitVec 8) (func imm : BitVec 16) (addr : Word)

@[simp] theorem rtype_opcodeBits : (⟨rtype op rd ra rb func⟩ : Instruction).opcodeBits = op.truncate 6 := by
  unfold Instruction.opcodeBits rtype opcodeField
  ext k inside
  interval_cases k <;> simp

@[simp] theorem rtype_rd : (⟨rtype op rd ra rb func⟩ : Instruction).rd = rd.truncate 5 := by
  unfold Instruction.rd rtype opcodeField
  ext k inside
  interval_cases k <;> simp

@[simp] theorem rtype_ra : (⟨rtype op rd ra rb func⟩ : Instruction).ra = ra.truncate 5 := by
  unfold Instruction.ra rtype opcodeField
  ext k inside
  interval_cases k <;> simp

@[simp] theorem rtype_rb : (⟨rtype op rd ra rb func⟩ : Instruction).rb = rb.truncate 5 := by
  unfold Instruction.rb rtype opcodeField
  ext k inside
  interval_cases k <;> simp

@[simp] theorem rtype_func : (⟨rtype op rd ra rb func⟩ : Instruction).func = func.truncate 11 := by
  unfold Instruction.func rtype opcodeField
  ext k inside
  interval_cases k <;> simp

@[simp] theorem itype_opcodeBits : (⟨itype op rd ra imm⟩ : Instruction).opcodeBits = op.truncate 6 := by
  unfold Instruction.opcodeBits itype opcodeField
  ext k inside
  interval_cases k <;> simp

@[simp] theorem itype_rd : (⟨itype op rd ra imm⟩ : Instruction).rd = rd.truncate 5 := by
  unfold Instruction.rd itype opcodeField
  ext k inside
  interval_cases k <;> simp

@[simp] theorem itype_ra : (⟨itype op rd ra imm⟩ : Instruction).ra = ra.truncate 5 := by
  unfold Instruction.ra itype opcodeField
  ext k inside
  interval_cases k <;> simp

@[simp] theorem itype_imm16 : (⟨itype op rd ra imm⟩ : Instruction).imm16 = imm := by
  unfold Instruction.imm16 itype opcodeField
  ext k inside
  interval_cases k <;> simp

@[simp] theorem jtype_opcodeBits : (⟨jtype op addr⟩ : Instruction).opcodeBits = op.truncate 6 := by
  unfold Instruction.opcodeBits jtype opcodeField
  ext k inside
  interval_cases k <;> simp

@[simp] theorem jtype_target : (⟨jtype op addr⟩ : Instruction).target = addr.truncate 26 := by
  unfold Instruction.target jtype opcodeField
  ext k inside
  interval_cases k <;> simp

-- The branch format is the immediate format: the mask cuts the sign extension off again.
theorem btype_itype : btype op rd ra imm = itype op rd ra imm := by
  unfold btype itype
  congr 1
  ext k inside
  interval_cases k <;> simp [BitVec.getElem_signExtend]

-- Each format's fields cover the word.
section Covering
variable {i j : Instruction}

theorem same_bit {w v : Word} {start len k : Nat} (same : w.extractLsb' start len = v.extractLsb' start len)
    (low : start ≤ k) (high : k < start+len) : w.getLsbD k = v.getLsbD k := by
  have bit := congrArg (fun field => field.getLsbD (k-start)) same
  simp only [BitVec.getLsbD_extractLsb',show k-start < len by omega,decide_true,Bool.true_and] at bit
  rwa [show start+(k-start) = k by omega] at bit

theorem imm16_covered (rb : i.rb = j.rb) (func : i.func = j.func) : i.imm16 = j.imm16 := by
  unfold Instruction.rb at rb
  unfold Instruction.func at func
  unfold Instruction.imm16
  apply BitVec.eq_of_getLsbD_eq
  intro k inside
  simp only [BitVec.getLsbD_extractLsb',inside,decide_true,Bool.true_and,Nat.zero_add]
  by_cases low : k < 11
  · exact same_bit func (Nat.zero_le _) (by omega)
  · exact same_bit rb (by omega) (by omega)

theorem target_covered (rd : i.rd = j.rd) (ra : i.ra = j.ra) (imm16 : i.imm16 = j.imm16) : i.target = j.target := by
  unfold Instruction.rd at rd
  unfold Instruction.ra at ra
  unfold Instruction.imm16 at imm16
  unfold Instruction.target
  apply BitVec.eq_of_getLsbD_eq
  intro k inside
  simp only [BitVec.getLsbD_extractLsb',inside,decide_true,Bool.true_and,Nat.zero_add]
  by_cases low : k < 16
  · exact same_bit imm16 (Nat.zero_le _) (by omega)
  · by_cases middle : k < 21
    · exact same_bit ra (by omega) (by omega)
    · exact same_bit rd (by omega) (by omega)

theorem raw_covered (opcode : i.opcodeBits = j.opcodeBits) (target : i.target = j.target) : i.raw = j.raw := by
  unfold Instruction.opcodeBits at opcode
  unfold Instruction.target at target
  apply BitVec.eq_of_getLsbD_eq
  intro k inside
  by_cases low : k < 26
  · exact same_bit target (Nat.zero_le _) (by omega)
  · exact same_bit opcode (by omega) (by omega)

end Covering

theorem rtype_fields (i : Instruction) :
    rtype i.opcodeByte (i.rd.zeroExtend 8) (i.ra.zeroExtend 8) (i.rb.zeroExtend 8) (i.func.zeroExtend 16) = i.raw := by
  apply raw_covered (i := ⟨rtype _ _ _ _ _⟩)
  · simp [Instruction.opcodeByte]
  · apply target_covered
    · simp
    · simp
    · apply imm16_covered <;> simp

theorem itype_fields (i : Instruction) :
    itype i.opcodeByte (i.rd.zeroExtend 8) (i.ra.zeroExtend 8) i.imm16 = i.raw := by
  apply raw_covered (i := ⟨itype _ _ _ _⟩)
  · simp [Instruction.opcodeByte]
  · apply target_covered <;> simp

theorem jtype_fields (i : Instruction) : jtype i.opcodeByte (i.target.zeroExtend 32) = i.raw := by
  apply raw_covered (i := ⟨jtype _ _⟩)
  · simp [Instruction.opcodeByte]
  · simp

-- The offset is an `int32_t` that the call narrows to the `int16_t` parameter.
theorem btype_fields (i : Instruction) :
    btype i.opcodeByte (i.rd.zeroExtend 8) (i.ra.zeroExtend 8) (i.offset.truncate 16) = i.raw := by
  have narrowed : i.offset.truncate 16 = i.imm16 := by
    unfold Instruction.offset
    ext k inside
    interval_cases k <;> simp [BitVec.getElem_signExtend]
  rw [narrowed,btype_itype,itype_fields]

end Raw

-- Truncation is exact on a value that fits.
theorem truncate_extends {n k : Nat} {v : BitVec n} (fits : v.toNat < 2^k) :
    (v.truncate k).zeroExtend n = v := by
  apply BitVec.eq_of_toNat_eq
  simp only [BitVec.truncate_eq_setWidth,BitVec.toNat_setWidth]
  rw [Nat.mod_eq_of_lt fits,Nat.mod_eq_of_lt v.isLt]

-- What the accessors return, in the types they return it in.
def rView (i : Instruction) : BitVec 8 × BitVec 8 × BitVec 8 × BitVec 8 × BitVec 16 :=
  (i.opcodeByte,i.rd.zeroExtend 8,i.ra.zeroExtend 8,i.rb.zeroExtend 8,i.func.zeroExtend 16)

def iView (i : Instruction) : BitVec 8 × BitVec 8 × BitVec 8 × BitVec 16 × Word :=
  (i.opcodeByte,i.rd.zeroExtend 8,i.ra.zeroExtend 8,i.imm16,i.simm16)

def jView (i : Instruction) : BitVec 8 × Word := (i.opcodeByte,i.target.zeroExtend 32)

def bView (i : Instruction) : BitVec 8 × BitVec 8 × BitVec 8 × Word :=
  (i.opcodeByte,i.rd.zeroExtend 8,i.ra.zeroExtend 8,i.offset)

section Arguments
variable {op rd ra rb : BitVec 8} {func : BitVec 16} {addr : Word}

theorem rView_rtype (opcode : op.toNat < 2^6) (first : rd.toNat < 2^5) (second : ra.toNat < 2^5)
    (third : rb.toNat < 2^5) (function : func.toNat < 2^11) :
    rView ⟨Raw.rtype op rd ra rb func⟩ = (op,rd,ra,rb,func) := by
  simp only [rView,Instruction.opcodeByte,Raw.rtype_opcodeBits,Raw.rtype_rd,Raw.rtype_ra,Raw.rtype_rb,Raw.rtype_func]
  rw [truncate_extends opcode,truncate_extends first,truncate_extends second,
    truncate_extends third,truncate_extends function]

theorem iView_itype (imm : BitVec 16) (opcode : op.toNat < 2^6) (first : rd.toNat < 2^5) (second : ra.toNat < 2^5) :
    iView ⟨Raw.itype op rd ra imm⟩ = (op,rd,ra,imm,imm.signExtend 32) := by
  simp only [iView,Instruction.opcodeByte,Instruction.simm16,Raw.itype_opcodeBits,Raw.itype_rd,Raw.itype_ra,
    Raw.itype_imm16]
  rw [truncate_extends opcode,truncate_extends first,truncate_extends second]

theorem jView_jtype (opcode : op.toNat < 2^6) (jump : addr.toNat < 2^26) :
    jView ⟨Raw.jtype op addr⟩ = (op,addr) := by
  simp only [jView,Instruction.opcodeByte,Raw.jtype_opcodeBits,Raw.jtype_target]
  rw [truncate_extends opcode,truncate_extends jump]

theorem bView_btype (off : BitVec 16) (opcode : op.toNat < 2^6) (first : rd.toNat < 2^5) (second : ra.toNat < 2^5) :
    bView ⟨Raw.btype op rd ra off⟩ = (op,rd,ra,off.signExtend 32) := by
  have fields := iView_itype off opcode first second
  simp only [iView,Prod.mk.injEq] at fields
  obtain ⟨code,destination,source,_,extended⟩ := fields
  rw [Raw.btype_itype]
  simp only [bView,Prod.mk.injEq]
  exact ⟨code,destination,source,extended⟩

end Arguments

theorem encoding_round_trip :
    (∀ w : Word, let i : Instruction := ⟨w⟩
      Raw.rtype i.opcodeByte (i.rd.zeroExtend 8) (i.ra.zeroExtend 8) (i.rb.zeroExtend 8) (i.func.zeroExtend 16) = w ∧
      Raw.itype i.opcodeByte (i.rd.zeroExtend 8) (i.ra.zeroExtend 8) i.imm16 = w ∧
      Raw.jtype i.opcodeByte (i.target.zeroExtend 32) = w ∧
      Raw.btype i.opcodeByte (i.rd.zeroExtend 8) (i.ra.zeroExtend 8) (i.offset.truncate 16) = w) ∧
    ∀ (op rd ra rb : BitVec 8) (func imm off : BitVec 16) (target : Word),
      op.toNat < 2^6 → rd.toNat < 2^5 → ra.toNat < 2^5 → rb.toNat < 2^5 → func.toNat < 2^11 → target.toNat < 2^26 →
      rView ⟨Raw.rtype op rd ra rb func⟩ = (op,rd,ra,rb,func) ∧
      iView ⟨Raw.itype op rd ra imm⟩ = (op,rd,ra,imm,imm.signExtend 32) ∧
      jView ⟨Raw.jtype op target⟩ = (op,target) ∧
      bView ⟨Raw.btype op rd ra off⟩ = (op,rd,ra,off.signExtend 32) := by
  constructor
  · intro w
    exact ⟨Raw.rtype_fields ⟨w⟩,Raw.itype_fields ⟨w⟩,Raw.jtype_fields ⟨w⟩,Raw.btype_fields ⟨w⟩⟩
  · intro op rd ra rb func imm off target opcode first second third function jump
    exact ⟨rView_rtype opcode first second third function,iView_itype imm opcode first second,jView_jtype opcode jump,
      bView_btype off opcode first second⟩

-- An opcode without an enumerator and a negative offset.
theorem encoding_round_trip_unnamed :
    bView ⟨Raw.btype 0x3F 31 7 0xFFF0⟩ = (0x3F,31,7,0xFFFFFFF0) ∧
      rView ⟨Raw.rtype 0x3F 31 7 16 2047⟩ = (0x3F,31,7,16,2047) := by
  have read := encoding_round_trip.2 0x3F 31 7 16 2047 0xFFF0 0xFFF0 0 (by decide) (by decide) (by decide) (by decide)
    (by decide) (by decide)
  exact ⟨read.2.2.2,read.1⟩

-- The encoders of the enumeration are the raw ones at its byte.
section Named
variable (op : Opcode) (rd ra rb : BitVec 8) (func imm : BitVec 16) (addr : Word)

theorem opcode_placed {op : Opcode} {w : Word} (placed : (⟨w⟩ : Instruction).opcodeBits = op.bits) :
    (⟨w⟩ : Instruction).opcode = some op := by
  unfold Instruction.opcode
  rw [placed,Opcode.ofBits_bits]

theorem opcodeField_raw : opcodeField op = Raw.opcodeField (op.bits.zeroExtend 8) := by
  unfold opcodeField Raw.opcodeField
  cases op <;> rfl

theorem byte_bits : (op.bits.zeroExtend 8).truncate 6 = op.bits := by
  simp

theorem rtype_raw : rtype op rd ra rb func = Raw.rtype (op.bits.zeroExtend 8) rd ra rb func := by
  rw [rtype,opcodeField_raw,Raw.rtype]

theorem itype_raw : itype op rd ra imm = Raw.itype (op.bits.zeroExtend 8) rd ra imm := by
  rw [itype,opcodeField_raw,Raw.itype]

theorem jtype_raw : jtype op addr = Raw.jtype (op.bits.zeroExtend 8) addr := by
  rw [jtype,opcodeField_raw,Raw.jtype]

theorem btype_raw : btype op rd ra imm = Raw.itype (op.bits.zeroExtend 8) rd ra imm := by
  rw [←Raw.btype_itype,btype,opcodeField_raw,Raw.btype]

@[simp] theorem rtype_opcode : (⟨rtype op rd ra rb func⟩ : Instruction).opcode = some op := by
  apply opcode_placed
  rw [rtype_raw,Raw.rtype_opcodeBits,byte_bits]

@[simp] theorem rtype_rd : (⟨rtype op rd ra rb func⟩ : Instruction).rd = rd.truncate 5 := by
  rw [rtype_raw,Raw.rtype_rd]

@[simp] theorem rtype_ra : (⟨rtype op rd ra rb func⟩ : Instruction).ra = ra.truncate 5 := by
  rw [rtype_raw,Raw.rtype_ra]

@[simp] theorem rtype_rb : (⟨rtype op rd ra rb func⟩ : Instruction).rb = rb.truncate 5 := by
  rw [rtype_raw,Raw.rtype_rb]

@[simp] theorem rtype_func : (⟨rtype op rd ra rb func⟩ : Instruction).func = func.truncate 11 := by
  rw [rtype_raw,Raw.rtype_func]

@[simp] theorem itype_opcode : (⟨itype op rd ra imm⟩ : Instruction).opcode = some op := by
  apply opcode_placed
  rw [itype_raw,Raw.itype_opcodeBits,byte_bits]

@[simp] theorem itype_rd : (⟨itype op rd ra imm⟩ : Instruction).rd = rd.truncate 5 := by
  rw [itype_raw,Raw.itype_rd]

@[simp] theorem itype_ra : (⟨itype op rd ra imm⟩ : Instruction).ra = ra.truncate 5 := by
  rw [itype_raw,Raw.itype_ra]

@[simp] theorem itype_imm16 : (⟨itype op rd ra imm⟩ : Instruction).imm16 = imm := by
  rw [itype_raw,Raw.itype_imm16]

@[simp] theorem itype_simm16 : (⟨itype op rd ra imm⟩ : Instruction).simm16 = imm.signExtend 32 := by
  rw [Instruction.simm16,itype_imm16]

@[simp] theorem jtype_opcode : (⟨jtype op addr⟩ : Instruction).opcode = some op := by
  apply opcode_placed
  rw [jtype_raw,Raw.jtype_opcodeBits,byte_bits]

@[simp] theorem jtype_target : (⟨jtype op addr⟩ : Instruction).target = addr.truncate 26 := by
  rw [jtype_raw,Raw.jtype_target]

@[simp] theorem btype_opcode : (⟨btype op rd ra imm⟩ : Instruction).opcode = some op := by
  apply opcode_placed
  rw [btype_raw,Raw.itype_opcodeBits,byte_bits]

@[simp] theorem btype_rd : (⟨btype op rd ra imm⟩ : Instruction).rd = rd.truncate 5 := by
  rw [btype_raw,Raw.itype_rd]

@[simp] theorem btype_ra : (⟨btype op rd ra imm⟩ : Instruction).ra = ra.truncate 5 := by
  rw [btype_raw,Raw.itype_ra]

@[simp] theorem btype_imm16 : (⟨btype op rd ra imm⟩ : Instruction).imm16 = imm := by
  rw [btype_raw,Raw.itype_imm16]

@[simp] theorem btype_offset : (⟨btype op rd ra imm⟩ : Instruction).offset = imm.signExtend 32 := by
  rw [Instruction.offset,btype_imm16]

@[simp] theorem make_opcode : (⟨make op⟩ : Instruction).opcode = some op := by
  apply opcode_placed
  unfold Instruction.opcodeBits make opcodeField
  ext k inside
  interval_cases k <;> simp

end Named

-- Two words of the register format are the same when their fields are.
theorem rtype_eq_iff {op : Opcode} {rd ra rb rd' ra' rb' : BitVec 8} {func func' : BitVec 16} :
    rtype op rd ra rb func = rtype op rd' ra' rb' func' ↔ rd.truncate 5 = rd'.truncate 5 ∧
      ra.truncate 5 = ra'.truncate 5 ∧ rb.truncate 5 = rb'.truncate 5 ∧ func.truncate 11 = func'.truncate 11 := by
  constructor
  · intro same
    have fields : (⟨rtype op rd ra rb func⟩ : Instruction) = ⟨rtype op rd' ra' rb' func'⟩ := by rw [same]
    refine ⟨?_,?_,?_,?_⟩
    · simpa using congrArg Instruction.rd fields
    · simpa using congrArg Instruction.ra fields
    · simpa using congrArg Instruction.rb fields
    · simpa using congrArg Instruction.func fields
  · rintro ⟨first,second,third,function⟩
    rw [rtype_raw,rtype_raw]
    apply Raw.raw_covered (i := ⟨Raw.rtype _ _ _ _ _⟩) (j := ⟨Raw.rtype _ _ _ _ _⟩)
    · rw [Raw.rtype_opcodeBits,Raw.rtype_opcodeBits]
    · apply Raw.target_covered
      · rw [Raw.rtype_rd,Raw.rtype_rd,first]
      · rw [Raw.rtype_ra,Raw.rtype_ra,second]
      · apply Raw.imm16_covered
        · rw [Raw.rtype_rb,Raw.rtype_rb,third]
        · rw [Raw.rtype_func,Raw.rtype_func,function]

end Enc
end Novium
