import Novium.Handlers
import Novium.Decoder
import Novium.Printf

namespace Novium
open Storage Effects Printf TranslationEngine

-- The format of each case of `disassemble`.
def lineOf (op : Opcode) : List Field :=
  match op with
  | .nop => [.text (ascii "NOP")]
  | .halt => [.text (ascii "HALT")]
  | .jmp => [.text (ascii "JMP  0x"),.digits 16 8]
  | .beq => [.text (ascii "BEQ  r"),.number,.text (ascii ", r"),.number,.text (ascii ", "),.number]
  | .bne => [.text (ascii "BNE  r"),.number,.text (ascii ", r"),.number,.text (ascii ", "),.number]
  | .add => [.text (ascii "ADD  r"),.number,.text (ascii ", r"),.number,.text (ascii ", r"),.number]
  | .sub => [.text (ascii "SUB  r"),.number,.text (ascii ", r"),.number,.text (ascii ", r"),.number]
  | .mul => [.text (ascii "MUL  r"),.number,.text (ascii ", r"),.number,.text (ascii ", r"),.number]
  | .load => [.text (ascii "LOAD r"),.number,.text (ascii ", r"),.number,.text (ascii ", "),.number]
  | .store => [.text (ascii "STORE r"),.number,.text (ascii ", r"),.number,.text (ascii ", "),.number]
  | .mov => [.text (ascii "MOV  r"),.number,.text (ascii ", r"),.number]
  | .movi => [.text (ascii "MOVI r"),.number,.text (ascii ", #"),.number]
  | .loadVr => [.text (ascii "LOAD_VR  v"),.number,.text (ascii ", r"),.number,.text (ascii ", "),.number]
  | .storeVr => [.text (ascii "STORE_VR v"),.number,.text (ascii ", r"),.number,.text (ascii ", "),.number]
  | .vecAdd => [.text (ascii "VEC_ADD  v"),.number,.text (ascii ", v"),.number,.text (ascii ", v"),.number]
  | .matmulTile =>
    [.text (ascii "MATMUL_TILE v"),.number,.text (ascii ", v"),.number,.text (ascii ", v"),.number,.text (ascii ", N="),.number]
  | .dmaLoad => [.text (ascii "DMA_LOAD  r"),.number,.text (ascii ", r"),.number,.text (ascii ", "),.number,.text (ascii " bytes")]
  | .dmaStore => [.text (ascii "DMA_STORE r"),.number,.text (ascii ", r"),.number,.text (ascii ", "),.number,.text (ascii " bytes")]

def printedOperands (op : Opcode) (i : Instruction) : List Int :=
  match op with
  | .nop | .halt => []
  | .jmp => [i.target.toNat]
  | .beq | .bne => [i.rd.toNat,i.ra.toNat,i.offset.toInt]
  | .add | .sub | .mul | .vecAdd => [i.rd.toNat,i.ra.toNat,i.rb.toNat]
  | .load | .store | .loadVr | .storeVr => [i.rd.toNat,i.ra.toNat,i.simm16.toInt]
  | .mov => [i.rd.toNat,i.ra.toNat]
  | .movi => [i.rd.toNat,i.imm16.toNat]
  | .matmulTile => [i.rd.toNat,i.ra.toNat,i.rb.toNat,i.func.toNat]
  | .dmaLoad | .dmaStore => [i.rd.toNat,i.ra.toNat,i.func.toNat]

def disassemble (i : Instruction) : List Byte :=
  match i.opcode with
  | some op => snprintf 128 (print (lineOf op) (printedOperands op i))
  | none => ascii "???"

theorem lineOf_delimited (op : Opcode) : delimited (lineOf op) = true := by
  cases op <;> rfl

theorem lineOf_fits (op : Opcode) (i : Instruction) : Suits (lineOf op) (printedOperands op i) := by
  cases op with
  | jmp =>
    have small := i.target.isLt
    refine ⟨by decide,by decide,Int.natCast_nonneg _,?_,rfl⟩
    exact_mod_cast Nat.lt_of_lt_of_le small (by decide)
  | _ => rfl

def mnemonic (op : Opcode) : List Byte := (print (lineOf op) []).takeWhile (· ≠ 0x20)

theorem mnemonic_starts (op : Opcode) (args : List Int) : (print (lineOf op) args).takeWhile (· ≠ 0x20) = mnemonic op := by
  cases op <;> simp [mnemonic,lineOf,print,ascii]

theorem mnemonic_names (op : Opcode) : Opcode.all.find? (fun named => mnemonic named == mnemonic op) = some op := by
  cases op <;> decide

theorem signed_small (i : Instruction) : i.simm16.toInt.natAbs < 10^8 := by
  have same : i.simm16.toInt = i.imm16.toInt := BitVec.toInt_signExtend_of_le (by decide)
  have low := BitVec.le_toInt i.imm16
  have high := @BitVec.toInt_lt 16 i.imm16
  omega

theorem operands_short {op : Opcode} {i : Instruction} : ∀ a ∈ printedOperands op i, (integer a).length ≤ 9 := by
  have signed := signed_small i
  have offset : i.offset.toInt.natAbs < 10^8 := signed
  have target := i.target.isLt
  have rd := i.rd.isLt
  have ra := i.ra.isLt
  have rb := i.rb.isLt
  have func := i.func.isLt
  have imm := i.imm16.isLt
  intro a member
  apply integer_length (by decide)
  cases op <;> simp only [printedOperands,List.mem_cons,List.not_mem_nil,or_false] at member <;> omega

theorem disassemble_room (op : Opcode) (i : Instruction) : (print (lineOf op) (printedOperands op i)).length < 64 := by
  refine Nat.lt_of_le_of_lt (print_length operands_short) ?_
  cases op <;> decide

theorem disassemble_known {i : Instruction} {op : Opcode} (known : i.opcode = some op) :
    disassemble i = print (lineOf op) (printedOperands op i) := by
  have room := disassemble_room op i
  unfold disassemble
  rw [known]
  exact snprintf_fits (by omega)

-- What of a word its disassembly shows: its opcode and the operands printed for it.
def shownOf (i : Instruction) : Option (Opcode × List Int) := i.opcode.map fun op => (op,printedOperands op i)

theorem disassemble_unknown {i : Instruction} (unknown : i.opcode = none) : disassemble i = ascii "???" := by
  unfold disassemble
  rw [unknown]

theorem opcode_read (i : Instruction) :
    Opcode.all.find? (fun named => mnemonic named == (disassemble i).takeWhile (· ≠ 0x20)) = i.opcode := by
  cases known : i.opcode with
  | none =>
    rw [disassemble_unknown known]
    decide
  | some op =>
    rw [disassemble_known known,mnemonic_starts]
    exact mnemonic_names op

theorem disassemble_inj {i j : Instruction} : disassemble i = disassemble j ↔ shownOf i = shownOf j := by
  unfold shownOf
  constructor
  · intro same
    have opcodes : i.opcode = j.opcode := by rw [← opcode_read i,same,opcode_read j]
    cases known : j.opcode with
    | none => rw [opcodes,known]; rfl
    | some op =>
      rw [known] at opcodes
      rw [disassemble_known opcodes,disassemble_known known] at same
      have stops : Text.Stops Text.isDigit [] := fun b here => by cases here
      have args := print_inj (lineOf_fits op i) (lineOf_fits op j) (lineOf_delimited op) stops stops (congrArg (· ++ []) same)
      rw [opcodes]
      exact congrArg (fun args => some (op,args)) args.1
  · intro same
    cases left : i.opcode with
    | none =>
      rw [left] at same
      rw [disassemble_unknown left,disassemble_unknown (Option.map_eq_none_iff.mp same.symm)]
    | some op =>
      rw [left] at same
      obtain ⟨op',right,pair⟩ := Option.map_eq_some_iff.mp same.symm
      obtain ⟨rfl,args⟩ := Prod.mk.inj pair
      rw [disassemble_known left,disassemble_known right,args]

-- The fields that are printed are the fields the handler and its accounting read.
theorem handler_shown (h : Host) {op : Opcode} {i j : Instruction} (same : printedOperands op i = printedOperands op j) :
    handler h op i = handler h op j ∧ account op i = account op j := by
  cases op
  all_goals simp only [printedOperands,List.cons.injEq,and_true,Int.natCast_inj,BitVec.toNat_inj,BitVec.toInt_inj] at same
  case nop | halt => exact ⟨rfl,rfl⟩
  case jmp =>
    refine ⟨?_,rfl⟩
    simp only [handler,Handlers.opJmp,same]
  case beq | bne =>
    obtain ⟨rd,ra,offset⟩ := same
    refine ⟨?_,rfl⟩
    simp only [handler,Handlers.opBeq,Handlers.opBne,Handlers.branch,rd,ra,offset]
  case add | sub | mul =>
    obtain ⟨rd,ra,rb⟩ := same
    refine ⟨?_,rfl⟩
    simp only [handler,Handlers.opAdd,Handlers.opSub,Handlers.opMul,Handlers.arith,rd,ra,rb]
  case vecAdd =>
    obtain ⟨rd,ra,rb⟩ := same
    refine ⟨?_,rfl⟩
    simp only [handler,Handlers.opVecAdd,rd,ra,rb]
    rfl
  case load | store | loadVr | storeVr =>
    obtain ⟨rd,ra,simm⟩ := same
    refine ⟨?_,rfl⟩
    simp only [handler,Handlers.opLoad,Handlers.opStore,Handlers.opLoadVr,Handlers.opStoreVr,rd,ra,simm]
  case mov =>
    obtain ⟨rd,ra⟩ := same
    refine ⟨?_,rfl⟩
    simp only [handler,Handlers.opMov,rd,ra]
  case movi =>
    obtain ⟨rd,imm⟩ := same
    refine ⟨?_,rfl⟩
    simp only [handler,Handlers.opMovi,rd,imm]
  case matmulTile =>
    obtain ⟨rd,ra,rb,func⟩ := same
    refine ⟨?_,rfl⟩
    simp only [handler,Handlers.opMatmulTile,rd,ra,rb,func]
    rfl
  case dmaLoad | dmaStore =>
    obtain ⟨rd,ra,func⟩ := same
    refine ⟨?_,?_⟩
    · simp only [handler,Handlers.opDmaLoad,Handlers.opDmaStore,Handlers.dmaCount,rd,ra,func]
      rfl
    · funext cycles m
      simp only [account,dmaBytesOf,func]

theorem execute_shown (h : Host) {i j : Instruction} {op : Opcode} (known : i.opcode = some op) (same : shownOf i = shownOf j) :
    execute h i = execute h j := by
  unfold shownOf at same
  rw [known] at same
  obtain ⟨op',opcode,pair⟩ := Option.map_eq_some_iff.mp same.symm
  obtain ⟨rfl,args⟩ := Prod.mk.inj pair
  obtain ⟨handled,accounted⟩ := handler_shown h args.symm
  unfold execute
  rw [known,opcode]
  simp only [handled,accounted]

-- Two words print alike exactly when they agree in the opcode and in every operand it shows,
-- and words with a known opcode that print alike are carried out alike: the fields that the
-- text leaves out are never looked at.
theorem disassembly_faithful (i j : Instruction) :
    (disassemble i = disassemble j ↔ shownOf i = shownOf j) ∧
      (i.opcode.isSome = true → disassemble i = disassemble j → ∀ h : Host, execute h i = execute h j) := by
  refine ⟨disassemble_inj,?_⟩
  intro some same h
  obtain ⟨op,known⟩ := Option.isSome_iff_exists.mp some
  exact execute_shown h known (disassemble_inj.mp same)

-- ADD r1,r2,r3 with and without bits in the field no ADD looks at.
theorem disassembly_faithful_add : disassemble ⟨Enc.add 1 2 3⟩ = disassemble ⟨Enc.rtype .add 1 2 3 5⟩ ∧
    ∀ h : Host, execute h ⟨Enc.add 1 2 3⟩ = execute h ⟨Enc.rtype .add 1 2 3 5⟩ := by
  obtain ⟨text,runs⟩ := disassembly_faithful ⟨Enc.add 1 2 3⟩ ⟨Enc.rtype .add 1 2 3 5⟩
  have same := text.mpr (by decide)
  exact ⟨same,runs (by decide) same⟩

end Novium
