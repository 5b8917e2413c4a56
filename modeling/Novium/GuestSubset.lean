import Novium.A64
import Novium.StraightLine

namespace Novium
open Effects TranslationEngine

section Immediates
variable {h : Host} {w : Word}

-- The emitted words, one after the other, without the fetches around them.
def executeAll (h : Host) : List Word → Emu Unit
  | [] => pure ()
  | w :: rest => do
    let _ ← execute h ⟨w⟩
    executeAll h rest

-- ADDI on the registers: the scratch register may hold anything afterwards.
structure AddsImmediate (w : Word) (r r' : RegisterFile) : Prop where
  sum : Rv32.rd w ≠ 0 → r'.get (gprOf (Rv32.rd w)) = r.get (gprOf (Rv32.rs1 w))+(Rv32.immI w).signExtend 32
  others : ∀ k : Fin numGpr, k ≠ gprOf (Rv32.rd w) → k ≠ 15 → r'.get k = r.get k
  vectors : r'.vr = r.vr

theorem executeAll_takes {i j : Instruction} {c d e : Core} {m : Machine} (first : Takes h i c d) (second : Takes h j d e)
    (same : m.core = c) : ∃ m', executeAll h [i.raw,j.raw] m = .ok () m' ∧ m'.core = e := by
  obtain ⟨cycles,after,ran,core⟩ := first m same
  obtain ⟨cycles',final,ran',core'⟩ := second after core
  refine ⟨final,?_,core'⟩
  unfold executeAll
  rw [Exec.bind_ok ran]
  unfold executeAll
  rw [Exec.bind_ok ran']
  rfl

theorem addi_lowered (kind : Rv32.opcode w = 0x13) (funct3 : Rv32.funct3 w = 0) :
    translateOneRiscv w = some [Enc.movi 15 ((Rv32.immI w).signExtend 16),Enc.add (host (Rv32.rd w)) (host (Rv32.rs1 w)) 15] := by
  have decoded : Rv32.decode w = some (.addi (Rv32.rd w) (Rv32.rs1 w) (Rv32.immI w)) := by
    unfold Rv32.decode
    rw [kind,funct3]
    rfl
  exact translateOneRiscv_decoded decoded

theorem addi_registers (h : Host) (rd rs1 : Rv32.Reg) (imm : BitVec 16) (m : Machine) :
    ∃ m', executeAll h [Enc.movi 15 imm,Enc.add (host rd) (host rs1) 15] m = .ok () m' ∧
      ∃ sum, sum = (m.regs.set 15 (imm.zeroExtend 32)).get (gprOf rs1)+imm.zeroExtend 32 ∧
        m'.regs = ((m.regs.set 15 (imm.zeroExtend 32)).set (gprOf rd) sum).updateFlagsU32 sum := by
  have moves : Takes h ⟨Enc.movi 15 imm⟩ m.core {m.core with regs := m.core.regs.set 15 (imm.zeroExtend 32)} := by
    have moved := takes_movi (h := h) (i := ⟨Enc.movi 15 imm⟩) (c := m.core) (d := 15) (Enc.itype_opcode ..) (by
      unfold Enc.movi
      rw [Enc.itype_rd]
      rfl)
    unfold Enc.movi at moved ⊢
    rwa [Enc.itype_imm16] at moved
  have adds := takes_arith (h := h) (i := ⟨Enc.add (host rd) (host rs1) 15⟩) (d := gprOf rd) (a := gprOf rs1) (b := 15)
    (c := {m.core with regs := m.core.regs.set 15 (imm.zeroExtend 32)}) (Enc.rtype_opcode ..) rfl (by
      unfold Enc.add
      rw [Enc.rtype_rd]
      exact host_gprOf rd) (by
      unfold Enc.add
      rw [Enc.rtype_ra]
      exact host_gprOf rs1) (by
      unfold Enc.add
      rw [Enc.rtype_rb]
      rfl)
  obtain ⟨m',ran,core⟩ := executeAll_takes moves adds rfl
  refine ⟨m',ran,_,rfl,?_⟩
  exact congrArg Core.regs core

theorem addi_adds (h : Host) (rd : (Rv32.rd w).toNat ≤ 14) (rs1 : (Rv32.rs1 w).toNat ≤ 14) (m : Machine) :
    ∃ m', executeAll h [Enc.movi 15 ((Rv32.immI w).signExtend 16),Enc.add (host (Rv32.rd w)) (host (Rv32.rs1 w)) 15] m = .ok () m' ∧
      (AddsImmediate w m.regs m'.regs ↔ Rv32.rd w = 0 ∨ (Rv32.immI w).msb = false) := by
  obtain ⟨m',ran,sum,added,regs⟩ := addi_registers h (Rv32.rd w) (Rv32.rs1 w) ((Rv32.immI w).signExtend 16) m
  have source : (m.regs.set 15 (((Rv32.immI w).signExtend 16).zeroExtend 32)).get (gprOf (Rv32.rs1 w)) =
      m.regs.get (gprOf (Rv32.rs1 w)) := by
    rw [RegisterFile.get_set,if_neg (gprOf_scratch _ rs1)]
    unfold RegisterFile.get
    split <;> rfl
  rw [source] at added
  have read : ∀ k, m'.regs.get k = if k = 0 then 0 else if k = gprOf (Rv32.rd w) then sum else
      (m.regs.set 15 (((Rv32.immI w).signExtend 16).zeroExtend 32)).get k := by
    intro k
    rw [regs]
    exact RegisterFile.get_set ..
  refine ⟨m',ran,?_⟩
  constructor
  · intro adds
    by_cases zero : Rv32.rd w = 0
    · exact .inl zero
    · -- The two sums differ exactly when the two extensions of the immediate do.
      have exact := adds.sum zero
      rw [read,if_neg (fun same => zero ((gprOf_zero _ rd).mp same)),if_pos rfl,added,BitVec.add_right_inj] at exact
      exact .inr ((movi_immediate _).mp exact)
  · intro holds
    refine ⟨?_,?_,by rw [regs]; rfl⟩
    · intro named
      have plain := holds.resolve_left named
      rw [read,if_neg (fun same => named ((gprOf_zero _ rd).mp same)),if_pos rfl,added,(movi_immediate _).mpr plain]
    · intro k apart scratch
      rw [read,if_neg apart,RegisterFile.get_set,if_neg scratch]
      unfold RegisterFile.get
      split <;> rfl

theorem addi_exact_iff (h : Host) (kind : Rv32.opcode w = 0x13) (funct3 : Rv32.funct3 w = 0) (rd : (Rv32.rd w).toNat ≤ 14)
    (rs1 : (Rv32.rs1 w).toNat ≤ 14) (m : Machine) :
    ∃ words m', translateOneRiscv w = some words ∧ executeAll h words m = .ok () m' ∧
      (AddsImmediate w m.regs m'.regs ↔ Rv32.rd w = 0 ∨ (Rv32.immI w).msb = false) := by
  obtain ⟨m',ran,adds⟩ := addi_adds h rd rs1 m
  exact ⟨_,m',addi_lowered kind funct3,ran,adds⟩

theorem addi_exact_positive : ∃ words m', translateOneRiscv 0x00500093 = some words ∧
    executeAll (.ieee .scalar) words (Machine.initial 512 256) = .ok () m' ∧
    AddsImmediate 0x00500093 (Machine.initial 512 256).regs m'.regs := by
  obtain ⟨words,m',lowered,ran,adds⟩ := addi_exact_iff (w := 0x00500093) (.ieee .scalar) (by decide) (by decide) (by decide)
    (by decide) (Machine.initial 512 256)
  exact ⟨words,m',lowered,ran,adds.mpr (by decide)⟩

-- ADDI x1,x0,-1 leaves 0xFFFF in r1.
theorem addi_negative_lost : ¬ ∀ (h : Host) (w : Word) (m : Machine), Rv32.opcode w = 0x13 → Rv32.funct3 w = 0 →
    (Rv32.rd w).toNat ≤ 14 → (Rv32.rs1 w).toNat ≤ 14 →
    ∃ words m', translateOneRiscv w = some words ∧ executeAll h words m = .ok () m' ∧ AddsImmediate w m.regs m'.regs := by
  intro right
  obtain ⟨words,m',lowered,ran,adds⟩ := right (.ieee .scalar) 0xFFF00093 (Machine.initial 512 256) (by decide) (by decide)
    (by decide) (by decide)
  cases lowered.symm.trans (addi_lowered (w := 0xFFF00093) (by decide) (by decide))
  obtain ⟨m'',ran',adds'⟩ := addi_adds (w := 0xFFF00093) (.ieee .scalar) (by decide) (by decide) (Machine.initial 512 256)
  cases ran.symm.trans ran'
  exact absurd (adds'.mp adds) (by decide)

end Immediates

section Accepted
variable {w : Word}

-- A guest instruction of the subset that names none of x16 to x31.
def Represented (w : Word) : Prop := ∃ i, Rv32.decode w = some i ∧ ∀ r ∈ i.regs, r.toNat ≤ 15

-- What the words of each accepted opcode must look like for that.
structure Covered (w : Word) : Prop where
  arith : Rv32.opcode w = 0x33 → Rv32.funct3 w = 0 → Rv32.funct7 w = 0x00 ∨ Rv32.funct7 w = 0x20 ∨ Rv32.funct7 w = 0x01 →
    (Rv32.rd w).toNat ≤ 15 ∧ (Rv32.rs1 w).toNat ≤ 15 ∧ (Rv32.rs2 w).toNat ≤ 15
  immediate : Rv32.opcode w = 0x13 → Rv32.funct3 w = 0 ∧ (Rv32.rd w).toNat ≤ 15 ∧ (Rv32.rs1 w).toNat ≤ 15
  load : Rv32.opcode w = 0x03 → Rv32.funct3 w = 2 ∧ (Rv32.rd w).toNat ≤ 15 ∧ (Rv32.rs1 w).toNat ≤ 15
  store : Rv32.opcode w = 0x23 → Rv32.funct3 w = 2 ∧ (Rv32.rs2 w).toNat ≤ 15 ∧ (Rv32.rs1 w).toNat ≤ 15
  branch : Rv32.opcode w = 0x63 → Rv32.funct3 w = 0 ∨ Rv32.funct3 w = 1 → (Rv32.rs1 w).toNat ≤ 15 ∧ (Rv32.rs2 w).toNat ≤ 15
  jump : Rv32.opcode w = 0x6F → (Rv32.rd w).toNat ≤ 15

theorem widened {n : Nat} (fits : n ≤ 32) (v c : BitVec n) : v.zeroExtend 32 = c.zeroExtend 32 ↔ v = c := by
  constructor
  · intro same
    have numbers := congrArg BitVec.toNat same
    rw [BitVec.toNat_setWidth_of_le fits,BitVec.toNat_setWidth_of_le fits] at numbers
    exact BitVec.eq_of_toNat_eq numbers
  · intro same
    rw [same]

section Tests
variable (w : Word)

theorem opcode_test (c : BitVec 7) : (w &&& 0x7F = c.zeroExtend 32) = (Rv32.opcode w = c) := by
  rw [opcode_field]
  exact propext (widened (by decide) _ _)

theorem funct3_test (c : BitVec 3) : ((w >>> 12) &&& 0x7 = c.zeroExtend 32) = (Rv32.funct3 w = c) := by
  rw [funct3_field]
  exact propext (widened (by decide) _ _)

theorem funct7_test (c : BitVec 7) : ((w >>> 25) &&& 0x7F = c.zeroExtend 32) = (Rv32.funct7 w = c) := by
  rw [funct7_field]
  exact propext (widened (by decide) _ _)

end Tests

-- The tests the decoder makes before it accepts, on the fields of the format.
theorem riscv_accepts (w : Word) : (translateOneRiscv w).isSome = true ↔
    (Rv32.opcode w = 0x33 ∧ Rv32.funct3 w = 0 ∧ (Rv32.funct7 w = 0x00 ∨ Rv32.funct7 w = 0x20 ∨ Rv32.funct7 w = 0x01)) ∨
    Rv32.opcode w = 0x13 ∨ Rv32.opcode w = 0x03 ∨ Rv32.opcode w = 0x23 ∨
    (Rv32.opcode w = 0x63 ∧ (Rv32.funct3 w = 0 ∨ Rv32.funct3 w = 1)) ∨ Rv32.opcode w = 0x6F := by
  have arith : (w &&& 0x7F = 0x33) = (Rv32.opcode w = 0x33) := opcode_test w 0x33
  have immediate : (w &&& 0x7F = 0x13) = (Rv32.opcode w = 0x13) := opcode_test w 0x13
  have load : (w &&& 0x7F = 0x03) = (Rv32.opcode w = 0x03) := opcode_test w 0x03
  have store : (w &&& 0x7F = 0x23) = (Rv32.opcode w = 0x23) := opcode_test w 0x23
  have branch : (w &&& 0x7F = 0x63) = (Rv32.opcode w = 0x63) := opcode_test w 0x63
  have jump : (w &&& 0x7F = 0x6F) = (Rv32.opcode w = 0x6F) := opcode_test w 0x6F
  have zero : ((w >>> 12) &&& 0x7 = 0) = (Rv32.funct3 w = 0) := funct3_test w 0
  have one : ((w >>> 12) &&& 0x7 = 1) = (Rv32.funct3 w = 1) := funct3_test w 1
  have add : ((w >>> 25) &&& 0x7F = 0x00) = (Rv32.funct7 w = 0x00) := funct7_test w 0x00
  have sub : ((w >>> 25) &&& 0x7F = 0x20) = (Rv32.funct7 w = 0x20) := funct7_test w 0x20
  have mul : ((w >>> 25) &&& 0x7F = 0x01) = (Rv32.funct7 w = 0x01) := funct7_test w 0x01
  unfold translateOneRiscv
  simp only [arith,immediate,load,store,branch,jump,zero,one,add,sub,mul]
  split_ifs <;> simp_all

theorem Covered.represented (covered : Covered w) (accepted : (translateOneRiscv w).isSome = true) : Represented w := by
  unfold Represented Rv32.decode
  rcases (riscv_accepts w).mp accepted with ⟨kind,funct3,funct7⟩ | kind | kind | kind | ⟨kind,funct3⟩ | kind
  · have regs := covered.arith kind funct3 funct7
    rcases funct7 with funct7 | funct7 | funct7 <;> simp [kind,funct3,funct7,Rv32.Instr.regs,regs]
  · simp [kind,Rv32.Instr.regs,covered.immediate kind]
  · simp [kind,Rv32.Instr.regs,covered.load kind]
  · simp [kind,Rv32.Instr.regs,covered.store kind]
  · have regs := covered.branch kind funct3
    rcases funct3 with funct3 | funct3 <;> simp [kind,funct3,Rv32.Instr.regs,regs]
  · simp [kind,Rv32.Instr.regs,covered.jump kind]

theorem covered_of_sound (sound : (translateOneRiscv w).isSome = true → Represented w) : Covered w := by
  rw [riscv_accepts] at sound
  unfold Represented Rv32.decode at sound
  constructor
  · intro kind funct3 funct7
    have named := sound (.inl ⟨kind,funct3,funct7⟩)
    rcases funct7 with funct7 | funct7 | funct7 <;> simpa [kind,funct3,funct7,Rv32.Instr.regs] using named
  · intro kind
    have named := sound (by simp [kind])
    by_cases funct3 : Rv32.funct3 w = 0 <;> simpa [kind,funct3,Rv32.Instr.regs] using named
  · intro kind
    have named := sound (by simp [kind])
    by_cases funct3 : Rv32.funct3 w = 2 <;> simpa [kind,funct3,Rv32.Instr.regs] using named
  · intro kind
    have named := sound (by simp [kind])
    by_cases funct3 : Rv32.funct3 w = 2 <;> simpa [kind,funct3,Rv32.Instr.regs] using named
  · intro kind funct3
    have named := sound (.inr (.inr (.inr (.inr (.inl ⟨kind,funct3⟩)))))
    rcases funct3 with funct3 | funct3 <;> simpa [kind,funct3,Rv32.Instr.regs] using named
  · intro kind
    have named := sound (by simp [kind])
    simpa [kind,Rv32.Instr.regs] using named

theorem accepts_represented_iff (w : Word) : ((translateOneRiscv w).isSome = true → Represented w) ↔ Covered w :=
  ⟨covered_of_sound,Covered.represented⟩

-- XORI x1,x1,1 is accepted, and becomes an addition.
theorem xori_accepted : ¬ ∀ w : Word, (translateOneRiscv w).isSome = true → Represented w := by
  intro sound
  obtain ⟨i,decoded,_⟩ := sound 0x0010C093 (by decide)
  have rejected : Rv32.decode 0x0010C093 = none := by decide
  cases rejected.symm.trans decoded

end Accepted
section Arm64
variable {w : Word}

-- What is emitted and the bits that were tested for it.
inductive ArmEmits (w : Word) : List Word → Prop where
  | add (rd rn rm : BitVec 8) : w.extractLsb' 25 7 = 0x45 → ArmEmits w [Enc.add rd rn rm]
  | sub (rd rn rm : BitVec 8) : w.extractLsb' 25 7 = 0x65 → ArmEmits w [Enc.sub rd rn rm]
  | movi (rd : BitVec 8) : w.extractLsb' 23 9 = 0xA5 → ArmEmits w [Enc.movi rd (A64.imm16 w)]
  | jump (target : Word) : w.extractLsb' 26 6 = 0x05 → ArmEmits w [Enc.jmp target]
  | load (rd ra : BitVec 8) (imm : BitVec 16) : w.extractLsb' 22 10 = 0x3E5 → ArmEmits w [Enc.load rd ra imm]
  | vector (vd va vb : BitVec 8) : w.extractLsb' 21 11 = 0x271 → ArmEmits w [Enc.vecAdd vd va vb]

theorem top_field (w : Word) {c : BitVec 7} {value : Word} (placed : value = c.zeroExtend 32 <<< 1) :
    (w >>> 24) &&& 0xFF &&& 0xFE = value ↔ w.extractLsb' 25 7 = c := by
  have cut : (0xFF : Word) &&& 0xFE = 0xFE := by decide
  have moved : (w >>> 24).extractLsb' 1 7 = w.extractLsb' 25 7 := by
    ext k inside
    simp [show 24+(1+k) = 25+k by omega]
  rw [BitVec.and_assoc,cut,A64.masked (w >>> 24) 1 c (by decide) (by decide) placed,moved]

theorem imm16_field : ((w >>> 5) &&& 0xFFFF).truncate 16 = A64.imm16 w := by
  unfold A64.imm16
  ext k inside
  interval_cases k <;> simp

theorem arm64_emits {words : List Word} (accepted : translateOneArm64 w = some words) : ArmEmits w words := by
  unfold translateOneArm64 at accepted
  rw [imm16_field] at accepted
  dsimp only at accepted
  split at accepted
  · rename_i tested
    cases accepted
    exact .add _ _ _ ((top_field w (by decide)).mp tested)
  split at accepted
  · rename_i tested
    cases accepted
    exact .sub _ _ _ ((top_field w (by decide)).mp tested)
  split at accepted
  · rename_i tested
    cases accepted
    exact .movi _ ((A64.masked w 23 _ (by decide) (by decide) (by decide)).mp tested)
  split at accepted
  · rename_i tested
    cases accepted
    exact .jump _ ((A64.masked w 26 _ (by decide) (by decide) (by decide)).mp tested)
  split at accepted
  · rename_i tested
    cases accepted
    exact .load _ _ _ ((A64.masked w 22 _ (by decide) (by decide) (by decide)).mp tested)
  split at accepted
  · rename_i tested
    cases accepted
    -- The last mask has a second field, which settles nothing here.
    have cut := congrArg (fun v : Word => v &&& 0xFFE00000) tested
    rw [BitVec.and_assoc] at cut
    exact .vector _ _ _ ((A64.masked w 21 _ (by decide) (by decide) (by decide)).mp cut)
  · cases accepted

-- An operation that shares bits with one the decoder takes.
inductive Neighbour : A64.Instr → Prop where
  | logical (op : A64.Logical) (wide : Bool) (shift : A64.Shift) (amount : BitVec 6) (rd rn rm : A64.Reg) :
    Neighbour (.logical op wide shift amount rd rn rm)
  | shifted (op : A64.Arith) (wide : Bool) (shift : A64.Shift) (amount : BitVec 6) (rd rn rm : A64.Reg) :
    amount ≠ 0 → Neighbour (.shifted op wide shift amount rd rn rm)
  | high (wide : Bool) (hw : BitVec 2) (imm : BitVec 16) (rd : A64.Reg) : hw ≠ 0 → Neighbour (.movz wide hw imm rd)

structure Unmistaken (w : Word) : Prop where
  add : ∀ words, translateOneArm64 w = some words → ∀ out ∈ words, (⟨out⟩ : Instruction).opcode = some .add →
    ∃ wide shift rd rn rm, A64.decode w = some (.shifted .add wide shift 0 rd rn rm)
  sub : ∀ words, translateOneArm64 w = some words → ∀ out ∈ words, (⟨out⟩ : Instruction).opcode = some .sub →
    ∃ wide shift rd rn rm, A64.decode w = some (.shifted .sub wide shift 0 rd rn rm)
  movi : ∀ words, translateOneArm64 w = some words → ∀ out ∈ words, (⟨out⟩ : Instruction).opcode = some .movi →
    ∃ wide rd, A64.decode w = some (.movz wide 0 (⟨out⟩ : Instruction).imm16 rd)
  neighbours : ∀ i, A64.decode w = some i → Neighbour i → translateOneArm64 w = none

-- The bits the masks leave open.
structure PlainForms (w : Word) : Prop where
  add : w.extractLsb' 25 7 = 0x45 → w.extractLsb' 24 1 = 1 ∧ A64.bit21 w = 0 ∧ A64.shift w ≠ 3 ∧ A64.imm6 w = 0
  sub : w.extractLsb' 25 7 = 0x65 → w.extractLsb' 24 1 = 1 ∧ A64.bit21 w = 0 ∧ A64.shift w ≠ 3 ∧ A64.imm6 w = 0
  movz : w.extractLsb' 23 9 = 0xA5 → A64.hw w = 0

section Plain
variable {c : BitVec 7} (seven : w.extractLsb' 25 7 = c)
include seven

theorem kind_number : (A64.kind w).toNat = c.toNat%16*2+(w.extractLsb' 24 1).toNat := by
  subst seven
  unfold A64.kind
  simp only [BitVec.extractLsb'_toNat,Nat.shiftRight_eq_div_pow]
  omega

theorem shifted_decodes (top : w.extractLsb' 24 1 = 1) (plain : A64.bit21 w = 0) (allocated : A64.shift w ≠ 3)
    (wide : c.extractLsb' 6 1 = 1) (kind : c.toNat%16 = 5) (unshifted : A64.imm6 w = 0) :
    A64.decode w = some (.shifted (A64.arithOf w) true (A64.shiftOf w) 0 (A64.rd w) (A64.rn w) (A64.rm w)) := by
  have group : A64.kind w = 0b01011 := by
    apply BitVec.eq_of_toNat_eq
    rw [kind_number seven,kind,top]
    rfl
  have sf : A64.sf w = 1 := (A64.field_within w seven 6 1 (by decide)).trans wide
  have known : ¬ (A64.shift w = 3 ∨ (A64.sf w = 0 ∧ 32 ≤ (A64.imm6 w).toNat)) := by
    intro bad
    rcases bad with ror | narrow
    · exact allocated ror
    · exact absurd (sf.symm.trans narrow.1) (by decide)
  unfold A64.decode
  rw [if_pos group,if_pos plain,if_neg known,sf,unshifted]
  rfl

end Plain

theorem movz_decodes (nine : w.extractLsb' 23 9 = 0xA5) (first : A64.hw w = 0) :
    A64.decode w = some (.movz false 0 (A64.imm16 w) (A64.rd w)) := by
  have sf : A64.sf w = 0 := A64.field_within w nine 8 1 (by decide)
  have opc : A64.opc w = 2 := A64.field_within w nine 6 2 (by decide)
  have wideKind : A64.wideKind w = 0b100101 := A64.field_within w nine 0 6 (by decide)
  have kind : A64.kind w = 0b10010 := A64.field_within w nine 1 5 (by decide)
  unfold A64.decode
  rw [kind,wideKind,opc,sf,first]
  rfl

theorem other_group {start len : Nat} {c : BitVec len} (known : w.extractLsb' start len = c) (low : Nat) (at26 : start+low = 26)
    (fits : low+3 ≤ len) (apart : c.extractLsb' low 3 ≠ 2 ∧ c.extractLsb' low 3 ≠ 4) : A64.decode w = none := by
  cases decoded : A64.decode w with
  | none => rfl
  | some i =>
    have group := A64.field_within w known low 3 fits
    rw [at26] at group
    rcases A64.decode_group decoded with two | four
    · exact absurd (group.symm.trans two) apart.1
    · exact absurd (group.symm.trans four) apart.2

-- The emitted operation tells which test accepted the word.
theorem ArmEmits.source {words : List Word} {out : Word} (emits : ArmEmits w words) (listed : out ∈ words) :
    ((⟨out⟩ : Instruction).opcode = some .add ∧ w.extractLsb' 25 7 = 0x45) ∨
    ((⟨out⟩ : Instruction).opcode = some .sub ∧ w.extractLsb' 25 7 = 0x65) ∨
    ((⟨out⟩ : Instruction).opcode = some .movi ∧ (⟨out⟩ : Instruction).imm16 = A64.imm16 w ∧ w.extractLsb' 23 9 = 0xA5) ∨
    ∃ op, (⟨out⟩ : Instruction).opcode = some op ∧ op ≠ .add ∧ op ≠ .sub ∧ op ≠ .movi := by
  cases emits with
  | add rd rn rm bits =>
    rw [List.mem_singleton.mp listed]
    exact .inl ⟨Enc.rtype_opcode ..,bits⟩
  | sub rd rn rm bits =>
    rw [List.mem_singleton.mp listed]
    exact .inr (.inl ⟨Enc.rtype_opcode ..,bits⟩)
  | movi rd bits =>
    rw [List.mem_singleton.mp listed]
    exact .inr (.inr (.inl ⟨Enc.itype_opcode ..,Enc.itype_imm16 ..,bits⟩))
  | jump target bits =>
    rw [List.mem_singleton.mp listed]
    exact .inr (.inr (.inr ⟨.jmp,Enc.jtype_opcode ..,by decide,by decide,by decide⟩))
  | load rd ra imm bits =>
    rw [List.mem_singleton.mp listed]
    exact .inr (.inr (.inr ⟨.load,Enc.itype_opcode ..,by decide,by decide,by decide⟩))
  | vector vd va vb bits =>
    rw [List.mem_singleton.mp listed]
    exact .inr (.inr (.inr ⟨.vecAdd,Enc.rtype_opcode ..,by decide,by decide,by decide⟩))

namespace PlainForms
variable (plain : PlainForms w)
include plain

theorem add_decodes (bits : w.extractLsb' 25 7 = 0x45) :
    A64.decode w = some (.shifted .add true (A64.shiftOf w) 0 (A64.rd w) (A64.rn w) (A64.rm w)) := by
  obtain ⟨top,register,allocated,unshifted⟩ := plain.add bits
  have opc : A64.opc w = 0 := A64.field_within w bits 4 2 (by decide)
  have op : A64.arithOf w = .add := if_pos opc
  rw [shifted_decodes bits top register allocated (by decide) (by decide) unshifted,op]

theorem sub_decodes (bits : w.extractLsb' 25 7 = 0x65) :
    A64.decode w = some (.shifted .sub true (A64.shiftOf w) 0 (A64.rd w) (A64.rn w) (A64.rm w)) := by
  obtain ⟨top,register,allocated,unshifted⟩ := plain.sub bits
  have opc : A64.opc w = 2 := A64.field_within w bits 4 2 (by decide)
  have op : A64.arithOf w = .sub := by
    unfold A64.arithOf
    rw [opc]
    rfl
  rw [shifted_decodes bits top register allocated (by decide) (by decide) unshifted,op]

theorem taken {words : List Word} {i : A64.Instr} (emits : ArmEmits w words) (decoded : A64.decode w = some i) : ¬ Neighbour i := by
  intro neighbour
  cases emits with
  | add rd rn rm bits =>
    cases (plain.add_decodes bits).symm.trans decoded
    cases neighbour with
    | shifted _ _ _ _ _ _ _ nonzero => exact nonzero rfl
  | sub rd rn rm bits =>
    cases (plain.sub_decodes bits).symm.trans decoded
    cases neighbour with
    | shifted _ _ _ _ _ _ _ nonzero => exact nonzero rfl
  | movi rd bits =>
    cases (movz_decodes bits (plain.movz bits)).symm.trans decoded
    cases neighbour with
    | high _ _ _ _ nonzero => exact nonzero rfl
  | jump target bits => cases (other_group bits 0 rfl (by decide) (by decide)).symm.trans decoded
  | load rd ra imm bits => cases (other_group bits 4 rfl (by decide) (by decide)).symm.trans decoded
  | vector vd va vb bits => cases (other_group bits 5 rfl (by decide) (by decide)).symm.trans decoded

theorem unmistaken : Unmistaken w := by
  constructor
  · intro words accepted out listed opcode
    rcases (arm64_emits accepted).source listed with ⟨_,bits⟩ | ⟨named,_⟩ | ⟨named,_⟩ | ⟨op,named,other,_⟩
    · exact ⟨_,_,_,_,_,plain.add_decodes bits⟩
    · cases named.symm.trans opcode
    · cases named.symm.trans opcode
    · cases named.symm.trans opcode
      exact absurd rfl other
  · intro words accepted out listed opcode
    rcases (arm64_emits accepted).source listed with ⟨named,_⟩ | ⟨_,bits⟩ | ⟨named,_⟩ | ⟨op,named,_,other,_⟩
    · cases named.symm.trans opcode
    · exact ⟨_,_,_,_,_,plain.sub_decodes bits⟩
    · cases named.symm.trans opcode
    · cases named.symm.trans opcode
      exact absurd rfl other
  · intro words accepted out listed opcode
    rcases (arm64_emits accepted).source listed with ⟨named,_⟩ | ⟨named,_⟩ | ⟨_,imm,bits⟩ | ⟨op,named,_,_,other⟩
    · cases named.symm.trans opcode
    · cases named.symm.trans opcode
    · rw [imm]
      exact ⟨_,_,movz_decodes bits (plain.movz bits)⟩
    · cases named.symm.trans opcode
      exact absurd rfl other
  · intro i decoded neighbour
    cases accepted : translateOneArm64 w with
    | none => rfl
    | some words => exact absurd neighbour (plain.taken (arm64_emits accepted) decoded)

end PlainForms

theorem arm64_add (bits : w.extractLsb' 25 7 = 0x45) : ∃ rd rn rm, translateOneArm64 w = some [Enc.add rd rn rm] := by
  unfold translateOneArm64
  dsimp only
  rw [if_pos ((top_field w (by decide)).mpr bits)]
  exact ⟨_,_,_,rfl⟩

theorem top_apart {c other : BitVec 7} {value : Word} (bits : w.extractLsb' 25 7 = c) (apart : c ≠ other)
    (placed : value = other.zeroExtend 32 <<< 1) : ¬ (w >>> 24) &&& 0xFF &&& 0xFE = value := by
  rw [top_field w placed,bits]
  exact apart

theorem arm64_sub (bits : w.extractLsb' 25 7 = 0x65) : ∃ rd rn rm, translateOneArm64 w = some [Enc.sub rd rn rm] := by
  unfold translateOneArm64
  dsimp only
  rw [if_neg (top_apart bits (by decide : (0x65 : BitVec 7) ≠ 0x45) (by decide)),if_pos ((top_field w (by decide)).mpr bits)]
  exact ⟨_,_,_,rfl⟩

theorem arm64_movi (nine : w.extractLsb' 23 9 = 0xA5) : ∃ rd, translateOneArm64 w = some [Enc.movi rd (A64.imm16 w)] := by
  have bits : w.extractLsb' 25 7 = 0x29 := A64.field_within w nine 2 7 (by decide)
  unfold translateOneArm64
  rw [imm16_field]
  dsimp only
  rw [if_neg (top_apart bits (by decide : (0x29 : BitVec 7) ≠ 0x45) (by decide)),
    if_neg (top_apart bits (by decide : (0x29 : BitVec 7) ≠ 0x65) (by decide)),
    if_pos ((A64.masked w 23 _ (by decide) (by decide) (by decide)).mpr nine)]
  exact ⟨_,rfl⟩

theorem unshifted_bits {op : A64.Arith} {wide : Bool} {moved : A64.Shift} {rd rn rm : A64.Reg}
    (decoded : A64.decode w = some (.shifted op wide moved 0 rd rn rm)) :
    w.extractLsb' 24 1 = 1 ∧ A64.bit21 w = 0 ∧ A64.shift w ≠ 3 ∧ A64.imm6 w = 0 := by
  obtain ⟨kind,register,allocated,unshifted⟩ := A64.decode_shifted decoded
  exact ⟨A64.field_within w kind 0 1 (by decide),register,allocated,unshifted⟩

theorem Unmistaken.plain (unmistaken : Unmistaken w) : PlainForms w := by
  constructor
  · intro bits
    obtain ⟨rd,rn,rm,accepted⟩ := arm64_add bits
    obtain ⟨_,_,_,_,_,decoded⟩ := unmistaken.add _ accepted _ (List.mem_singleton_self _) (Enc.rtype_opcode ..)
    exact unshifted_bits decoded
  · intro bits
    obtain ⟨rd,rn,rm,accepted⟩ := arm64_sub bits
    obtain ⟨_,_,_,_,_,decoded⟩ := unmistaken.sub _ accepted _ (List.mem_singleton_self _) (Enc.rtype_opcode ..)
    exact unshifted_bits decoded
  · intro bits
    obtain ⟨rd,accepted⟩ := arm64_movi bits
    obtain ⟨_,_,decoded⟩ := unmistaken.movi _ accepted _ (List.mem_singleton_self _) (Enc.itype_opcode ..)
    exact A64.decode_movz decoded

theorem arm64_unmistaken_iff (w : Word) : Unmistaken w ↔ PlainForms w := ⟨Unmistaken.plain,PlainForms.unmistaken⟩

-- AND X0,X0,X0 becomes an addition.
theorem arm64_and_mistaken : ¬ ∀ w : Word, Unmistaken w := by
  intro right
  have plain := (right 0x8A000000).plain
  exact absurd (plain.add (by decide)).1 (by decide)

end Arm64
end Novium
