namespace A64

abbrev Reg := BitVec 5
abbrev Word := BitVec 32

inductive Shift where
  | lsl | lsr | asr | ror
  deriving DecidableEq, Repr

inductive Arith where
  | add | adds | sub | subs
  deriving DecidableEq, Repr

inductive Logical where
  | and | bic | orr | orn | eor | eon | ands | bics
  deriving DecidableEq, Repr

-- Data processing on registers, and MOVZ. `wide` is the 64-bit form.
inductive Instr where
  | shifted (op : Arith) (wide : Bool) (shift : Shift) (amount : BitVec 6) (rd rn rm : Reg)
  | extended (op : Arith) (wide : Bool) (extend amount : BitVec 3) (rd rn rm : Reg)
  | logical (op : Logical) (wide : Bool) (shift : Shift) (amount : BitVec 6) (rd rn rm : Reg)
  | movz (wide : Bool) (hw : BitVec 2) (imm : BitVec 16) (rd : Reg)
  deriving DecidableEq, Repr

section Fields
variable (w : Word)

def sf : BitVec 1 := w.extractLsb' 31 1
def opc : BitVec 2 := w.extractLsb' 29 2
def kind : BitVec 5 := w.extractLsb' 24 5
def wideKind : BitVec 6 := w.extractLsb' 23 6
def shift : BitVec 2 := w.extractLsb' 22 2
def bit21 : BitVec 1 := w.extractLsb' 21 1
def hw : BitVec 2 := w.extractLsb' 21 2
def rm : Reg := w.extractLsb' 16 5
def extend : BitVec 3 := w.extractLsb' 13 3
def imm6 : BitVec 6 := w.extractLsb' 10 6
def imm3 : BitVec 3 := w.extractLsb' 10 3
def imm16 : BitVec 16 := w.extractLsb' 5 16
def rn : Reg := w.extractLsb' 5 5
def rd : Reg := w.extractLsb' 0 5

def shiftOf : Shift :=
  if shift w = 0 then .lsl else if shift w = 1 then .lsr else if shift w = 2 then .asr else .ror

def arithOf : Arith :=
  if opc w = 0 then .add else if opc w = 1 then .adds else if opc w = 2 then .sub else .subs

-- Bit 21 inverts the second operand.
def logicalOf : Logical :=
  if opc w = 0 then if bit21 w = 0 then .and else .bic
  else if opc w = 1 then if bit21 w = 0 then .orr else .orn
  else if opc w = 2 then if bit21 w = 0 then .eor else .eon
  else if bit21 w = 0 then .ands else .bics

-- Unallocated encodings: a rotated addend, an extension by more than four, and amounts
-- or halves that a 32-bit register does not have.
def decode : Option Instr :=
  if kind w = 0b01011 then
    if bit21 w = 0 then
      if shift w = 3 ∨ (sf w = 0 ∧ 32 ≤ (imm6 w).toNat) then none
      else some (.shifted (arithOf w) (sf w == 1) (shiftOf w) (imm6 w) (rd w) (rn w) (rm w))
    else if shift w = 0 ∧ (imm3 w).toNat ≤ 4 then
      some (.extended (arithOf w) (sf w == 1) (extend w) (imm3 w) (rd w) (rn w) (rm w))
    else none
  else if kind w = 0b01010 then
    if sf w = 0 ∧ 32 ≤ (imm6 w).toNat then none
    else some (.logical (logicalOf w) (sf w == 1) (shiftOf w) (imm6 w) (rd w) (rn w) (rm w))
  else if wideKind w = 0b100101 ∧ opc w = 2 then
    if sf w = 0 ∧ 2 ≤ (hw w).toNat then none
    else some (.movz (sf w == 1) (hw w) (imm16 w) (rd w))
  else none

-- An encoding class given by a mask over consecutive bits and their value.
theorem masked (start : Nat) {len : Nat} (c : BitVec len) {mask value : Word} (fits : start+len ≤ 32)
    (bits : mask = (BitVec.allOnes len).zeroExtend 32 <<< start) (placed : value = c.zeroExtend 32 <<< start) :
    w &&& mask = value ↔ w.extractLsb' start len = c := by
  subst bits placed
  constructor
  · intro same
    apply BitVec.eq_of_getLsbD_eq
    intro k inside
    have bit := congrArg (fun v : Word => v.getLsbD (start+k)) same
    simpa [inside,show start+k < 32 by omega,show ¬ start+k < start by omega] using bit
  · intro same
    subst same
    apply BitVec.eq_of_getLsbD_eq
    intro k inside
    by_cases low : k < start
    · simp [low]
    · simp [low,inside,show start+(k-start) = k by omega,Bool.and_comm]

theorem field_within {start len : Nat} {c : BitVec len} (known : w.extractLsb' start len = c) (low n : Nat) (fits : low+n ≤ len) :
    w.extractLsb' (start+low) n = c.extractLsb' low n := by
  subst known
  apply BitVec.eq_of_getLsbD_eq
  intro k inside
  simp [inside,show low+k < len by omega,Nat.add_assoc]

end Fields

section Decoded
variable {w : Word}

theorem decode_shifted {op : Arith} {wide : Bool} {moved : Shift} {amount : BitVec 6} {d n m : Reg}
    (decoded : decode w = some (.shifted op wide moved amount d n m)) :
    kind w = 0b01011 ∧ bit21 w = 0 ∧ shift w ≠ 3 ∧ imm6 w = amount := by
  unfold decode at decoded
  split at decoded
  · rename_i kind
    split at decoded
    · rename_i plain
      split at decoded
      · cases decoded
      · rename_i allocated
        cases decoded
        exact ⟨kind,plain,fun ror => allocated (.inl ror),rfl⟩
    · split at decoded <;> cases decoded
  · split at decoded
    · split at decoded <;> cases decoded
    · split at decoded
      · split at decoded <;> cases decoded
      · cases decoded

theorem decode_movz {wide : Bool} {half : BitVec 2} {imm : BitVec 16} {d : Reg} (decoded : decode w = some (.movz wide half imm d)) :
    hw w = half := by
  unfold decode at decoded
  split at decoded
  · repeat' split at decoded
    all_goals cases decoded
  · split at decoded
    · split at decoded <;> cases decoded
    · split at decoded
      · split at decoded
        · cases decoded
        · cases decoded
          rfl
      · cases decoded

-- Bits 26 to 28 tell these groups from branches, loads and vectors.
theorem decode_group {i : Instr} (decoded : decode w = some i) : w.extractLsb' 26 3 = 2 ∨ w.extractLsb' 26 3 = 4 := by
  unfold decode at decoded
  split at decoded
  · rename_i known
    exact .inl (field_within w known 2 3 (by decide))
  · split at decoded
    · rename_i known
      exact .inl (field_within w known 2 3 (by decide))
    · split at decoded
      · rename_i known
        exact .inr (field_within w known.1 3 3 (by decide))
      · cases decoded

end Decoded
end A64
