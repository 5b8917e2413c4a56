namespace Rv32

abbrev Reg := BitVec 5
abbrev Word := BitVec 32

-- The guest instructions of the translated subset, with the fields of their formats.
inductive Instr where
  | add (rd rs1 rs2 : Reg)
  | sub (rd rs1 rs2 : Reg)
  | mul (rd rs1 rs2 : Reg)
  | addi (rd rs1 : Reg) (imm : BitVec 12)
  | lw (rd rs1 : Reg) (imm : BitVec 12)
  | sw (rs2 rs1 : Reg) (imm : BitVec 12)
  | beq (rs1 rs2 : Reg) (offset : BitVec 13)
  | bne (rs1 rs2 : Reg) (offset : BitVec 13)
  | jal (rd : Reg) (offset : BitVec 21)
  deriving DecidableEq, Repr

def Instr.regs : Instr → List Reg
  | .add rd rs1 rs2 | .sub rd rs1 rs2 | .mul rd rs1 rs2 => [rd,rs1,rs2]
  | .addi rd rs1 _ | .lw rd rs1 _ => [rd,rs1]
  | .sw rs2 rs1 _ => [rs2,rs1]
  | .beq rs1 rs2 _ | .bne rs1 rs2 _ => [rs1,rs2]
  | .jal rd _ => [rd]

section Fields
variable (w : Word)

def opcode : BitVec 7 := w.extractLsb' 0 7
def rd : Reg := w.extractLsb' 7 5
def funct3 : BitVec 3 := w.extractLsb' 12 3
def rs1 : Reg := w.extractLsb' 15 5
def rs2 : Reg := w.extractLsb' 20 5
def funct7 : BitVec 7 := w.extractLsb' 25 7
def immI : BitVec 12 := w.extractLsb' 20 12
def immS : BitVec 12 := w.extractLsb' 25 7 ++ w.extractLsb' 7 5
def immB : BitVec 13 := w.extractLsb' 31 1 ++ w.extractLsb' 7 1 ++ w.extractLsb' 25 6 ++ w.extractLsb' 8 4 ++ 0#1
def immJ : BitVec 21 := w.extractLsb' 31 1 ++ w.extractLsb' 12 8 ++ w.extractLsb' 20 1 ++ w.extractLsb' 21 10 ++ 0#1

theorem immS_bit (k : Nat) : (immS w).getLsbD k =
    if k < 5 then (w.extractLsb' 7 5).getLsbD k else (w.extractLsb' 25 7).getLsbD (k-5) := BitVec.getLsbD_append

theorem immB_bit (k : Nat) : (immB w).getLsbD k =
    if k < 1 then (0#1).getLsbD k
    else if k-1 < 4 then (w.extractLsb' 8 4).getLsbD (k-1)
    else if k-1-4 < 6 then (w.extractLsb' 25 6).getLsbD (k-1-4)
    else if k-1-4-6 < 1 then (w.extractLsb' 7 1).getLsbD (k-1-4-6)
    else (w.extractLsb' 31 1).getLsbD (k-1-4-6-1) := by
  apply BitVec.getLsbD_append.trans
  rw [BitVec.getLsbD_append,BitVec.getLsbD_append,BitVec.getLsbD_append]

theorem immJ_bit (k : Nat) : (immJ w).getLsbD k =
    if k < 1 then (0#1).getLsbD k
    else if k-1 < 10 then (w.extractLsb' 21 10).getLsbD (k-1)
    else if k-1-10 < 1 then (w.extractLsb' 20 1).getLsbD (k-1-10)
    else if k-1-10-1 < 8 then (w.extractLsb' 12 8).getLsbD (k-1-10-1)
    else (w.extractLsb' 31 1).getLsbD (k-1-10-1-8) := by
  apply BitVec.getLsbD_append.trans
  rw [BitVec.getLsbD_append,BitVec.getLsbD_append,BitVec.getLsbD_append]

end Fields

def decode (w : Word) : Option Instr :=
  if opcode w = 0x33 then
    if funct3 w = 0 ∧ funct7 w = 0x00 then some (.add (rd w) (rs1 w) (rs2 w))
    else if funct3 w = 0 ∧ funct7 w = 0x20 then some (.sub (rd w) (rs1 w) (rs2 w))
    else if funct3 w = 0 ∧ funct7 w = 0x01 then some (.mul (rd w) (rs1 w) (rs2 w))
    else none
  else if opcode w = 0x13 then if funct3 w = 0 then some (.addi (rd w) (rs1 w) (immI w)) else none
  else if opcode w = 0x03 then if funct3 w = 2 then some (.lw (rd w) (rs1 w) (immI w)) else none
  else if opcode w = 0x23 then if funct3 w = 2 then some (.sw (rs2 w) (rs1 w) (immS w)) else none
  else if opcode w = 0x63 then
    if funct3 w = 0 then some (.beq (rs1 w) (rs2 w) (immB w))
    else if funct3 w = 1 then some (.bne (rs1 w) (rs2 w) (immB w))
    else none
  else if opcode w = 0x6F then some (.jal (rd w) (immJ w))
  else none

inductive Formats (w : Word) : Instr → Prop where
  | add : opcode w = 0x33 → funct3 w = 0 → funct7 w = 0x00 → Formats w (.add (rd w) (rs1 w) (rs2 w))
  | sub : opcode w = 0x33 → funct3 w = 0 → funct7 w = 0x20 → Formats w (.sub (rd w) (rs1 w) (rs2 w))
  | mul : opcode w = 0x33 → funct3 w = 0 → funct7 w = 0x01 → Formats w (.mul (rd w) (rs1 w) (rs2 w))
  | addi : opcode w = 0x13 → funct3 w = 0 → Formats w (.addi (rd w) (rs1 w) (immI w))
  | lw : opcode w = 0x03 → funct3 w = 2 → Formats w (.lw (rd w) (rs1 w) (immI w))
  | sw : opcode w = 0x23 → funct3 w = 2 → Formats w (.sw (rs2 w) (rs1 w) (immS w))
  | beq : opcode w = 0x63 → funct3 w = 0 → Formats w (.beq (rs1 w) (rs2 w) (immB w))
  | bne : opcode w = 0x63 → funct3 w = 1 → Formats w (.bne (rs1 w) (rs2 w) (immB w))
  | jal : opcode w = 0x6F → Formats w (.jal (rd w) (immJ w))

theorem decode_formats {w : Word} {i : Instr} (decoded : decode w = some i) : Formats w i := by
  unfold decode at decoded
  split at decoded
  · rename_i kind
    split at decoded
    · rename_i funct
      cases decoded
      exact .add kind funct.1 funct.2
    · split at decoded
      · rename_i funct
        cases decoded
        exact .sub kind funct.1 funct.2
      · split at decoded
        · rename_i funct
          cases decoded
          exact .mul kind funct.1 funct.2
        · cases decoded
  · -- The other opcodes select by funct3 alone, JAL by nothing more.
    repeat' split at decoded
    all_goals cases decoded
    · exact .addi ‹_› ‹_›
    · exact .lw ‹_› ‹_›
    · exact .sw ‹_› ‹_›
    · exact .beq ‹_› ‹_›
    · exact .bne ‹_› ‹_›
    · exact .jal ‹_›

-- A hart: registers and byte memory. The pc is kept only for the control flow.
structure Hart where
  x : Reg → Word
  pc : Word
  mem : Word → BitVec 8

namespace Hart
variable (g : Hart)

def get (r : Reg) : Word := if r = 0 then 0 else g.x r

def set (r : Reg) (value : Word) : Hart := {g with x := fun k => if k = r then value else g.x k}

def load (a : Word) : Word := g.mem (a+3) ++ g.mem (a+2) ++ g.mem (a+1) ++ g.mem a

def store (a value : Word) : Hart :=
  {g with mem := fun b =>
    if b = a then value.extractLsb' 0 8
    else if b = a+1 then value.extractLsb' 8 8
    else if b = a+2 then value.extractLsb' 16 8
    else if b = a+3 then value.extractLsb' 24 8
    else g.mem b}

def goto (pc : Word) : Hart := {g with pc := pc}

end Hart

def Instr.address (i : Instr) (g : Hart) : Option Word :=
  match i with
  | .lw _ rs1 imm | .sw _ rs1 imm => some (g.get rs1+imm.signExtend 32)
  | _ => none

def Hart.exec (g : Hart) (i : Instr) : Hart :=
  match i with
  | .add rd rs1 rs2 => (g.set rd (g.get rs1+g.get rs2)).goto (g.pc+4)
  | .sub rd rs1 rs2 => (g.set rd (g.get rs1-g.get rs2)).goto (g.pc+4)
  | .mul rd rs1 rs2 => (g.set rd (g.get rs1*g.get rs2)).goto (g.pc+4)
  | .addi rd rs1 imm => (g.set rd (g.get rs1+imm.signExtend 32)).goto (g.pc+4)
  | .lw rd rs1 imm => (g.set rd (g.load (g.get rs1+imm.signExtend 32))).goto (g.pc+4)
  | .sw rs2 rs1 imm => (g.store (g.get rs1+imm.signExtend 32) (g.get rs2)).goto (g.pc+4)
  | .beq rs1 rs2 offset => g.goto (if g.get rs1 = g.get rs2 then g.pc+offset.signExtend 32 else g.pc+4)
  | .bne rs1 rs2 offset => g.goto (if g.get rs1 ≠ g.get rs2 then g.pc+offset.signExtend 32 else g.pc+4)
  | .jal rd offset => (g.set rd (g.pc+4)).goto (g.pc+offset.signExtend 32)

def Hart.run (g : Hart) (program : List Instr) : Hart := program.foldl Hart.exec g

end Rv32
