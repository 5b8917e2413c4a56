import Novium.ByteStore
import Novium.Isa

namespace Novium
open Storage

inductive GuestISA where
  | native | arm64 | riscv64 | ptx | asic
  deriving DecidableEq, Repr

structure TranslationStats where
  decoded : DWord
  emitted : DWord
  folded : DWord
  deriving DecidableEq, Repr

def targetMask : Word := 0x3FFFFFF

namespace TranslationEngine

def reg (field : Word) : BitVec 8 := (field &&& 0xF).truncate 8

-- The immediates of the S, B and J formats, put together from the word and sign-extended by hand.
def storeImm (word : Word) : Word :=
  let imm := ((word >>> 25) <<< 5) ||| ((word >>> 7) &&& 0x1F)
  if word &&& 0x80000000 ≠ 0 then imm ||| 0xFFFFF000 else imm

def branchImm (word : Word) : Word :=
  let imm := (((word >>> 31) &&& 1) <<< 12) ||| (((word >>> 7) &&& 1) <<< 11) |||
    (((word >>> 25) &&& 0x3F) <<< 5) ||| (((word >>> 8) &&& 0xF) <<< 1)
  if imm &&& 0x1000 ≠ 0 then imm ||| 0xFFFFE000 else imm

def jumpImm (word : Word) : Word :=
  let imm := (((word >>> 31) &&& 1) <<< 20) ||| (((word >>> 12) &&& 0xFF) <<< 12) |||
    (((word >>> 20) &&& 1) <<< 11) ||| (((word >>> 21) &&& 0x3FF) <<< 1)
  if imm &&& 0x100000 ≠ 0 then imm ||| 0xFFE00000 else imm

-- The words pushed when the decoder accepts; `none` is its false. Branch offsets are
-- emitted in words, jump targets as they stand.
def translateOneRiscv (word : Word) : Option (List Word) :=
  let opcode := word &&& 0x7F
  let rd := (word >>> 7) &&& 0x1F
  let rs1 := (word >>> 15) &&& 0x1F
  let rs2 := (word >>> 20) &&& 0x1F
  let funct3 := (word >>> 12) &&& 0x7
  if opcode = 0x33 then
    let funct7 := (word >>> 25) &&& 0x7F
    if funct3 = 0 ∧ funct7 = 0x00 then some [Enc.add (reg rd) (reg rs1) (reg rs2)]
    else if funct3 = 0 ∧ funct7 = 0x20 then some [Enc.sub (reg rd) (reg rs1) (reg rs2)]
    else if funct3 = 0 ∧ funct7 = 0x01 then some [Enc.mul (reg rd) (reg rs1) (reg rs2)]
    else none
  else if opcode = 0x13 then
    -- Every I-type ALU word is lowered as ADDI, through the scratch register r15.
    let imm := word.sshiftRight 20
    some [Enc.movi 15 ((imm &&& 0xFFFF).truncate 16),Enc.add (reg rd) (reg rs1) 15]
  else if opcode = 0x03 then
    let imm := word.sshiftRight 20
    some [Enc.load (reg rd) (reg rs1) ((imm &&& 0xFFFF).truncate 16)]
  else if opcode = 0x23 then
    some [Enc.store (reg rs2) (reg rs1) ((storeImm word &&& 0xFFFF).truncate 16)]
  else if opcode = 0x63 then
    let off : BitVec 16 := ((branchImm word-4).sdiv 4).truncate 16
    if funct3 = 0 then some [Enc.beq (reg rs1) (reg rs2) off]
    else if funct3 = 1 then some [Enc.bne (reg rs1) (reg rs2) off]
    else none
  else if opcode = 0x6F then some [Enc.jmp (jumpImm word &&& targetMask)]
  else none

def translateOneArm64 (word : Word) : Option (List Word) :=
  let top := (word >>> 24) &&& 0xFF
  let rd := word &&& 0x1F
  let rn := (word >>> 5) &&& 0x1F
  let rm := (word >>> 16) &&& 0x1F
  if top &&& 0xFE = 0x8A then some [Enc.add (reg rd) (reg rn) (reg rm)]
  else if top &&& 0xFE = 0xCA then some [Enc.sub (reg rd) (reg rn) (reg rm)]
  else if word &&& 0xFF800000 = 0x52800000 then
    some [Enc.movi (reg rd) (((word >>> 5) &&& 0xFFFF).truncate 16)]
  else if word &&& 0xFC000000 = 0x14000000 then
    let imm := (word &&& 0x3FFFFFF) <<< 2
    let imm := if imm &&& 0x08000000 ≠ 0 then imm ||| 0xF0000000 else imm
    some [Enc.jmp (imm &&& targetMask)]
  else if word &&& 0xFFC00000 = 0xF9400000 then
    let imm := (word >>> 10) &&& 0xFFF
    some [Enc.load (reg rd) (reg rn) (((imm*8) &&& 0xFFFF).truncate 16)]
  else if word &&& 0xFFE0FC00 = 0x4E20D400 then
    some [Enc.vecAdd ((rd % 8).truncate 8) ((rn % 8).truncate 8) ((rm % 8).truncate 8)]
  else none

def ascii (s : String) : List Byte := s.toList.map fun c => BitVec.ofNat 8 c.toNat

def stripComment : List Byte → List Byte
  | 0x2F :: 0x2F :: _ => []
  | b :: rest => b :: stripComment rest
  | [] => []

def isBlank (b : Byte) : Bool := b == 0x20 || b == 0x09 || b == 0x0D || b == 0x0A

def trim (s : List Byte) : List Byte := ((s.dropWhile isBlank).reverse.dropWhile isBlank).reverse

def toLower (b : Byte) : Byte := if 0x41 ≤ b ∧ b ≤ 0x5A then b+0x20 else b

def translateOnePtx (line : List Byte) : Option (List Word) :=
  let low := (trim (stripComment line)).map toLower
  let starts := fun s => (ascii s).isPrefixOf low
  if low.isEmpty then none
  else if starts "add." then some [Enc.vecAdd 2 0 1]
  else if starts "fma" || starts "mma" then some [Enc.matmulTile 3 0 1 4]
  else if starts "ld." then some [Enc.loadVr 0 5 0]
  else if starts "st." then some [Enc.storeVr 3 5 0]
  else if starts "mov" then some [Enc.movi 1 1]
  else if starts "ret" || starts "exit" then some [Enc.halt]
  else none

-- The little-endian words of the guest image; a tail of fewer than four bytes is dropped.
def guestWords : List Byte → List Word
  | b0 :: b1 :: b2 :: b3 :: rest => (b3 ++ b2 ++ b1 ++ b0) :: guestWords rest
  | _ => []

-- Lines as `getline` reads them: no line after a final newline.
def getLines : List Byte → List (List Byte)
  | [] => []
  | b :: rest =>
    if b = 0x0A then [] :: getLines rest
    else match getLines rest with
      | [] => [[b]]
      | line :: lines => (b :: line) :: lines

-- One pass of the loops over words and over lines; only the former pushes a NOP for
-- what it does not accept.
def pushWord (one : Word → Option (List Word)) (acc : List Word × TranslationStats) (word : Word) :
    List Word × TranslationStats :=
  match one word with
  | some tmp => (acc.1 ++ tmp,{acc.2 with decoded := acc.2.decoded+1,emitted := acc.2.emitted+BitVec.ofNat 64 tmp.length})
  | none => (acc.1 ++ [Enc.nop],acc.2)

def pushLine (acc : List Word × TranslationStats) (line : List Byte) : List Word × TranslationStats :=
  match translateOnePtx line with
  | some tmp => (acc.1 ++ tmp,{acc.2 with decoded := acc.2.decoded+1,emitted := acc.2.emitted+BitVec.ofNat 64 tmp.length})
  | none => acc

def translateWords (one : Word → Option (List Word)) (words : List Word) : List Word × TranslationStats :=
  words.foldl (pushWord one) ([],⟨0,0,0⟩)

def translateLines (lines : List (List Byte)) : List Word × TranslationStats := lines.foldl pushLine ([],⟨0,0,0⟩)

def translateBytes (isa : GuestISA) (data : List Byte) : List Word × TranslationStats :=
  match isa with
  | .native | .asic =>
    let words := guestWords data
    (words,⟨BitVec.ofNat 64 words.length,BitVec.ofNat 64 words.length,0⟩)
  | .riscv64 => translateWords translateOneRiscv (guestWords data)
  | .arm64 => translateWords translateOneArm64 (guestWords data)
  | .ptx =>
    let (out,stats) := translateLines (getLines data)
    if out.getLast?.map (fun w : Word => w >>> 26) = some (Opcode.halt.bits.zeroExtend 32) then (out,stats)
    else (out ++ [Enc.halt],stats)

end TranslationEngine
end Novium
