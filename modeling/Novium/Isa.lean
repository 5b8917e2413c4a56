import Mathlib.Logic.Function.Basic

namespace Novium

abbrev Word := BitVec 32
abbrev DWord := BitVec 64

def scratchpadSize : Nat := 64*1024*1024
def mainRamSize : Nat := 64*1024*1024
def textBase : Word := 0x00000000
def textSize : Nat := 8*1024*1024
def mmioBase : Word := 0x03F00000
def uartBase : Word := 0x00001000
abbrev tileSize : Nat := 4
abbrev vecWidth : Nat := 16
abbrev vrByteSize : Nat := 64
def dmaLineSize : Word := 64
abbrev numGpr : Nat := 16
abbrev numVr : Nat := 8
def cyclesPerTick : DWord := 1000

instance : @NeZero Nat Zero.ofOfNat0 numGpr := ⟨Nat.succ_ne_zero 15⟩
instance : @NeZero Nat Zero.ofOfNat0 numVr := ⟨Nat.succ_ne_zero 7⟩

inductive Opcode where
  | nop | halt | jmp | beq | bne
  | add | sub | mul | load | store | mov | movi | loadVr | storeVr
  | vecAdd | matmulTile | dmaLoad | dmaStore
  deriving DecidableEq, Repr

namespace Opcode

def bits : Opcode → BitVec 6
  | nop => 0x00 | halt => 0x01 | jmp => 0x02 | beq => 0x03 | bne => 0x04
  | add => 0x05 | sub => 0x06 | mul => 0x07 | load => 0x08 | store => 0x09
  | mov => 0x0A | movi => 0x0B | loadVr => 0x0C | storeVr => 0x0D
  | vecAdd => 0x10 | matmulTile => 0x11 | dmaLoad => 0x12 | dmaStore => 0x13

def all : List Opcode :=
  [nop,halt,jmp,beq,bne,add,sub,mul,load,store,mov,movi,loadVr,storeVr,vecAdd,matmulTile,dmaLoad,dmaStore]

-- The cast of a six-bit field to the enumeration; `none` is a value without an
-- enumerator, for which the dispatch table holds a null handler.
def ofBits (b : BitVec 6) : Option Opcode := all.find? (fun op => op.bits == b)

theorem ofBits_bits (op : Opcode) : ofBits op.bits = some op := by
  cases op <;> decide

theorem bits_ofBits {b : BitVec 6} {op : Opcode} (found : ofBits b = some op) : op.bits = b := by
  simpa using List.find?_some found

def endsBlock (op : Opcode) : Bool := op == halt || op == jmp || op == beq || op == bne

end Opcode

-- R: op[31:26] rd[25:21] ra[20:16] rb[15:11] func[10:0]; I: imm16 in [15:0];
-- J: target26 in [25:0]; B: the two sources sit in the rd and ra fields.
structure Instruction where
  raw : Word
  deriving DecidableEq, Repr

namespace Instruction

def opcodeBits (i : Instruction) : BitVec 6 := i.raw.extractLsb' 26 6
def opcode (i : Instruction) : Option Opcode := Opcode.ofBits i.opcodeBits
-- `opcode()` as the byte under the enumeration, whether or not it has an enumerator.
def opcodeByte (i : Instruction) : BitVec 8 := i.opcodeBits.zeroExtend 8
def rd (i : Instruction) : BitVec 5 := i.raw.extractLsb' 21 5
def ra (i : Instruction) : BitVec 5 := i.raw.extractLsb' 16 5
def rb (i : Instruction) : BitVec 5 := i.raw.extractLsb' 11 5
def func (i : Instruction) : BitVec 11 := i.raw.extractLsb' 0 11
def imm16 (i : Instruction) : BitVec 16 := i.raw.extractLsb' 0 16
def simm16 (i : Instruction) : Word := i.imm16.signExtend 32
def target (i : Instruction) : BitVec 26 := i.raw.extractLsb' 0 26
def offset (i : Instruction) : Word := i.imm16.signExtend 32
def endsBlock (i : Instruction) : Bool := (i.opcode.map Opcode.endsBlock).getD false

end Instruction

-- The encoders on the byte under the enumeration: the source takes any value of
-- its `Opcode` type there, named or not.
namespace Enc.Raw

def opcodeField (op : BitVec 8) : Word := op.zeroExtend 32 <<< 26

def rtype (op rd ra rb : BitVec 8) (func : BitVec 16) : Word :=
  opcodeField op ||| ((rd.zeroExtend 32 &&& 0x1F) <<< 21) ||| ((ra.zeroExtend 32 &&& 0x1F) <<< 16) |||
    ((rb.zeroExtend 32 &&& 0x1F) <<< 11) ||| (func.zeroExtend 32 &&& 0x7FF)

def itype (op rd ra : BitVec 8) (imm : BitVec 16) : Word :=
  opcodeField op ||| ((rd.zeroExtend 32 &&& 0x1F) <<< 21) ||| ((ra.zeroExtend 32 &&& 0x1F) <<< 16) |||
    (imm.zeroExtend 32 &&& 0xFFFF)

def jtype (op : BitVec 8) (addr : Word) : Word := opcodeField op ||| (addr &&& 0x3FFFFFF)

def btype (op rs rt : BitVec 8) (off : BitVec 16) : Word :=
  opcodeField op ||| ((rs.zeroExtend 32 &&& 0x1F) <<< 21) ||| ((rt.zeroExtend 32 &&& 0x1F) <<< 16) |||
    (off.signExtend 32 &&& 0xFFFF)

end Enc.Raw

namespace Enc

def opcodeField (op : Opcode) : Word := op.bits.zeroExtend 32 <<< 26

def rtype (op : Opcode) (rd ra rb : BitVec 8) (func : BitVec 16) : Word :=
  opcodeField op ||| ((rd.zeroExtend 32 &&& 0x1F) <<< 21) ||| ((ra.zeroExtend 32 &&& 0x1F) <<< 16) |||
    ((rb.zeroExtend 32 &&& 0x1F) <<< 11) ||| (func.zeroExtend 32 &&& 0x7FF)

def itype (op : Opcode) (rd ra : BitVec 8) (imm : BitVec 16) : Word :=
  opcodeField op ||| ((rd.zeroExtend 32 &&& 0x1F) <<< 21) ||| ((ra.zeroExtend 32 &&& 0x1F) <<< 16) |||
    (imm.zeroExtend 32 &&& 0xFFFF)

def jtype (op : Opcode) (addr : Word) : Word := opcodeField op ||| (addr &&& 0x3FFFFFF)

def btype (op : Opcode) (rs rt : BitVec 8) (off : BitVec 16) : Word :=
  opcodeField op ||| ((rs.zeroExtend 32 &&& 0x1F) <<< 21) ||| ((rt.zeroExtend 32 &&& 0x1F) <<< 16) |||
    (off.signExtend 32 &&& 0xFFFF)

def make (op : Opcode) : Word := opcodeField op
def nop : Word := make .nop
def halt : Word := make .halt
def jmp (addr : Word) : Word := jtype .jmp addr
def beq (ra rb : BitVec 8) (off : BitVec 16) : Word := btype .beq ra rb off
def bne (ra rb : BitVec 8) (off : BitVec 16) : Word := btype .bne ra rb off
def add (rd ra rb : BitVec 8) : Word := rtype .add rd ra rb 0
def sub (rd ra rb : BitVec 8) : Word := rtype .sub rd ra rb 0
def mul (rd ra rb : BitVec 8) : Word := rtype .mul rd ra rb 0
def mov (rd ra : BitVec 8) : Word := rtype .mov rd ra 0 0
def movi (rd : BitVec 8) (imm : BitVec 16) : Word := itype .movi rd 0 imm
def load (rd ra : BitVec 8) (imm : BitVec 16) : Word := itype .load rd ra imm
def store (rs ra : BitVec 8) (imm : BitVec 16) : Word := itype .store rs ra imm
def loadVr (vr ra : BitVec 8) (imm : BitVec 16) : Word := itype .loadVr vr ra imm
def storeVr (vr ra : BitVec 8) (imm : BitVec 16) : Word := itype .storeVr vr ra imm
def vecAdd (vd va vb : BitVec 8) : Word := rtype .vecAdd vd va vb 0
def matmulTile (vd va vb n : BitVec 8) : Word := rtype .matmulTile vd va vb (n.zeroExtend 16)
def dmaLoad (rd ra : BitVec 8) (bytes : BitVec 16) : Word := rtype .dmaLoad rd ra 0 bytes
def dmaStore (rd ra : BitVec 8) (bytes : BitVec 16) : Word := rtype .dmaStore rd ra 0 bytes

end Enc

-- Branches return the base weight here; the taken penalty is added by the handler.
def cycleWeight (op : Opcode) (func : BitVec 16) : Word :=
  match op with
  | .nop => 1
  | .halt => 0
  | .jmp | .beq | .bne => 2
  | .add | .sub => 1
  | .mul => 3
  | .load | .store => 3
  | .mov | .movi => 1
  | .loadVr | .storeVr => 5
  | .vecAdd => 4
  | .matmulTile => 16
  | .dmaLoad | .dmaStore => (func.zeroExtend 32 + dmaLineSize - 1)/dmaLineSize + 2

inductive TargetKind where
  | cpu | gpu | asic
  deriving DecidableEq, Repr

structure TargetProfile where
  kind : TargetKind
  name : String
  cycleOverrides : BitVec 6 → Word
  vectorLanes : Word
  tensorCores : Word
  dmaBandwidth : Word
  outOfOrder : Bool
  warpScheduling : Bool

def makeCpuProfile : TargetProfile :=
  ⟨.cpu,"cpu-x86-arm",Function.update (Function.update (fun _ => 0) Opcode.vecAdd.bits 2)
    Opcode.matmulTile.bits 24,8,1,32,true,false⟩

def makeGpuProfile : TargetProfile :=
  ⟨.gpu,"gpu-warp32",Function.update (Function.update (Function.update (Function.update (fun _ => 0)
    Opcode.vecAdd.bits 1) Opcode.matmulTile.bits 4) Opcode.dmaLoad.bits 1) Opcode.dmaStore.bits 1,32,4,256,false,true⟩

def makeAsicProfile : TargetProfile := ⟨.asic,"asic-npu-4x4",fun _ => 0,16,1,64,false,false⟩

-- A zero override means the default weight.
def profileCycleWeight (p : TargetProfile) (op : Opcode) (func : BitVec 16) : Word :=
  if p.cycleOverrides op.bits ≠ 0 then p.cycleOverrides op.bits else cycleWeight op func

end Novium
