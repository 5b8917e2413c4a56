import Novium.Machine

namespace Novium
open Storage Effects

namespace Handlers

def readGpr (idx : BitVec 5) : OnRegs Word := do
  let r ← Exec.get
  Exec.ofOption .registerIndex (r.readGpr idx.toNat)

def writeGpr (idx : BitVec 5) (value : Word) : OnRegs Unit := do
  let r ← Exec.get
  let r' ← Exec.ofOption .registerIndex (r.writeGpr idx.toNat value)
  Exec.modify fun _ => r'

def vr (idx : BitVec 5) : OnRegs (Fin numVr) := Exec.ofOption .registerIndex (RegisterFile.vrIndex idx.toNat)

def opNop (_ : Instruction) : OnRegs Word := return cycleWeight .nop 0

def opHalt (_ : Instruction) : OnRegs Word := do
  Exec.modify fun r => {r with halt := true}
  return 0

def opJmp (i : Instruction) : OnRegs Word := do
  Exec.modify fun r => {r with pc := i.target.zeroExtend 32}
  return cycleWeight .jmp 0

-- The sources of a branch sit in the rd and ra fields; the offset is relative to
-- the already advanced pc.
def branch (op : Opcode) (taken : Word → Word → Bool) (i : Instruction) : OnRegs Word := do
  let rs ← readGpr i.rd
  let rt ← readGpr i.ra
  if taken rs rt then
    Exec.modify fun r => {r with pc := r.pc+i.offset}
    return cycleWeight op 0 + 1
  else return cycleWeight op 0

def opBeq (i : Instruction) : OnRegs Word := branch .beq (fun rs rt => rs == rt) i
def opBne (i : Instruction) : OnRegs Word := branch .bne (fun rs rt => rs != rt) i

def setOverflow (r : RegisterFile) (overflow : Bool) : RegisterFile :=
  {r with status := {r.status with overflow := overflow}}

-- The shared shape of ADD, SUB and MUL: the overflow bit is computed and stored
-- before the flag update, as the source orders it.
def arith (op : Opcode) (f : Word → Word → Word) (overflow : Word → Word → Word → Bool)
    (i : Instruction) : OnRegs Word := do
  let a ← readGpr i.ra
  let b ← readGpr i.rb
  let result := f a b
  writeGpr i.rd result
  Exec.modify fun r => setOverflow r (overflow a b result)
  Exec.modify fun r => r.updateFlagsU32 result
  return cycleWeight op 0

def opAdd (i : Instruction) : OnRegs Word :=
  arith .add (· + ·) (fun a b result => a.msb == b.msb && a.msb != result.msb) i

def opSub (i : Instruction) : OnRegs Word :=
  arith .sub (· - ·) (fun a b result => a.msb != b.msb && a.msb != result.msb) i

def opMul (i : Instruction) : OnRegs Word := arith .mul (· * ·) (fun _ _ _ => false) i

def opMov (i : Instruction) : OnRegs Word := do
  let value ← readGpr i.ra
  writeGpr i.rd value
  return cycleWeight .mov 0

def opMovi (i : Instruction) : OnRegs Word := do
  writeGpr i.rd (i.imm16.zeroExtend 32)
  return cycleWeight .movi 0

def opVecAdd (h : Host) (accel : Bool) (target : TargetProfile) (i : Instruction) : OnRegs Word := do
  let d ← vr i.rd
  let a ← vr i.ra
  let b ← vr i.rb
  Exec.modify fun r => {r with vr := if accel then h.vecAddHost r.vr d a b else h.vecAddWidth 1 r.vr d a b}
  return profileCycleWeight target .vecAdd 0

def opMatmulTile (h : Host) (accel : Bool) (target : TargetProfile) (i : Instruction) : OnRegs Word := do
  let n := (i.func &&& 0xF).toNat
  if n = 0 ∨ tileSize < n then Exec.throw (.matmulTileSize n)
  else
    let d ← vr i.rd
    let a ← vr i.ra
    let b ← vr i.rb
    Exec.modify fun r => {r with vr := if accel then h.matmulTileHost r.vr d a b n else h.matmulTile r.vr d a b n}
    return profileCycleWeight target .matmulTile (BitVec.ofNat 16 n)

def translate (va : Word) (isWrite isFetch : Bool) : Emu (Option Word) := do
  let m ← Exec.get
  let t ← Exec.ofOption .nullCause (m.mmu.translate (some m.scratchpad) (some m.csr) va isWrite isFetch (some .none))
  Exec.modify fun m => {m with mmu := t.mmu}
  return t.pa

-- The address a data access uses: translated when the MMU is on; `none` is a fault.
def resolve (va : Word) (isWrite : Bool) : Emu (Option Word) := do
  let m ← Exec.get
  if m.mmu.enabled then translate va isWrite false else return some va

def pageFault (va : Word) (isStore : Bool) : Emu Word := do
  Exec.modify fun m => m.enterTrap
    (InterruptController.pageFaultTrap ((m.regs.pc-4).zeroExtend 64) (va.zeroExtend 64) isStore)
  return 2

def issueAxi (addr bytes : Word) (isWrite : Bool) : Emu Bool := do
  let m ← Exec.get
  let cycles := m.profiler.cycleCount
  let (axi,accepted) ← Exec.ofOption .zeroBurst (m.axi.issue ⟨0,addr,bytes,isWrite,cycles,0,.axi4⟩ cycles)
  Exec.modify fun m => {m with axi := axi}
  return accepted

def opLoad (i : Instruction) : Emu Word := do
  let base ← onRegs (readGpr i.ra)
  let va := base+i.simm16
  match ← resolve va false with
  | none => pageFault va false
  | some addr =>
    let _ ← issueAxi addr 4 false
    let value ← Bus.read32 addr
    onRegs (writeGpr i.rd value)
    return cycleWeight .load 0

def opStore (i : Instruction) : Emu Word := do
  let base ← onRegs (readGpr i.ra)
  let va := base+i.simm16
  match ← resolve va true with
  | none => pageFault va true
  | some addr =>
    let value ← onRegs (readGpr i.rd)
    let _ ← issueAxi addr 4 true
    Bus.write32 addr value
    return cycleWeight .store 0

def vrBytes (lanes : Fin vecWidth → Word) : List Byte := (List.finRange vecWidth).flatMap fun k => wordBytes (lanes k)

-- The vector accesses go to the scratchpad directly, with the virtual address.
def opLoadVr (i : Instruction) : Emu Word := do
  let base ← onRegs (readGpr i.ra)
  let addr := base+i.simm16
  let d ← onRegs (vr i.rd)
  let m ← Exec.get
  if addr.toNat+vrByteSize ≤ m.scratchpad.size then
    Exec.modify fun m => {m with regs := {m.regs with
      vr := Function.update m.regs.vr d fun k => m.scratchpad.word (addr.toNat+4*k.val)}}
    return cycleWeight .loadVr 0
  else Exec.throw (.sramBounds addr vrByteSize)

def opStoreVr (i : Instruction) : Emu Word := do
  let base ← onRegs (readGpr i.ra)
  let addr := base+i.simm16
  let s ← onRegs (vr i.rd)
  let m ← Exec.get
  let ram ← liftExcept (VirtualSRAM.writeBytes m.scratchpad addr (vrBytes (m.regs.vr s)))
  Exec.modify fun m => {m with scratchpad := ram}
  return cycleWeight .storeVr 0

def dmaCount (i : Instruction) : Word := i.func.zeroExtend 32

-- The bound checks add in 32 bits; the copy itself is unchecked, so a copy that
-- leaves either buffer is undefined.
def opDmaLoad (i : Instruction) : Emu Word := do
  let destVa ← onRegs (readGpr i.rd)
  let srcVa ← onRegs (readGpr i.ra)
  let bytes := dmaCount i
  let paDest ← resolve destVa true
  let paSrc ← resolve srcVa false
  match paDest,paSrc with
  | some dest,some src =>
    let m ← Exec.get
    if m.scratchpad.size < (dest+bytes).toNat then Exec.throw .dmaLoadScratchpad
    else if m.mainRam.size < (src+bytes).toNat then Exec.throw .dmaLoadMainRam
    else
      let accepted ← issueAxi dest bytes false
      if !accepted then Exec.modify fun m => {m with profiler := m.profiler.record .dmaLoad 1 0}
      if dest.toNat+bytes.toNat ≤ m.scratchpad.size ∧ src.toNat+bytes.toNat ≤ m.mainRam.size then
        Exec.modify fun m => {m with
          scratchpad := m.scratchpad.write dest.toNat (m.mainRam.read src.toNat bytes.toNat)}
        return profileCycleWeight m.target .dmaLoad (bytes.truncate 16)
      else Exec.undefined .outOfBounds
  | none,_ => pageFault destVa true
  | some _,none => pageFault srcVa false

def opDmaStore (i : Instruction) : Emu Word := do
  let destVa ← onRegs (readGpr i.rd)
  let srcVa ← onRegs (readGpr i.ra)
  let bytes := dmaCount i
  let paDest ← resolve destVa true
  let paSrc ← resolve srcVa false
  match paDest,paSrc with
  | some dest,some src =>
    let m ← Exec.get
    if m.mainRam.size < (dest+bytes).toNat then Exec.throw .dmaStoreMainRam
    else if m.scratchpad.size < (src+bytes).toNat then Exec.throw .dmaStoreScratchpad
    else
      let _ ← issueAxi src bytes true
      if dest.toNat+bytes.toNat ≤ m.mainRam.size ∧ src.toNat+bytes.toNat ≤ m.scratchpad.size then
        Exec.modify fun m => {m with
          mainRam := m.mainRam.write dest.toNat (m.scratchpad.read src.toNat bytes.toNat)}
        return profileCycleWeight m.target .dmaStore (bytes.truncate 16)
      else Exec.undefined .outOfBounds
  | none,_ => pageFault destVa true
  | some _,none => pageFault srcVa true

end Handlers

open Handlers

-- The dispatch table; an opcode value without an enumerator has no entry.
def handler (h : Host) (op : Opcode) (i : Instruction) : Emu Word :=
  match op with
  | .nop => onRegs (opNop i)
  | .halt => onRegs (opHalt i)
  | .jmp => onRegs (opJmp i)
  | .beq => onRegs (opBeq i)
  | .bne => onRegs (opBne i)
  | .add => onRegs (opAdd i)
  | .sub => onRegs (opSub i)
  | .mul => onRegs (opMul i)
  | .load => opLoad i
  | .store => opStore i
  | .mov => onRegs (opMov i)
  | .movi => onRegs (opMovi i)
  | .loadVr => opLoadVr i
  | .storeVr => opStoreVr i
  | .vecAdd => fun m => onRegs (opVecAdd h m.accel m.target i) m
  | .matmulTile => fun m => onRegs (opMatmulTile h m.accel m.target i) m
  | .dmaLoad => opDmaLoad i
  | .dmaStore => opDmaStore i

def dmaBytesOf (op : Opcode) (i : Instruction) : DWord :=
  if op = .dmaLoad ∨ op = .dmaStore then i.func.zeroExtend 64 else 0

def account (op : Opcode) (i : Instruction) (cycles : Word) (m : Machine) : Machine :=
  {m with
    profiler := m.profiler.record op cycles (dmaBytesOf op i)
    tickAccum := m.tickAccum + cycles.zeroExtend 64}

def illegal (i : Instruction) : Emu Word := do
  let m ← Exec.get
  if m.csr.mtvec ≠ 0 then
    Exec.modify fun m => m.enterTrap (InterruptController.illegalInstTrap ((m.regs.pc-4).zeroExtend 64) i.raw)
    return 2
  else Exec.throw (.unknownOpcode i.opcodeBits)

def execute (h : Host) (i : Instruction) : Emu Word :=
  match i.opcode with
  | none => illegal i
  | some op => do
    let cycles ← handler h op i
    Exec.modify (account op i cycles)
    return cycles

def fetchFaultTrap (va : Word) : Trap :=
  {InterruptController.pageFaultTrap (va.zeroExtend 64) (va.zeroExtend 64) false with cause := .instPageFault}

-- With the MMU on, the translated fetch reads the scratchpad without a bound check.
def fetch : Emu Instruction := do
  let m ← Exec.get
  let va := m.regs.pc
  if m.mmu.enabled then
    match ← translate va false true with
    | none =>
      Exec.modify fun m => m.enterTrap (fetchFaultTrap va)
      return ⟨Enc.nop⟩
    | some pa =>
      if pa.toNat+4 ≤ m.scratchpad.size then
        Exec.modify Machine.advancePc
        return ⟨m.scratchpad.word pa.toNat⟩
      else Exec.undefined .outOfBounds
  else
    let raw ← Bus.read32 va
    Exec.modify Machine.advancePc
    return ⟨raw⟩

def readAllGpr (r : RegisterFile) (k : Fin numGpr) : Word := if k.val = 0 then 0 else r.gpr k

def saveBefore (m : Machine) : Machine :=
  if m.verbose then {m with lastPc := m.regs.pc,lastGpr := readAllGpr m.regs} else m

def stepLine (pc : Word) (i : Instruction) (cycles : Word) (m : Machine) : StepLine where
  pc := pc
  instr := i
  cycles := cycles
  changed := ((List.finRange numGpr).filter fun k => readAllGpr m.regs k ≠ m.lastGpr k).map
    fun k => (k,readAllGpr m.regs k)
  newPc := if m.regs.pc ≠ pc+4 then some m.regs.pc else none
  dma := if i.opcode = some .dmaLoad ∨ i.opcode = some .dmaStore then some i.func else none
  status := m.regs.status

def logStep (pc : Word) (i : Instruction) (cycles : Word) (m : Machine) : Machine :=
  if m.verbose then {m with stdout := m.stdout ++ [.logStep (stepLine pc i cycles m)]} else m

def cycle (h : Host) : Emu Unit := do
  let before ← Exec.get
  Exec.modify saveBefore
  let i ← fetch
  let cycles ← execute h i
  Exec.modify Machine.tickPeripherals
  Exec.modify (logStep before.regs.pc i cycles)

def step (h : Host) : Emu Unit := do
  let m ← Exec.get
  if m.regs.halt then return ()
  else
    Exec.modify Machine.deliverInterrupt
    cycle h

end Novium
