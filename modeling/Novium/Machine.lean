import Novium.Devices
import Novium.Mmu
import Novium.Outcome
import Novium.Registers

namespace Novium
open Storage Effects

inductive EmulatorError where
  | sramBounds (addr : Word) (size : Nat)
  | mainRamBounds
  | programSize (count : Nat)
  | unknownOpcode (bits : BitVec 6)
  | matmulTileSize (n : Nat)
  | dmaLoadScratchpad
  | dmaLoadMainRam
  | dmaStoreMainRam
  | dmaStoreScratchpad
  deriving DecidableEq, Repr

def EmulatorError.what : EmulatorError → String
  | sramBounds addr size => "VirtualSRAM access out of bounds: addr=0x" ++ toString addr.toNat ++
      ", size=" ++ toString size
  | mainRamBounds => "MainRAM access out of bounds"
  | programSize count => "Program size (" ++ toString count ++ " bytes) exceeds .text region (" ++
      toString textSize ++ " bytes)"
  | unknownOpcode bits => "Unknown opcode: 0x" ++ toString bits.toNat
  | matmulTileSize n => "MATMUL_TILE: invalid tile size N=" ++ toString n
  | dmaLoadScratchpad => "DMA_LOAD: scratchpad address out of bounds"
  | dmaLoadMainRam => "DMA_LOAD: main RAM address out of bounds"
  | dmaStoreMainRam => "DMA_STORE: main RAM address out of bounds"
  | dmaStoreScratchpad => "DMA_STORE: scratchpad address out of bounds"

-- Where the source leaves the language: subscripts and copies it does not check,
-- the null `cause` a page walk reads, and the burst size and the quantum it divides by.
inductive Hazard where
  | registerIndex
  | outOfBounds
  | nullCause
  | zeroBurst
  | zeroQuantum
  deriving DecidableEq, Repr

-- The scratchpad's checked accessors. The bound is computed in `size_t`.
namespace VirtualSRAM

def read32 (s : ByteStore) (addr : Word) : Except EmulatorError Word :=
  if addr.toNat+4 ≤ s.size then .ok (s.word addr.toNat) else .error (.sramBounds addr 4)

def writeBytes (s : ByteStore) (addr : Word) (data : List Byte) : Except EmulatorError ByteStore :=
  if addr.toNat+data.length ≤ s.size then .ok (s.write addr.toNat data)
  else .error (.sramBounds addr data.length)

def write32 (s : ByteStore) (addr value : Word) : Except EmulatorError ByteStore :=
  writeBytes s addr (wordBytes value)

end VirtualSRAM

structure StepLine where
  pc : Word
  instr : Instruction
  cycles : Word
  changed : List (Fin numGpr × Word)
  newPc : Option Word
  dma : Option (BitVec 11)
  status : StatusFlags

inductive Output where
  | uartTx (payload : List Byte)
  | logStep (line : StepLine)

-- The emulator without its block cache. `shared` is the RAM behind the bus window
-- a cluster registers on its cores, and is absent on a standalone emulator.
structure Machine where
  scratchpad : ByteStore
  mainRam : ByteStore
  regs : RegisterFile
  csr : CSRFile
  mmu : MMU
  interconnect : Interconnect
  axi : Interconnect
  pcie : Interconnect
  cxi : Interconnect
  timer : TimerDevice
  uart : UartDevice
  profiler : Profiler
  debugger : Debugger
  intc : InterruptController
  target : TargetProfile
  accel : Bool
  verbose : Bool
  tickAccum : DWord
  lastPc : Word
  lastGpr : Fin numGpr → Word
  shared : Option ByteStore
  stdout : List Output

def zeroStore (size : Nat) : ByteStore := ⟨size,fun _ => 0⟩

def Machine.initial (scratchpadBytes mainRamBytes : Nat) : Machine where
  scratchpad := zeroStore scratchpadBytes
  mainRam := zeroStore mainRamBytes
  regs := .initial
  csr := .initial
  mmu := .initial
  interconnect := .ofConfig ⟨.axi4,64,2,8,16⟩
  axi := .ofConfig ⟨.axi4,64,2,8,16⟩
  pcie := .ofConfig ⟨.pcie,64,4,4,8⟩
  cxi := .ofConfig ⟨.cxi,64,3,16,16⟩
  timer := .initial
  uart := .initial
  profiler := .initial
  debugger := .initial
  intc := .initial
  target := makeAsicProfile
  accel := true
  verbose := false
  tickAccum := 0
  lastPc := 0
  lastGpr := fun _ => 0
  shared := none
  stdout := []

abbrev Emu (α : Type) := Exec EmulatorError Hazard Machine α
abbrev OnRegs (α : Type) := Exec EmulatorError Hazard RegisterFile α

def liftExcept {α : Type} : Except EmulatorError α → Emu α
  | .ok a => pure a
  | .error e => Exec.throw e

-- Handlers that only touch the register file are written over it and lifted, so
-- that what they leave alone needs no proof.
def onRegs {α : Type} (x : OnRegs α) : Emu α := Exec.within Machine.regs (fun r m => {m with regs := r}) x

inductive DeviceKind where
  | timer | uart | shared
  deriving DecidableEq, Repr

structure Device where
  base : Word
  size : Word
  kind : DeviceKind
  deriving DecidableEq, Repr

-- Registration order: the constructor's two devices, then a cluster's window.
def Machine.devices (m : Machine) : List Device :=
  [⟨mmioBase,0x1000,.timer⟩,⟨mmioBase+uartBase,0x1000,.uart⟩] ++
    if m.shared.isSome then [⟨0x80000000,0x01000000,.shared⟩] else []

def Machine.deviceAt (m : Machine) (addr : Word) : Option DeviceKind :=
  if mmioBase ≤ addr then (m.devices.find? fun d => d.base ≤ addr && addr < d.base+d.size).map Device.kind
  else none

theorem Machine.mem_devices {m : Machine} {d : Device} : d ∈ m.devices ↔ d = ⟨mmioBase,0x1000,.timer⟩ ∨
    d = ⟨mmioBase+uartBase,0x1000,.uart⟩ ∨ (m.shared.isSome = true ∧ d = ⟨0x80000000,0x01000000,.shared⟩) := by
  unfold Machine.devices
  cases m.shared with
  | none => simp
  | some ram => simp

theorem Machine.deviceAt_below {m : Machine} {addr : Word} (below : addr < mmioBase) : m.deviceAt addr = none := by
  unfold Machine.deviceAt
  rw [if_neg (BitVec.not_le.mpr below)]

theorem Machine.deviceAt_some {m : Machine} {addr : Word} {kind : DeviceKind} (found : m.deviceAt addr = some kind) :
    ∃ d ∈ m.devices, d.kind = kind ∧ d.base ≤ addr ∧ addr < d.base+d.size := by
  unfold Machine.deviceAt at found
  split at found
  · obtain ⟨d,here,kind⟩ := Option.map_eq_some_iff.mp found
    have inside := List.find?_some here
    rw [Bool.and_eq_true,decide_eq_true_eq,decide_eq_true_eq] at inside
    exact ⟨d,List.mem_of_find?_eq_some here,kind,inside⟩
  · cases found

namespace Bus

def read32 (addr : Word) : Emu Word := do
  let m ← Exec.get
  match m.deviceAt addr with
  | some .timer =>
    let (timer,value) := m.timer.readReg (addr-mmioBase)
    Exec.modify fun m => {m with timer := timer}
    return value
  | some .uart => return m.uart.readReg (addr-mmioBase-uartBase)
  | some .shared =>
    let off := (addr-0x80000000).toNat
    match m.shared with
    | some ram => if off+4 ≤ ram.size then return ram.word off else Exec.undefined .outOfBounds
    | none => Exec.undefined .outOfBounds
  | none => liftExcept (VirtualSRAM.read32 m.scratchpad addr)

def write32 (addr value : Word) : Emu Unit := do
  let m ← Exec.get
  match m.deviceAt addr with
  | some .timer => Exec.modify fun m => {m with timer := m.timer.writeReg (addr-mmioBase) value}
  | some .uart =>
    let (uart,payload) := m.uart.writeReg (addr-mmioBase-uartBase) value
    Exec.modify fun m => {m with uart := uart,stdout := m.stdout ++ (payload.map Output.uartTx).toList}
  | some .shared =>
    let off := (addr-0x80000000).toNat
    match m.shared with
    | some ram =>
      if off+4 ≤ ram.size then Exec.modify fun m => {m with shared := some (ram.write off (wordBytes value))}
      else Exec.undefined .outOfBounds
    | none => Exec.undefined .outOfBounds
  | none =>
    let ram ← liftExcept (VirtualSRAM.write32 m.scratchpad addr value)
    Exec.modify fun m => {m with scratchpad := ram}

end Bus

namespace Machine

def setPc (m : Machine) (pc : Word) : Machine := {m with regs := {m.regs with pc := pc}}
def advancePc (m : Machine) : Machine := m.setPc (m.regs.pc+4)
def trapVector (m : Machine) : Word := (m.csr.mtvec &&& ~~~(3#64)).truncate 32

def takeTrap (m : Machine) (t : Trap) : Machine :=
  let (intc,csr) := m.intc.takeTrap m.csr t
  {m with intc := intc,csr := csr}

-- Every synchronous trap site: save the trap, then redirect to the vector.
def enterTrap (m : Machine) (t : Trap) : Machine :=
  let taken := m.takeTrap t
  taken.setPc taken.trapVector

def pendingInterrupt (m : Machine) : Option Trap := m.intc.pendingInterrupt m.csr

-- The interrupt check at the head of `step`, with vectored delivery.
def deliverInterrupt (m : Machine) : Machine :=
  match m.pendingInterrupt with
  | none => m
  | some irq =>
    let taken := m.takeTrap irq
    let cause := irq.cause.code.zeroExtend 32 &&& 0xFF
    taken.setPc (if taken.csr.mtvec.getLsbD 0 then taken.trapVector+cause*4 else taken.trapVector)

def tickOnce (m : Machine) : Machine :=
  let timer := m.timer.tick cyclesPerTick
  {m with
    timer := timer
    intc := if timer.irqPending then m.intc.raiseTimer else m.intc.clearTimer
    axi := m.axi.tick cyclesPerTick
    pcie := m.pcie.tick cyclesPerTick
    cxi := m.cxi.tick cyclesPerTick
    interconnect := m.interconnect.tick cyclesPerTick
    tickAccum := m.tickAccum-cyclesPerTick}

-- `while (tick_accum_ >= CYCLES_PER_TICK)`: the trip count is the quotient, as
-- each pass takes one tick away.
def tickPeripherals (m : Machine) : Machine := tickOnce^[m.tickAccum.toNat/cyclesPerTick.toNat] m

def flushUart (m : Machine) : Machine :=
  let (uart,payload) := m.uart.flush
  {m with uart := uart,stdout := m.stdout ++ (payload.map Output.uartTx).toList}

def live (m : Machine) : Bool := !m.regs.halt && !m.debugger.hasBreakpoint m.regs.pc

theorem tickPeripherals_done (m : Machine) (small : m.tickAccum < cyclesPerTick) : m.tickPeripherals = m := by
  have quotient : m.tickAccum.toNat/cyclesPerTick.toNat = 0 := Nat.div_eq_of_lt small
  simp only [tickPeripherals,quotient,Function.iterate_zero,id_eq]

theorem tickPeripherals_more (m : Machine) (enough : cyclesPerTick ≤ m.tickAccum) :
    m.tickPeripherals = m.tickOnce.tickPeripherals := by
  have tick : cyclesPerTick.toNat = 1000 := rfl
  have least : cyclesPerTick.toNat ≤ m.tickAccum.toNat := enough
  have rest : m.tickOnce.tickAccum.toNat = m.tickAccum.toNat-cyclesPerTick.toNat :=
    BitVec.toNat_sub_of_le enough
  have quotient : m.tickAccum.toNat/cyclesPerTick.toNat = m.tickOnce.tickAccum.toNat/cyclesPerTick.toNat+1 := by
    rw [rest,tick] at *
    omega
  unfold tickPeripherals
  rw [quotient,Function.iterate_succ_apply]

end Machine
end Novium
