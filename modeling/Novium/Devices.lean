import Mathlib.Data.Finset.Erase
import Mathlib.Data.Finset.Insert
import Novium.ByteStore
import Novium.Isa

namespace Novium
open Storage

inductive FabricProtocol where
  | axi4 | pcie | cxi
  deriving DecidableEq, Repr

structure InterconnectConfig where
  protocol : FabricProtocol
  dataWidth : Word
  latencyCycles : Word
  maxOutstanding : Word
  burstLen : Word
  deriving DecidableEq, Repr

structure Transaction where
  id : Word
  addr : Word
  bytes : Word
  isWrite : Bool
  issueCycle : DWord
  completeCycle : DWord
  proto : FabricProtocol
  deriving DecidableEq, Repr

structure Interconnect where
  cfg : InterconnectConfig
  pending : List Transaction
  curCycle : DWord
  completed : DWord
  stalled : DWord
  deriving DecidableEq, Repr

namespace Interconnect

def ofConfig (cfg : InterconnectConfig) : Interconnect := ⟨cfg,[],0,0,0⟩

-- `none` is the division by a zero burst size; the flag is the accepted answer.
def issue (x : Interconnect) (t : Transaction) (curCycle : DWord) : Option (Interconnect × Bool) :=
  if x.cfg.maxOutstanding.toNat ≤ x.pending.length then some ({x with stalled := x.stalled+1},false)
  else
    let burst := x.cfg.dataWidth*x.cfg.burstLen
    if burst = 0 then none
    else
      let bursts := (t.bytes+burst-1)/burst
      let issued := {t with
        issueCycle := curCycle
        completeCycle := curCycle + x.cfg.latencyCycles.zeroExtend 64 + bursts.zeroExtend 64
        proto := x.cfg.protocol}
      some ({x with pending := x.pending++[issued],curCycle := curCycle},true)

def tick (x : Interconnect) (cycles : DWord) : Interconnect :=
  let cur := x.curCycle+cycles
  let done := x.pending.takeWhile fun t => t.completeCycle ≤ cur
  {x with
    pending := x.pending.drop done.length
    curCycle := cur
    completed := x.completed + BitVec.ofNat 64 done.length}

def reset (x : Interconnect) : Interconnect := {x with pending := [],completed := 0,stalled := 0,curCycle := 0}

end Interconnect

structure Profiler where
  instrCount : DWord
  cycleCount : DWord
  dmaBytes : DWord
  dmaCycleCount : DWord
  opcodeHist : BitVec 6 → DWord

namespace Profiler

def initial : Profiler := ⟨0,0,0,0,fun _ => 0⟩

def record (p : Profiler) (op : Opcode) (cycles : Word) (dmaBytes : DWord) : Profiler :=
  let counted := {p with
    instrCount := p.instrCount+1
    cycleCount := p.cycleCount + cycles.zeroExtend 64
    opcodeHist := Function.update p.opcodeHist op.bits (p.opcodeHist op.bits + 1)}
  if 0 < dmaBytes then {counted with
    dmaBytes := p.dmaBytes+dmaBytes
    dmaCycleCount := p.dmaCycleCount + cycles.zeroExtend 64}
  else counted

end Profiler

structure TimerDevice where
  count : DWord
  limit : DWord
  ctrl : Bool
  irqPending : Bool
  deriving DecidableEq, Repr

namespace TimerDevice

def initial : TimerDevice := ⟨0,10000,false,false⟩

def tick (t : TimerDevice) (cycles : DWord) : TimerDevice :=
  if t.ctrl then
    let count := t.count+cycles
    if t.limit ≤ count then {t with count := count-t.limit,irqPending := true} else {t with count := count}
  else t

-- Reading the IRQ register acknowledges it.
def readReg (t : TimerDevice) (offset : Word) : TimerDevice × Word :=
  if offset = 0x00 then (t,t.count.truncate 32)
  else if offset = 0x04 then (t,t.limit.truncate 32)
  else if offset = 0x08 then (t,if t.ctrl then 1 else 0)
  else if offset = 0x0C then ({t with irqPending := false},if t.irqPending then 1 else 0)
  else (t,0)

def writeReg (t : TimerDevice) (offset value : Word) : TimerDevice :=
  if offset = 0x00 then {t with count := value.zeroExtend 64}
  else if offset = 0x04 then {t with limit := value.zeroExtend 64}
  else if offset = 0x08 then {t with ctrl := value != 0}
  else if offset = 0x0C then {t with irqPending := false}
  else t

end TimerDevice

structure UartDevice where
  txBuffer : List Byte
  rxBuffer : List Byte
  deriving DecidableEq, Repr

namespace UartDevice

def initial : UartDevice := ⟨[],[]⟩

-- What `%s` prints of a buffer: the bytes before the first zero byte.
def printed (buffer : List Byte) : List Byte := buffer.takeWhile (· ≠ 0)

-- The second component is the payload sent to standard output, if any.
def writeReg (u : UartDevice) (offset value : Word) : UartDevice × Option (List Byte) :=
  if offset = 0x00 then
    let buffer := u.txBuffer ++ [value.truncate 8]
    if value &&& 0xFF = 0x0A ∨ 256 ≤ buffer.length then ({u with txBuffer := []},some (printed buffer))
    else ({u with txBuffer := buffer},none)
  else (u,none)

-- `front()` is a plain char, sign-extended by the cast on the hosts built for.
def readReg (u : UartDevice) (offset : Word) : Word :=
  if offset = 0x04 then ((u.rxBuffer.head?).map fun b => b.signExtend 32).getD 0
  else if offset = 0x08 then 1
  else 0

def flush (u : UartDevice) : UartDevice × Option (List Byte) :=
  if u.txBuffer = [] then (u,none) else ({u with txBuffer := []},some (printed u.txBuffer))

end UartDevice

structure Debugger where
  breakpoints : Finset Word
  singleStep : Bool

namespace Debugger

def initial : Debugger := ⟨∅,false⟩
def addBreakpoint (d : Debugger) (addr : Word) : Debugger := {d with breakpoints := insert addr d.breakpoints}
def removeBreakpoint (d : Debugger) (addr : Word) : Debugger := {d with breakpoints := d.breakpoints.erase addr}
def hasBreakpoint (d : Debugger) (addr : Word) : Bool := decide (addr ∈ d.breakpoints)

end Debugger
end Novium
