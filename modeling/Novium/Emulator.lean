import Novium.Handlers
import Novium.SmallStep

namespace Novium
open Storage Effects

structure DecodedBlock where
  startPc : Word
  endPc : Word
  ops : List Instruction
  endsWithBranch : Bool
  endsWithHalt : Bool
  deriving DecidableEq, Repr

-- What the decoding loop has collected when it stops.
structure Scan where
  ops : List Instruction
  endPc : Word
  endsWithBranch : Bool
  endsWithHalt : Bool

def scanBlock (mem : ByteStore) : Nat → Word → Except EmulatorError Scan
  | 0,cur => .ok ⟨[],cur,false,false⟩
  | left+1,cur =>
    match VirtualSRAM.read32 mem cur with
    | .error e => .error e
    | .ok raw =>
      let ins : Instruction := ⟨raw⟩
      let next := cur+4
      if ins.endsBlock then
        .ok ⟨[ins],next,ins.opcode ≠ some .halt,ins.opcode = some .halt⟩
      else if next &&& 0x3F = 0 then .ok ⟨[ins],next,false,false⟩
      else match scanBlock mem left next with
        | .error e => .error e
        | .ok rest => .ok {rest with ops := ins :: rest.ops}

def maxBlockLen : Nat := 32

def freshBlock (mem : ByteStore) (pc : Word) : Except EmulatorError DecodedBlock :=
  match scanBlock mem maxBlockLen pc with
  | .error e => .error e
  | .ok scan => .ok ⟨pc,scan.endPc,scan.ops,scan.endsWithBranch,scan.endsWithHalt⟩

-- `translate` is the only writer of the map and stores a block under its own
-- start, so that fact is part of the type.
structure BlockCache where
  map : Word → Option DecodedBlock
  hits : DWord
  misses : DWord
  keyed : ∀ pc blk, map pc = some blk → blk.startPc = pc

theorem freshBlock_ok {mem : ByteStore} {pc : Word} {blk : DecodedBlock} : freshBlock mem pc = .ok blk ↔
    ∃ scan, scanBlock mem maxBlockLen pc = .ok scan ∧
      blk = ⟨pc,scan.endPc,scan.ops,scan.endsWithBranch,scan.endsWithHalt⟩ := by
  unfold freshBlock
  cases scanBlock mem maxBlockLen pc with
  | error e => simp
  | ok scan => simp [eq_comm]

theorem freshBlock_startPc {mem : ByteStore} {pc : Word} {blk : DecodedBlock} (fresh : freshBlock mem pc = .ok blk) :
    blk.startPc = pc := by
  obtain ⟨scan,_,rfl⟩ := freshBlock_ok.mp fresh
  rfl

namespace BlockCache

def empty : BlockCache := ⟨fun _ => none,0,0,fun _ _ none => nomatch none⟩

def insert (c : BlockCache) (pc : Word) (blk : DecodedBlock) (start : blk.startPc = pc) : BlockCache where
  map := Function.update c.map pc (some blk)
  hits := c.hits
  misses := c.misses
  keyed := by
    intro key stored found
    by_cases same : key = pc
    · subst same
      rw [Function.update_self] at found
      cases Option.some.inj found
      exact start
    · rw [Function.update_of_ne same] at found
      exact c.keyed key stored found

def translate (c : BlockCache) (mem : ByteStore) (pc : Word) : Except EmulatorError DecodedBlock × BlockCache :=
  match c.map pc with
  | some blk => (.ok blk,{c with hits := c.hits+1})
  | none =>
    let missed := {c with misses := c.misses+1}
    match fresh : freshBlock mem pc with
    | .error e => (.error e,missed)
    | .ok blk => (.ok blk,missed.insert pc blk (freshBlock_startPc fresh))

end BlockCache

structure Emulator where
  core : Machine
  blockCache : BlockCache

def Emulator.initial (scratchpadBytes mainRamBytes : Nat) : Emulator :=
  ⟨.initial scratchpadBytes mainRamBytes,.empty⟩

-- Where a call of `run` stands: at its loop test, returned, or left by an error.
inductive RunConfig where
  | loop (m : Machine)
  | done (m : Machine)
  | thrown (e : EmulatorError) (m : Machine)
  | undefined (why : Hazard)

def RunConfig.ofStep : Outcome EmulatorError Hazard Machine Unit → RunConfig
  | .ok _ m => .loop m
  | .thrown e m => .thrown e m
  | .undefined why => .undefined why

def runNext (h : Host) : RunConfig → Option RunConfig
  | .loop m => some (if m.live then .ofStep (step h m) else .done m.flushUart)
  | .done _ | .thrown _ _ | .undefined _ => none

-- Where a call of `run_fast` stands: at the outer loop test, or at the head of the
-- replay loop with the i-th operation of a block to come.
inductive FastConfig where
  | loop (e : Emulator)
  | block (e : Emulator) (blk : DecodedBlock) (i : Nat)
  | done (e : Emulator)
  | thrown (err : EmulatorError) (e : Emulator)
  | undefined (why : Hazard)

-- The body of the replay loop: fetch was done by translation, so only the pc moves.
def replay (h : Host) (ins : Instruction) : Emu Unit := do
  Exec.modify Machine.advancePc
  let _ ← execute h ins
  Exec.modify Machine.tickPeripherals

def FastConfig.ofReplay (cache : BlockCache) (continued : Emulator → FastConfig) :
    Outcome EmulatorError Hazard Machine Unit → FastConfig
  | .ok _ m => continued ⟨m,cache⟩
  | .thrown e m => .thrown e ⟨m,cache⟩
  | .undefined why => .undefined why

def fastNext (h : Host) : FastConfig → Option FastConfig
  | .loop e => some (
    if e.core.live then
      if e.core.verbose then .ofReplay e.blockCache .loop (step h e.core)
      else match e.blockCache.translate e.core.scratchpad e.core.regs.pc with
        | (.ok blk,cache) => .block ⟨e.core,cache⟩ blk 0
        | (.error err,cache) => .thrown err ⟨e.core,cache⟩
    else .done ⟨e.core.flushUart,e.blockCache⟩)
  | .block e blk i => some (
    match blk.ops[i]? with
    | none => .loop e
    | some ins =>
      if e.core.live then
        .ofReplay e.blockCache (fun e' => if ins.endsBlock then .loop e' else .block e' blk (i+1))
          (replay h ins e.core)
      else .loop e)
  | .done _ | .thrown _ _ | .undefined _ => none

def Machine.reset (m : Machine) : Machine :=
  {m with
    regs := .initial
    csr := .initial
    mmu := {m.mmu.tlbFlush with enabled := false}
    axi := m.axi.reset
    pcie := m.pcie.reset
    cxi := m.cxi.reset
    interconnect := m.interconnect.reset
    intc := .initial
    scratchpad := m.scratchpad.cleared
    mainRam := m.mainRam.cleared
    profiler := .initial
    debugger := .initial
    verbose := false
    tickAccum := 0
    lastPc := 0
    lastGpr := fun _ => 0}

namespace Emulator

def clearBlocks (e : Emulator) : Emulator := {e with blockCache := .empty}

def loadProgram (e : Emulator) (bytes : List Byte) : Except EmulatorError Emulator :=
  if textSize < bytes.length then .error (.programSize bytes.length)
  else match VirtualSRAM.writeBytes e.core.scratchpad textBase bytes with
    | .error err => .error err
    | .ok ram => .ok (clearBlocks {e with core := {e.core with scratchpad := ram}})

def loadData (e : Emulator) (addr : Word) (data : List Byte) : Except EmulatorError Emulator :=
  match VirtualSRAM.writeBytes e.core.scratchpad addr data with
  | .error err => .error err
  | .ok ram => .ok {e with core := {e.core with scratchpad := ram}}

def loadTensor (e : Emulator) (addr : Word) (data : List Word) : Except EmulatorError Emulator :=
  e.loadData addr (data.flatMap wordBytes)

def loadMainRam (e : Emulator) (addr : Word) (data : List Byte) : Except EmulatorError Emulator :=
  if addr.toNat+data.length ≤ e.core.mainRam.size then
    .ok {e with core := {e.core with mainRam := e.core.mainRam.write addr.toNat data}}
  else .error .mainRamBounds

def setTarget (e : Emulator) (p : TargetProfile) : Emulator := clearBlocks {e with core := {e.core with target := p}}

def setTargetKind (e : Emulator) : TargetKind → Emulator
  | .cpu => e.setTarget makeCpuProfile
  | .gpu => e.setTarget makeGpuProfile
  | .asic => e.setTarget makeAsicProfile

def reset (e : Emulator) : Emulator := clearBlocks {e with core := e.core.reset}

def programmed (words : List Word) : Emulator :=
  {Emulator.initial 512 256 with
    core := {Machine.initial 512 256 with scratchpad := (zeroStore 512).write 0 (words.flatMap wordBytes)}}

end Emulator
end Novium
