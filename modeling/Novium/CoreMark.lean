import Novium.CApi
import Novium.CountedLoop
import Novium.Workloads

namespace Novium
open Storage Effects Handlers SmallStep StateTransition

namespace Loader

def readBytes (addr : Word) (count : DWord) : OnEmulator (List Byte) :=
  onScratchpad (do
    checkBounds (.sramBounds addr count.toNat) addr count
    let s ← Exec.get
    return s.read addr.toNat count.toNat)

end Loader

def Emulator.withPad (e : Emulator) (pad : ByteStore) : Emulator := {e with core := {e.core with scratchpad := pad}}

def Emulator.withRam (e : Emulator) (ram : ByteStore) : Emulator := {e with core := {e.core with mainRam := ram}}

namespace CoreMark

-- The times, the texts and the scores computed from the counters in floating point are left out.
structure Result where
  iterations : Word
  totalCycles : DWord
  totalInstrs : DWord
  listOk : Bool
  matrixOk : Bool
  crcOk : Bool
  deriving DecidableEq, Repr

def buildIteration (scratchA scratchB : Word) : List Word :=
  [Enc.movi 1 0,Enc.movi 2 5,Enc.movi 4 1,Enc.movi 3 0,Enc.add 1 1 4,Enc.add 3 3 1,Enc.bne 1 2 (-12),Enc.movi 5 (scratchA.truncate 16),
    Enc.movi 6 (scratchB.truncate 16),Enc.movi 7 0,Enc.movi 8 64,Enc.dmaLoad 5 7 64,Enc.dmaLoad 6 8 64,Enc.loadVr 0 5 0,
    Enc.loadVr 1 6 0,Enc.vecAdd 2 0 1,Enc.matmulTile 3 0 1 4,Enc.storeVr 3 5 0,Enc.movi 10 0x5A5A,Enc.add 11 10 3,Enc.mul 12 11 3,
    Enc.halt]

-- A `const float*` of sixteen elements, or null.
abbrev Matrix := Option (Fin vecWidth → Word)

-- A copy checks its bound and then reads the pointer, null or not.
def copied (load : List Byte → OnEmulator Unit) : Matrix → OnEmulator Unit
  | some lanes => load (vrBytes lanes)
  | none => do
    load []
    Exec.undefined .outOfBounds

def loadMatrix (addr : Word) : Matrix → OnEmulator Unit
  | some lanes => Loader.loadMainRam addr (vrBytes lanes) 64
  | none => return ()

def preload (matA matB : Matrix) : OnEmulator Unit :=
  if matA.isSome && matB.isSome then do
    loadMatrix 0x0000 matA
    loadMatrix 0x0040 matB
  else return ()

def prepare (matA matB : Matrix) : OnEmulator Unit := do
  Loader.loadProgram ((buildIteration 0x1000 0x1040).flatMap wordBytes) 88
  loadMatrix 0x0000 matA
  loadMatrix 0x0040 matB
  copied (fun bytes => Loader.writeBytes 0x1000 bytes 64) matA
  copied (fun bytes => Loader.writeBytes 0x1040 bytes 64) matB

-- One iteration after its run. Of the lanes read back nothing is checked.
def score (r : Result) : OnEmulator Result := do
  let e ← Exec.get
  let sum ← Exec.ofOption .registerIndex (e.core.regs.readGpr 3)
  let _ ← Loader.readBytes 0x1000 64
  Exec.modify Emulator.reset
  return {r with
    totalCycles := r.totalCycles+e.core.profiler.cycleCount
    totalInstrs := r.totalInstrs+e.core.profiler.instrCount
    listOk := r.listOk && sum == 15
    crcOk := r.crcOk && e.core.regs.halt}

-- Where a call of `coremark::run` stands: before the first iteration, at the loop test,
-- inside `run` or `run_fast`, or at its end.
inductive Config where
  | start (e : Emulator) (iterations : Word)
  | iterate (e : Emulator) (i : Word) (r : Result)
  | slow (c : RunConfig) (cache : BlockCache) (i : Word) (r : Result)
  | fast (c : FastConfig) (i : Word) (r : Result)
  | done (e : Emulator) (r : Result)
  | thrown (err : EmulatorError) (e : Emulator)
  | undefined (why : Hazard)

def Config.of {α : Type} (continued : α → Emulator → Config) : Outcome EmulatorError Hazard Emulator α → Config
  | .ok a e => continued a e
  | .thrown err e => .thrown err e
  | .undefined why => .undefined why

def launch (useFast : Bool) (i : Word) (r : Result) (e : Emulator) : Config :=
  if useFast then .fast (.loop e) i r else .slow (.loop e.core) e.blockCache i r

def scored (i : Word) (r : Result) (e : Emulator) : Config := .of (fun r e => .iterate e (i+1) r) (score r e)

def next (h : Host) (useFast : Bool) (matA matB : Matrix) : Config → Option Config
  | .start e iterations => some (.of (fun _ e => .iterate e 0 ⟨iterations,0,0,true,true,true⟩) (preload matA matB e))
  | .iterate e i r =>
    some (if i < r.iterations then .of (fun _ e => launch useFast i r e) (prepare matA matB e) else .done e r)
  | .slow (.loop m) cache i r => (runNext h (.loop m)).map fun c => .slow c cache i r
  | .slow (.done m) cache i r => some (scored i r ⟨m,cache⟩)
  | .slow (.thrown err m) cache _ _ => some (.thrown err ⟨m,cache⟩)
  | .slow (.undefined why) _ _ _ => some (.undefined why)
  | .fast (.loop e) i r => (fastNext h (.loop e)).map fun c => .fast c i r
  | .fast (.block e blk k) i r => (fastNext h (.block e blk k)).map fun c => .fast c i r
  | .fast (.done e) i r => some (scored i r e)
  | .fast (.thrown err e) _ _ => some (.thrown err e)
  | .fast (.undefined why) _ _ => some (.undefined why)
  | .done _ _ | .thrown _ _ | .undefined _ => none

-- What the suite asks of the emulator it is given, and leaves it with.
structure Primed (e : Emulator) : Prop where
  plain : e.core.core.Plain
  bursts : e.core.core.Bursts
  running : e.core.regs.halt = false
  unwatched : e.core.debugger = .initial
  quiet : e.core.verbose = false
  pc : e.core.regs.pc = 0
  drained : e.core.axi.pending = []
  slots : 2 ≤ e.core.axi.cfg.maxOutstanding.toNat
  uncounted : e.core.profiler = .initial
  pad : 0x1080 ≤ e.core.scratchpad.size
  ram : 0x80 ≤ e.core.mainRam.size

def iterationCycles (t : TargetProfile) : Nat :=
  2*(profileCycleWeight t .dmaLoad 64).toNat+(profileCycleWeight t .vecAdd 0).toNat+(profileCycleWeight t .matmulTile 4).toNat+52

structure Listed (pad ram k : Nat) (s : Tile.Store) : Prop where
  turned : CountedLoop.Turned 5 k s.gpr
  pad : s.pad.size = pad
  ram : s.ram.size = ram

structure Summed (pad ram : Nat) (s : Tile.Store) : Prop where
  sum : s.gpr 3 = 15
  pad : s.pad.size = pad
  ram : s.ram.size = ram

section Program
variable {h : Host} {t : TargetProfile} {pad ram : Nat}

abbrev program : List Word := buildIteration 0x1000 0x1040

theorem prologue : Contract h t program 0 (fun s => s.pad.size = pad ∧ s.ram.size = ram) 4 4 0 4 (Listed pad ram 0) := by
  have whole : Contract h t program 0 _ 4 4 0 4 (Listed pad ram 0) :=
    @Contract.ops h t program 0 (Listed pad ram 0) [.movi 1 0,.movi 2 5,.movi 4 1,.movi 3 0] (program.drop 4) rfl
  refine whole.pre fun s sizes => ⟨⟨trivial,trivial,trivial,trivial,trivial⟩,?_⟩
  exact ⟨⟨rfl,rfl,rfl,rfl⟩,sizes.1,sizes.2⟩

theorem additions {Q : Tile.Store → Prop} : Contract h t program 4
    (fun s => Q ((s.assign 1 (s.gpr 1+s.gpr 4)).assign 3 ((s.assign 1 (s.gpr 1+s.gpr 4)).gpr 3+(s.assign 1 (s.gpr 1+s.gpr 4)).gpr 1)))
    2 2 0 6 Q :=
  (Contract.add (d := 1) (a := 1) (b := 4) rfl).seq
    (Contract.add (d := 3) (a := 3) (b := 1) rfl)

theorem Listed.next {k : Nat} {s : Tile.Store} (here : Listed pad ram k s) :
    Listed pad ram (k+1) ((s.assign 1 (s.gpr 1+s.gpr 4)).assign 3
      ((s.assign 1 (s.gpr 1+s.gpr 4)).gpr 3+(s.assign 1 (s.gpr 1+s.gpr 4)).gpr 1)) :=
  ⟨CountedLoop.turned here.turned,here.pad,here.ram⟩

theorem turn {k : Nat} (before : k+1 < 5) : Contract h t program 4 (Listed pad ram k) 3 5 0 4 (Listed pad ram (k+1)) := by
  have back : Contract h t program 6 _ 1 3 0 4 (Listed pad ram (k+1)) := Contract.bneTaken (a := 1) (b := 2) rfl (by decide)
  refine (additions.seq back).pre fun s here => ⟨?_,here.next⟩
  have next := here.next.turned
  have small : k < 4 := by omega
  rw [next.counter,next.limit]
  interval_cases k <;> decide

theorem lastTurn : Contract h t program 4 (Listed pad ram 4) 3 4 0 7 (Listed pad ram 5) := by
  have falls : Contract h t program 6 _ 1 2 0 7 (Listed pad ram 5) := Contract.bneFalls (a := 1) (b := 2) rfl
  refine (additions.seq falls).pre fun s here => ⟨?_,here.next⟩
  have next := here.next.turned
  rw [next.counter,next.limit]

theorem list : Contract h t program 0 (fun s => s.pad.size = pad ∧ s.ram.size = ram) 19 28 0 7 (Listed pad ram 5) :=
  prologue.seq ((turn (by decide)).seq ((turn (by decide)).seq ((turn (by decide)).seq ((turn (by decide)).seq lastTurn))))

def matrixOps : List Tile.Op :=
  [.movi 5 0x1000,.movi 6 0x1040,.movi 7 0,.movi 8 64,.dmaLoad 5 7 64,.dmaLoad 6 8 64,.loadVr 0 5 0,.loadVr 1 6 0,.vecAdd 2 0 1,
    .matmulTile 3 0 1 4,.storeVr 3 5 0,.movi 10 0x5A5A]

theorem matrix_price : 28+((matrixOps.map (Tile.Op.price t)).sum+(1+3)) = iterationCycles t := by
  simp [matrixOps,Tile.Op.price,iterationCycles]
  omega

theorem matrix : Contract h t program 7 (fun s => Listed pad ram 5 s ∧ 0x1080 ≤ pad ∧ 0x80 ≤ ram) 12 (matrixOps.map (Tile.Op.price t)).sum 2 19
    (Summed pad ram) := by
  have whole : Contract h t program 7 _ 12 (matrixOps.map (Tile.Op.price t)).sum 2 19 (Summed pad ram) :=
    @Contract.ops h t program 7 (Summed pad ram) matrixOps (program.drop 19) rfl
  refine whole.pre fun s here => ?_
  obtain ⟨⟨turned,padSize,ramSize⟩,padRoom,ramRoom⟩ := here
  refine ⟨?_,?_,padSize,ramSize⟩
  · subst padSize
    subst ramSize
    have length : program.length = 22 := rfl
    have lanes : vrByteSize = 64 := rfl
    simp [matrixOps,Tile.Safe,Tile.Op.Safe,Tile.Op.exec,length,lanes]
    omega
  · exact turned.sum

theorem checksum : Contract h t program 19 (Summed pad ram) 2 4 0 21 (Summed pad ram) := by
  have add : Contract h t program 19 _ 1 1 0 20 (fun s => Summed pad ram (s.assign 12 (s.gpr 11*s.gpr 3))) :=
    Contract.add (d := 11) (a := 10) (b := 3) rfl
  have mul : Contract h t program 20 _ 1 3 0 21 (Summed pad ram) :=
    Contract.mul (d := 12) (a := 11) (b := 3) rfl
  exact (add.seq mul).pre fun s here => ⟨here.sum,here.pad,here.ram⟩

theorem iteration (padRoom : 0x1080 ≤ pad) (ramRoom : 0x80 ≤ ram) : Contract h t program 0
    (fun s => s.pad.size = pad ∧ s.ram.size = ram) 33 (iterationCycles t) 2 21 (Summed pad ram) := by
  have second : Contract h t program 7 (Listed pad ram 5) 12 (matrixOps.map (Tile.Op.price t)).sum 2 19 (Summed pad ram) :=
    matrix.pre fun s here => ⟨here,padRoom,ramRoom⟩
  have whole := list.seq (second.seq (checksum (h := h) (t := t)))
  rw [matrix_price] at whole
  exact whole

end Program

section Iterations
variable {h : Host} {useFast : Bool} {a b : Fin vecWidth → Word} {e : Emulator} {i : Word} {r : Result}

def assembled (e : Emulator) : Emulator := (e.withPad (e.core.scratchpad.write 0 (program.flatMap wordBytes))).clearBlocks

def prepared (e : Emulator) (a b : Fin vecWidth → Word) : Emulator :=
  let left := (assembled e).withRam ((assembled e).core.mainRam.write 0 (vrBytes a))
  let right := left.withRam (left.core.mainRam.write 64 (vrBytes b))
  let first := right.withPad (right.core.scratchpad.write 4096 (vrBytes a))
  first.withPad (first.core.scratchpad.write 4160 (vrBytes b))

theorem text_length : (program.flatMap wordBytes).length = 88 := rfl

theorem program_loads (primed : Primed e) : Loader.loadProgram (program.flatMap wordBytes) 88 e = .ok () (assembled e) := by
  have pad := primed.pad
  have text : (88 : DWord).toNat ≤ min textSize e.core.scratchpad.size := by
    have large : textSize = 8388608 := rfl
    change 88 ≤ min textSize e.core.scratchpad.size
    omega
  obtain ⟨err,loaded⟩ := @loadProgram_exact e (program.flatMap wordBytes) 88 (by decide) text_length
  exact loaded.trans (if_pos text)

section Copies
variable (e : Emulator) {addr : Word} {start : Nat} (here : addr.toNat = start)
include here

theorem matrix_loads (lanes : Fin vecWidth → Word) (fits : start+64 ≤ e.core.mainRam.size) :
    loadMatrix addr (some lanes) e = .ok () (e.withRam (e.core.mainRam.write start (vrBytes lanes))) := by
  subst here
  exact (@loadMainRam_exact e addr (vrBytes lanes) 64 (by decide) (vrBytes_length lanes)).trans (if_pos fits)

theorem operand_written (lanes : Fin vecWidth → Word) (fits : start+64 ≤ e.core.scratchpad.size) :
    copied (fun bytes => Loader.writeBytes addr bytes 64) (some lanes) e =
      .ok () (e.withPad (e.core.scratchpad.write start (vrBytes lanes))) := by
  subst here
  exact (@writeBytes_exact e addr (vrBytes lanes) 64 (by decide) (vrBytes_length lanes)).trans (if_pos fits)

theorem loadMatrix_inside (mat : Matrix) (fits : start+64 ≤ e.core.mainRam.size) :
    ∃ ram, ram.size = e.core.mainRam.size ∧ loadMatrix addr mat e = .ok () (e.withRam ram) := by
  cases mat with
  | none => exact ⟨e.core.mainRam,rfl,rfl⟩
  | some lanes => exact ⟨e.core.mainRam.write start (vrBytes lanes),rfl,matrix_loads e here lanes fits⟩

theorem copied_null (fits : start+64 ≤ e.core.scratchpad.size) :
    copied (fun bytes => Loader.writeBytes addr bytes 64) none e = .undefined .outOfBounds := by
  subst here
  have inside : ¬e.core.scratchpad.size < addr.toNat+(64 : DWord).toNat := Nat.not_lt.mpr fits
  have copies : Loader.copy (.sramBounds addr 64) addr [] 64 e.core.scratchpad = .ok () (e.core.scratchpad.write addr.toNat []) := by
    have total := @sum_exact addr 64 (by decide)
    unfold Loader.copy Loader.checkBounds
    simp only [Exec.bind_apply,Exec.get_apply,Exec.ite_apply,total,if_neg inside,Exec.pure_apply,
      Exec.modify_apply]
    rfl
  have wrote : Loader.writeBytes addr [] 64 e = .ok () (e.withPad (e.core.scratchpad.write addr.toNat [])) := by
    unfold Loader.writeBytes Loader.onScratchpad Exec.within
    rw [show (64 : DWord).toNat = 64 from rfl,copies]
    rfl
  exact Exec.bind_ok wrote

end Copies

structure Rooms (e : Emulator) : Prop where
  left : 0+64 ≤ e.core.mainRam.size
  right : 64+64 ≤ e.core.mainRam.size
  first : 4096+64 ≤ e.core.scratchpad.size
  second : 4160+64 ≤ e.core.scratchpad.size

theorem Primed.rooms (primed : Primed e) : Rooms e :=
  ⟨by have := primed.ram; omega,primed.ram,by have := primed.pad; omega,primed.pad⟩

theorem prepare_exact (primed : Primed e) (a b : Fin vecWidth → Word) : prepare (some a) (some b) e = .ok () (prepared e a b) := by
  obtain ⟨left,right,first,second⟩ := primed.rooms
  have one := @matrix_loads (assembled e) 0x0000 0 rfl a left
  generalize loaded : (assembled e).withRam _ = e₁ at one
  have two := @matrix_loads e₁ 0x0040 64 rfl b (by rw [← loaded]; exact right)
  generalize filled : e₁.withRam _ = e₂ at two
  have three := @operand_written e₂ 0x1000 4096 rfl a (by rw [← filled,← loaded]; exact first)
  generalize copied : e₂.withPad _ = e₃ at three
  have four := @operand_written e₃ 0x1040 4160 rfl b (by rw [← copied,← filled,← loaded]; exact second)
  unfold prepare
  rw [Exec.bind_ok (program_loads primed),Exec.bind_ok one,Exec.bind_ok two,Exec.bind_ok three,four,← copied,← filled,← loaded]
  rfl

theorem prepared_ready (primed : Primed e) (a b : Fin vecWidth → Word) : Ready program 0 (prepared e a b).core.core := by
  have pad := primed.pad
  have length : program.length = 22 := rfl
  have devices : mmioBase.toNat = 66060288 := rfl
  have loaded : Loaded 0 program (e.core.scratchpad.write 0 (program.flatMap wordBytes)) :=
    ⟨by change 0+4*22 ≤ e.core.scratchpad.size; omega,by rw [length,devices]; omega,fun _ _ listed => word_written _ 0 listed⟩
  have operands := (@Loaded.write 0 4096 _ _ loaded (by rw [length]; omega) (vrBytes a)).write
    (show 0+4*program.length ≤ 4160 by rw [length]; omega) (vrBytes b)
  exact ⟨⟨primed.plain.1,primed.plain.2⟩,primed.bursts,primed.running,primed.unwatched,primed.quiet,operands,
    by change 4*22+128 ≤ e.core.scratchpad.size; omega,primed.pc⟩

abbrev Ran (e e' : Emulator) : Prop :=
  Worked 34 (iterationCycles e.core.target) (Summed e.core.scratchpad.size e.core.mainRam.size) e.core e'.core

theorem next_fast {matA matB : Matrix} {c d : FastConfig} (step : fastNext h c = some d) :
    next h useFast matA matB (.fast c i r) = some (.fast d i r) := by
  cases c with
  | loop => exact congrArg (Option.map fun c => Config.fast c i r) step
  | block => exact congrArg (Option.map fun c => Config.fast c i r) step
  | done => cases step
  | thrown => cases step
  | undefined => cases step

theorem next_slow {matA matB : Matrix} {c d : RunConfig} {cache : BlockCache} (step : runNext h c = some d) :
    next h useFast matA matB (.slow c cache i r) = some (.slow d cache i r) := by
  cases c with
  | loop => exact congrArg (Option.map fun c => Config.slow c cache i r) step
  | done => cases step
  | thrown => cases step
  | undefined => cases step

theorem launches (primed : Primed e) (matA matB : Matrix) : ∃ e', Ran (prepared e a b) e' ∧
    Reaches (next h useFast matA matB) (launch useFast i r (prepared e a b)) (scored i r e') := by
  have faithful : Faithful program (prepared e a b).blockCache := by
    intro pc blk found
    cases found
  have room : (prepared e a b).core.axi.pending.length+2 ≤ (prepared e a b).core.axi.cfg.maxOutstanding.toNat := by
    change e.core.axi.pending.length+2 ≤ _
    rw [primed.drained]
    exact primed.slots
  obtain ⟨⟨m,ran,worked⟩,e',replayed,same⟩ := (iteration (h := h) primed.pad primed.ram).halts rfl (prepared e a b) (prepared_ready primed a b)
    faithful rfl ⟨rfl,rfl⟩ room
  cases useFast with
  | true =>
    have inside : Reaches (next h true matA matB) (.fast (.loop (prepared e a b)) i r) (.fast (.done e') i r) :=
      reaches_within (f := fun c => Config.fast c i r) (fun _ _ => next_fast) replayed
    exact ⟨e',same,inside.tail rfl⟩
  | false =>
    have inside : Reaches (next h false matA matB) (.slow (.loop (prepared e a b).core) .empty i r) (.slow (.done m) .empty i r) :=
      reaches_within (f := fun c => Config.slow c .empty i r) (fun _ _ => next_slow) ran
    exact ⟨⟨m,.empty⟩,worked,inside.tail rfl⟩

def tally (t : TargetProfile) (iterations : Word) (k : Nat) : Result :=
  ⟨iterations,BitVec.ofNat 64 (k*iterationCycles t),BitVec.ofNat 64 (k*34),true,true,true⟩

theorem readBytes_inside {addr : Word} {count : DWord} (small : count.toNat < 2^35) (fits : addr.toNat+count.toNat ≤ e.core.scratchpad.size) :
    Loader.readBytes addr count e = .ok (e.core.scratchpad.read addr.toNat count.toNat) e := by
  unfold Loader.readBytes Loader.onScratchpad Exec.within Loader.checkBounds
  simp only [Exec.bind_apply,Exec.get_apply,Exec.ite_apply,sum_exact small,if_neg (Nat.not_lt.mpr fits),Exec.pure_apply]

theorem score_exact {e' : Emulator} {iterations : Word} {k : Nat} (primed : Primed e) (ran : Ran (prepared e a b) e') :
    score (tally e.core.target iterations k) e' = .ok (tally e.core.target iterations (k+1)) e'.reset := by
  have sum : (Exec.ofOption .registerIndex (e'.core.regs.readGpr 3) : OnEmulator Word) e' = .ok 15 e' := by
    have held : e'.core.regs.readGpr 3 = some 15 := (e'.core.regs.readGpr_get 3).trans (congrArg some ran.store.sum)
    rw [held]
    rfl
  have pad : e'.core.scratchpad.size = e.core.scratchpad.size := ran.store.pad
  have room := primed.pad
  have cycles : e'.core.profiler.cycleCount = BitVec.ofNat 64 (iterationCycles e.core.target) := by
    have billed := ran.billed.cycles
    change _ = e.core.profiler.cycleCount+_ at billed
    rw [billed,primed.uncounted]
    exact BitVec.zero_add _
  have instructions : e'.core.profiler.instrCount = BitVec.ofNat 64 34 := by
    have billed := ran.billed.instructions
    change _ = e.core.profiler.instrCount+_ at billed
    rw [billed,primed.uncounted]
    exact BitVec.zero_add _
  have back : Loader.readBytes 0x1000 64 e' = .ok (e'.core.scratchpad.read 4096 64) e' :=
    readBytes_inside (by decide) (by rw [pad]; change 4096+64 ≤ _; omega)
  unfold score
  simp only [Exec.bind_apply,Exec.get_apply,sum,Exec.pure_apply,back,Exec.modify_apply,ran.halted,cycles,instructions]
  simp only [tally,Nat.succ_mul,BitVec.ofNat_add]
  rfl

theorem Ran.primed {e' : Emulator} (primed : Primed e) (ran : Ran (prepared e a b) e') :
    Primed e'.reset ∧ e'.reset.core.target = e.core.target := by
  have fabric : e'.core.axi.cfg = e.core.axi.cfg := ran.fabric
  have pad : e'.core.scratchpad.size = e.core.scratchpad.size := ran.store.pad
  have ram : e'.core.mainRam.size = e.core.mainRam.size := ran.store.ram
  refine ⟨⟨⟨rfl,.inl initial_masked⟩,?_,rfl,rfl,rfl,rfl,rfl,?_,rfl,?_,?_⟩,ran.target⟩
  · change e'.core.axi.cfg.dataWidth*e'.core.axi.cfg.burstLen ≠ 0
    rw [fabric]
    exact primed.bursts
  · change 2 ≤ e'.core.axi.cfg.maxOutstanding.toNat
    rw [fabric]
    exact primed.slots
  · change 0x1080 ≤ e'.core.scratchpad.size
    rw [pad]
    exact primed.pad
  · change 0x80 ≤ e'.core.mainRam.size
    rw [ram]
    exact primed.ram

-- The induction is on the iterations to come.
theorem iterates {iterations : Word} (left : Nat) : ∀ e k, Primed e → k+left = iterations.toNat → ∃ e',
    Reaches (next h useFast (some a) (some b)) (.iterate e (BitVec.ofNat 32 k) (tally e.core.target iterations k))
      (.done e' (tally e.core.target iterations iterations.toNat)) ∧ Primed e' ∧ e'.core.target = e.core.target := by
  induction left with
  | zero =>
    intro e k primed total
    have last : k = iterations.toNat := total
    subst last
    have ends : next h useFast (some a) (some b) (.iterate e (BitVec.ofNat 32 iterations.toNat) (tally e.core.target iterations iterations.toNat)) =
        some (.done e (tally e.core.target iterations iterations.toNat)) := by
      simp [next,tally]
    exact ⟨e,.single ends,primed,rfl⟩
  | succ left ih =>
    intro e k primed total
    have width := iterations.isLt
    have before : BitVec.ofNat 32 k < iterations := by
      rw [BitVec.lt_def,BitVec.toNat_ofNat]
      omega
    have enters : next h useFast (some a) (some b) (.iterate e (BitVec.ofNat 32 k) (tally e.core.target iterations k)) =
        some (launch useFast (BitVec.ofNat 32 k) (tally e.core.target iterations k) (prepared e a b)) := by
      simp only [next,tally,if_pos before,prepare_exact primed a b,Config.of]
    obtain ⟨e₁,ran,launched⟩ := @launches h useFast a b e (BitVec.ofNat 32 k) (tally e.core.target iterations k) primed (some a) (some b)
    obtain ⟨again,target⟩ := ran.primed primed
    have turn : scored (BitVec.ofNat 32 k) (tally e.core.target iterations k) e₁ =
        .iterate e₁.reset (BitVec.ofNat 32 (k+1)) (tally e.core.target iterations (k+1)) := by
      have counted := @score_exact a b e e₁ iterations k primed ran
      unfold scored
      rw [counted,BitVec.ofNat_add]
      rfl
    obtain ⟨e',rest,ends,same⟩ := ih e₁.reset (k+1) again (by omega)
    rw [target] at rest same
    rw [turn] at launched
    exact ⟨e',.head enters (launched.trans rest),ends,same⟩

theorem nothing {matA matB : Matrix} (e : Emulator) :
    next h useFast matA matB (.iterate e 0 (tally e.core.target 0 0)) = some (.done e (tally e.core.target 0 0)) := by
  simp [next,tally]

theorem prepare_missing {matA matB : Matrix} (primed : Primed e) (missing : ¬(matA.isSome ∧ matB.isSome)) :
    prepare matA matB e = .undefined .outOfBounds := by
  obtain ⟨left,right,first,second⟩ := primed.rooms
  obtain ⟨ramA,sizeA,loadedA⟩ := @loadMatrix_inside (assembled e) 0x0000 0 rfl matA left
  obtain ⟨ramB,_,loadedB⟩ := @loadMatrix_inside ((assembled e).withRam ramA) 0x0040 64 rfl matB (sizeA ▸ right)
  unfold prepare
  rw [Exec.bind_ok (program_loads primed),Exec.bind_ok loadedA,Exec.bind_ok loadedB]
  cases matA with
  | none => rw [Exec.bind_apply,@copied_null (((assembled e).withRam ramA).withRam ramB) 0x1000 4096 rfl first]
  | some a =>
    have absent : matB = none := Option.not_isSome_iff_eq_none.mp fun present => missing ⟨rfl,present⟩
    subst absent
    rw [Exec.bind_ok (@operand_written (((assembled e).withRam ramA).withRam ramB) 0x1000 4096 rfl a first)]
    exact @copied_null _ 0x1040 4160 rfl second

theorem preloads {matA matB : Matrix} {iterations : Word} (primed : Primed e) : ∃ e', Primed e' ∧ e'.core.target = e.core.target ∧
    next h useFast matA matB (.start e iterations) = some (.iterate e' 0 (tally e'.core.target iterations 0)) := by
  have room := primed.ram
  have none_counted : ∀ t, (⟨iterations,0,0,true,true,true⟩ : Result) = tally t iterations 0 := by
    intro t
    simp [tally]
  by_cases both : (matA.isSome && matB.isSome) = true
  · obtain ⟨ramA,sizeA,loadedA⟩ := @loadMatrix_inside e 0x0000 0 rfl matA primed.rooms.left
    obtain ⟨ramB,sizeB,loadedB⟩ := @loadMatrix_inside (e.withRam ramA) 0x0040 64 rfl matB (sizeA ▸ primed.rooms.right)
    have size : ramB.size = e.core.mainRam.size := sizeB.trans sizeA
    have filled : Primed ((e.withRam ramA).withRam ramB) :=
      ⟨⟨primed.plain.1,primed.plain.2⟩,primed.bursts,primed.running,primed.unwatched,primed.quiet,primed.pc,primed.drained,
        primed.slots,primed.uncounted,primed.pad,by change 0x80 ≤ ramB.size; omega⟩
    refine ⟨_,filled,rfl,?_⟩
    simp only [next,preload,if_pos both,Exec.bind_ok loadedA,loadedB,Config.of,none_counted e.core.target]
    rfl
  · refine ⟨e,primed,rfl,?_⟩
    simp only [next,preload,if_neg both,Exec.pure_apply,Config.of,none_counted e.core.target]

end Iterations

end CoreMark

-- With both matrices a call returns the score, the same from both loops and for every content,
-- and leaves the emulator ready for another; without one it copies from a null pointer.
theorem coremark_scores (h : Host) (useFast : Bool) (matA matB : CoreMark.Matrix) (e : Emulator) (iterations : Word)
    (primed : CoreMark.Primed e) :
    (iterations = 0 ∨ matA.isSome ∧ matB.isSome → ∃ e', Reaches (CoreMark.next h useFast matA matB) (.start e iterations)
      (.done e' ⟨iterations,BitVec.ofNat 64 (iterations.toNat*CoreMark.iterationCycles e.core.target),
        BitVec.ofNat 64 (iterations.toNat*34),true,true,true⟩) ∧ CoreMark.Primed e' ∧ e'.core.target = e.core.target) ∧
    (¬(iterations = 0 ∨ matA.isSome ∧ matB.isSome) →
      Reaches (CoreMark.next h useFast matA matB) (.start e iterations) (.undefined .outOfBounds)) := by
  obtain ⟨e₁,again,target,started⟩ := @CoreMark.preloads h useFast e matA matB iterations primed
  refine ⟨?_,?_⟩
  · intro runs
    rw [← target]
    by_cases zero : iterations = 0
    · subst zero
      refine ⟨e₁,.head started (.single (CoreMark.nothing e₁)),again,rfl⟩
    · obtain ⟨left,right⟩ := runs.resolve_left zero
      obtain ⟨a,rfl⟩ := Option.isSome_iff_exists.mp left
      obtain ⟨b,rfl⟩ := Option.isSome_iff_exists.mp right
      obtain ⟨e',rest,ends,same⟩ := @CoreMark.iterates h useFast a b iterations iterations.toNat e₁ 0 again (Nat.zero_add _)
      exact ⟨e',.head started rest,ends,same⟩
  · intro stops
    obtain ⟨nonzero,missing⟩ := not_or.mp stops
    have enters : CoreMark.next h useFast matA matB (.iterate e₁ 0 (CoreMark.tally e₁.core.target iterations 0)) = some (.undefined .outOfBounds) := by
      have before : (0 : Word) < iterations := BitVec.lt_def.mpr (BitVec.toNat_pos_of_ne_zero nonzero)
      simp only [CoreMark.next,CoreMark.tally,if_pos before,CoreMark.prepare_missing again missing,CoreMark.Config.of]
    exact .head started (.single enters)

-- A hundred iterations on a small CPU core.
theorem coremark_scores_hundred : ∃ e', Reaches (CoreMark.next (.ieee .avx2) true (some fun _ => 0x3F800000) (some fun _ => 0x3F800000))
    (.start ((Emulator.initial 8192 256).setTarget makeCpuProfile) 100) (.done e' ⟨100,8400,3400,true,true,true⟩) := by
  have primed : CoreMark.Primed ((Emulator.initial 8192 256).setTarget makeCpuProfile) :=
    ⟨⟨rfl,.inl initial_masked⟩,show (64 : Word)*16 ≠ 0 by decide,rfl,rfl,rfl,rfl,rfl,by decide,rfl,by decide,by decide⟩
  obtain ⟨e',ran,_⟩ := (coremark_scores (.ieee .avx2) true (some fun _ => 0x3F800000) (some fun _ => 0x3F800000) _ 100 primed).1 (.inr ⟨rfl,rfl⟩)
  exact ⟨e',ran⟩

end Novium
