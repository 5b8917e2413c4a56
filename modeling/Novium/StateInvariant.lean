import Mathlib.Algebra.Order.BigOperators.Group.List
import Novium.Accounting
import Novium.Coherence
import Novium.Lockstep
import Novium.Reset
import Novium.SaveRestore

namespace Novium
open Storage Effects StateTransition Relation
variable {h : Host} {m m' : Machine} {i : Instruction}

namespace Profiler

def histTotal (p : Profiler) : Nat := ((List.range 64).map fun k => (p.opcodeHist (BitVec.ofNat 6 k)).toNat).sum

structure Consistent (p : Profiler) : Prop where
  hist : p.histTotal = p.instrCount.toNat
  dma : p.dmaCycleCount ≤ p.cycleCount

-- No counter went round: an instruction adds far less than 2^64 to either, so going
-- round shows as getting smaller.
structure Unwrapped (p p' : Profiler) : Prop where
  instr : p.instrCount ≤ p'.instrCount
  cycles : p.cycleCount ≤ p'.cycleCount

theorem hist_le_total (p : Profiler) (b : BitVec 6) : (p.opcodeHist b).toNat ≤ p.histTotal := by
  have listed : (p.opcodeHist b).toNat ∈ (List.range 64).map fun k => (p.opcodeHist (BitVec.ofNat 6 k)).toNat :=
    List.mem_map.mpr ⟨b.toNat,List.mem_range.mpr b.isLt,by simp⟩
  exact List.le_sum_of_mem listed

theorem histTotal_record {p : Profiler} (op : Opcode) (cycles : Word) (bytes : DWord) (room : p.histTotal+1 < 2^64) :
    (p.record op cycles bytes).histTotal = p.histTotal+1 := by
  have bound := p.hist_le_total op.bits
  have entry : ∀ k ∈ List.range 64, ((p.record op cycles bytes).opcodeHist (BitVec.ofNat 6 k)).toNat =
      Function.update (fun k => (p.opcodeHist (BitVec.ofNat 6 k)).toNat) op.bits.toNat
        ((p.opcodeHist (BitVec.ofNat 6 op.bits.toNat)).toNat+1) k := by
    intro k inside
    rw [record_opcodeHist,BitVec.ofNat_toNat,BitVec.setWidth_eq]
    by_cases same : k = op.bits.toNat
    · have slot : BitVec.ofNat 6 k = op.bits := by rw [same,BitVec.ofNat_toNat,BitVec.setWidth_eq]
      rw [slot,Function.update_self,same,Function.update_self,BitVec.toNat_add]
      exact Nat.mod_eq_of_lt (by change (p.opcodeHist op.bits).toNat+1 < 2^64; omega)
    · have slot : BitVec.ofNat 6 k ≠ op.bits := by
        intro equal
        apply same
        rw [← equal,BitVec.toNat_ofNat]
        exact (Nat.mod_eq_of_lt (List.mem_range.mp inside)).symm
      rw [Function.update_of_ne slot,Function.update_of_ne same]
  have once : (List.range 64).count op.bits.toNat = 1 := by cases op <;> rfl
  unfold histTotal
  rw [List.map_congr_left entry,Tally.sum_map_raised (fun k => (p.opcodeHist (BitVec.ofNat 6 k)).toNat),once]

theorem Consistent.record {p : Profiler} (consistent : p.Consistent) (op : Opcode) (cycles : Word) (bytes : DWord)
    (instr : p.instrCount.toNat+1 < 2^64) (time : p.cycleCount.toNat+cycles.toNat < 2^64) :
    (p.record op cycles bytes).Consistent := by
  have instrs : (p.record op cycles bytes).instrCount.toNat = p.instrCount.toNat+1 := by
    rw [record_instrCount]
    exact BitVec.toNat_add_of_lt instr
  have spent : (cycles.zeroExtend 64).toNat = cycles.toNat := by
    rw [BitVec.toNat_setWidth]
    exact Nat.mod_eq_of_lt (by have := cycles.isLt; omega)
  have added : ∀ v : DWord, v ≤ p.cycleCount → (v+cycles.zeroExtend 64).toNat = v.toNat+cycles.toNat := by
    intro v least
    have below : v.toNat ≤ p.cycleCount.toNat := least
    rw [BitVec.toNat_add,spent]
    exact Nat.mod_eq_of_lt (by omega)
  refine ⟨?_,?_⟩
  · rw [histTotal_record _ _ _ (by rw [consistent.hist]; exact instr),instrs,consistent.hist]
  · have before : p.dmaCycleCount.toNat ≤ p.cycleCount.toNat := consistent.dma
    rw [record_cycleCount,BitVec.le_def,added _ (BitVec.le_refl _)]
    unfold Profiler.record
    dsimp only
    split
    · rw [added _ consistent.dma]
      omega
    · change p.dmaCycleCount.toNat ≤ _
      omega

-- What one instruction can do to the counters: nothing, its own record, or the stall's
-- record and then its own.
inductive Recorded (p : Profiler) : Profiler → Prop where
  | none : Recorded p p
  | one (op : Opcode) (cycles : Word) (bytes : DWord) : Recorded p (p.record op cycles bytes)
  | two (op : Opcode) (cycles : Word) (bytes : DWord) : Recorded p ((p.record .dmaLoad 1 0).record op cycles bytes)

theorem Consistent.recorded {p p' : Profiler} (consistent : p.Consistent) (recorded : Recorded p p')
    (unwrapped : Unwrapped p p') : p'.Consistent := by
  have width : ∀ cycles : Word, (cycles.zeroExtend 64).toNat = cycles.toNat := by
    intro cycles
    rw [BitVec.toNat_setWidth]
    exact Nat.mod_eq_of_lt (by have := cycles.isLt; omega)
  have one : (1 : DWord).toNat = 1 := rfl
  have stall : (BitVec.zeroExtend 64 (1 : Word)).toNat = 1 := rfl
  have instr : p.instrCount.toNat ≤ p'.instrCount.toNat := unwrapped.instr
  have time : p.cycleCount.toNat ≤ p'.cycleCount.toNat := unwrapped.cycles
  cases recorded with
  | none => exact consistent
  | one op cycles bytes =>
    have small := cycles.isLt
    rw [record_instrCount,BitVec.toNat_add,one] at instr
    rw [record_cycleCount,BitVec.toNat_add,width] at time
    exact consistent.record op cycles bytes (by omega) (by omega)
  | two op cycles bytes =>
    have small := cycles.isLt
    rw [record_instrCount,record_instrCount,BitVec.toNat_add,BitVec.toNat_add,one] at instr
    rw [record_cycleCount,record_cycleCount,BitVec.toNat_add,BitVec.toNat_add,width,width] at time
    change p.cycleCount.toNat ≤ ((p.cycleCount.toNat+1) % 2^64+cycles.toNat) % 2^64 at time
    have first := consistent.record .dmaLoad 1 0 (by omega) (by change p.cycleCount.toNat+1 < 2^64; omega)
    apply first.record
    · rw [record_instrCount,BitVec.toNat_add,one]
      omega
    · rw [record_cycleCount,BitVec.toNat_add,stall]
      omega

end Profiler

theorem tickPeripherals_drained (m : Machine) : m.tickPeripherals.tickAccum < cyclesPerTick := by
  induction left : m.tickAccum.toNat using Nat.strong_induction_on generalizing m with
  | _ left ih =>
    by_cases small : m.tickAccum < cyclesPerTick
    · rw [m.tickPeripherals_done small]
      exact small
    · have enough : cyclesPerTick ≤ m.tickAccum := BitVec.not_lt.mp small
      have least : cyclesPerTick.toNat ≤ m.tickAccum.toNat := enough
      have rest : m.tickOnce.tickAccum.toNat = m.tickAccum.toNat-cyclesPerTick.toNat := BitVec.toNat_sub_of_le enough
      have tick : cyclesPerTick.toNat = 1000 := rfl
      rw [m.tickPeripherals_more enough]
      exact ih _ (by omega) m.tickOnce rest

-- The counters and the accumulator after a step, or after a replayed instruction.
structure Accrued (m m' : Machine) : Prop where
  profiler : m.profiler.Recorded m'.profiler
  tickAccum : m.tickAccum < cyclesPerTick → m'.tickAccum < cyclesPerTick

theorem accrued_of_books (profiler : m'.profiler = m.profiler) (accum : m'.tickAccum = m.tickAccum) : Accrued m m' := by
  refine ⟨?_,?_⟩
  · rw [profiler]
    exact .none
  · rw [accum]
    exact fun small => small

-- Ticking and logging come after the instruction and record nothing.
theorem execute_accrued {cycles : Word} (ran : execute h i m = .ok cycles m') : Accrued m m'.tickPeripherals := by
  have charged := execute_charged ran
  have profiler : m'.tickPeripherals.profiler = m'.profiler := Machine.tickPeripherals_keeps Machine.profiler (fun _ => rfl) m'
  refine ⟨?_,fun _ => tickPeripherals_drained m'⟩
  rw [profiler]
  cases opcode : i.opcode with
  | none =>
    rw [(charged.illegal opcode).2]
    exact .none
  | some op =>
    rw [(charged.handled op opcode).2]
    unfold Machine.stallRecord
    split
    · exact .two op cycles _
    · exact .one op cycles _

theorem execute_thrown_accrued {err : EmulatorError} (threw : execute h i m = .thrown err m') : Accrued m m' := by
  have frame := execute_frame h i m
  rw [threw] at frame
  exact accrued_of_books frame.profiler frame.tickAccum

theorem Accrued.within {n n' : Machine} (accrued : Accrued m m') (before : m.profiler = n.profiler ∧ m.tickAccum = n.tickAccum)
    (after : n'.profiler = m'.profiler ∧ n'.tickAccum = m'.tickAccum) : Accrued n n' := by
  obtain ⟨profiler,accum⟩ := accrued
  rw [before.1,← after.1] at profiler
  rw [before.2,← after.2] at accum
  exact ⟨profiler,accum⟩

theorem books_fetching (m : Machine) : (saveBefore m.deliverInterrupt).books = m.books :=
  (Machine.saveBefore_keeps Machine.books (fun _ _ _ => rfl) _).trans (Machine.deliverInterrupt_keeps Machine.books (fun _ _ _ _ => rfl) m)

theorem books_fetched {pre : Machine} (fetched : fetch (saveBefore m.deliverInterrupt) = .ok i pre) :
    pre.profiler = m.profiler ∧ pre.tickAccum = m.tickAccum :=
  Prod.mk.inj (fetched_keeps Machine.books (fun _ _ _ _ _ _ _ _ => rfl) fetched)

theorem Stepped.accrued (stepped : Stepped h m m') : Accrued m m' := by
  rcases stepped.cases with rfl | ran | stopped
  · exact accrued_of_books rfl rfl
  · cases ran with
    | ran fetched executed =>
      exact (execute_accrued executed).within (books_fetched fetched) ⟨Machine.logStep_keeps Machine.profiler (fun _ _ => rfl) ..,
        Machine.logStep_keeps Machine.tickAccum (fun _ _ => rfl) ..⟩
  · cases stopped with
    | fetch => exact accrued_of_books (congrArg Prod.fst (books_fetching m)) (congrArg Prod.snd (books_fetching m))
    | execute fetched threw => exact (execute_thrown_accrued threw).within (books_fetched fetched) ⟨rfl,rfl⟩

-- The fabric never holds more than it was configured for.
def AxiBounded (x : Interconnect) : Prop := x.pending.length ≤ x.cfg.maxOutstanding.toNat

theorem AxiBounded.issue {x x' : Interconnect} {t : Transaction} {cycle : DWord} {accepted : Bool} (bounded : AxiBounded x)
    (issued : x.issue t cycle = some (x',accepted)) : AxiBounded x' := by
  unfold Interconnect.issue at issued
  split at issued
  · cases issued
    exact bounded
  · rename_i room
    dsimp only at issued
    split at issued
    · cases issued
    · cases issued
      change (x.pending++[_]).length ≤ x.cfg.maxOutstanding.toNat
      rw [List.length_append,List.length_singleton]
      omega

theorem AxiBounded.tick {x : Interconnect} (bounded : AxiBounded x) (cycles : DWord) : AxiBounded (x.tick cycles) := by
  unfold AxiBounded Interconnect.tick
  dsimp only
  rw [List.length_drop]
  exact Nat.le_trans (Nat.sub_le _ _) bounded

theorem AxiBounded.kept : Kept (fun _ => True) fun x _ => AxiBounded x :=
  ⟨AxiBounded.issue,AxiBounded.tick,fun _ bounded _ _ _ => bounded⟩

section Machines
open Profiler

structure Machine.Sound (m : Machine) : Prop where
  zero : m.regs.gpr 0 = 0
  tickAccum : m.tickAccum < cyclesPerTick
  profiler : m.profiler.Consistent
  axi : AxiBounded m.axi

theorem Profiler.initial_consistent : Profiler.initial.Consistent := ⟨by decide,by decide⟩

theorem idle_tick : (0 : DWord) < cyclesPerTick := by decide

theorem Machine.initial_sound (scratchpadBytes mainRamBytes : Nat) : (Machine.initial scratchpadBytes mainRamBytes).Sound :=
  ⟨rfl,idle_tick,Profiler.initial_consistent,Nat.zero_le _⟩

theorem Machine.reset_sound (m : Machine) : m.reset.Sound :=
  ⟨rfl,idle_tick,Profiler.initial_consistent,Nat.zero_le _⟩

theorem Stepped.bounded (stepped : Stepped h m m') (bounded : AxiBounded m.axi) : AxiBounded m'.axi := by
  have kept := kept_of_agree ((Keeping.lockstep AxiBounded.kept).step h (.same bounded) (fun _ _ _ => trivial) fun _ _ _ => trivial)
  cases stepped with
  | returned ran =>
    rw [ran] at kept
    exact kept
  | thrown threw =>
    rw [threw] at kept
    exact kept

theorem Stepped.sound (stepped : Stepped h m m') (sound : m.Sound) (unwrapped : Unwrapped m.profiler m'.profiler) : m'.Sound :=
  ⟨stepped.lasts.zero sound.zero,stepped.accrued.tickAccum sound.tickAccum,
    sound.profiler.recorded stepped.accrued.profiler unwrapped,stepped.bounded sound.axi⟩

-- The same for one instruction replayed from a block.
theorem replay_sound (sound : m.Sound) : (replay h i m).Sat (fun _ m' => Unwrapped m.profiler m'.profiler → m'.Sound)
    (fun _ m' => Unwrapped m.profiler m'.profiler → m'.Sound) (fun _ => True) := by
  have zero := replay_zero (h := h) (i := i) sound.zero
  have bounded := kept_of_agree ((Keeping.lockstep AxiBounded.kept).replay (i := i) h (.same sound.axi) (fun _ _ => trivial) fun _ _ => trivial)
  have accrued : (replay h i m).Sat (fun _ m' => Accrued m m') (fun _ m' => Accrued m m') (fun _ => True) := by
    simp only [replay,Exec.sat_bind,Exec.modify_apply,Outcome.sat_ok]
    cases ran : execute h i m.advancePc with
    | ok cycles after => exact (execute_accrued ran).within ⟨rfl,rfl⟩ ⟨rfl,rfl⟩
    | thrown err after => exact (execute_thrown_accrued ran).within ⟨rfl,rfl⟩ ⟨rfl,rfl⟩
    | undefined why => trivial
  cases ran : replay h i m with
  | undefined why => trivial
  | ok u m' =>
    rw [ran] at zero bounded accrued
    intro unwrapped
    exact ⟨zero,accrued.tickAccum sound.tickAccum,sound.profiler.recorded accrued.profiler unwrapped,bounded⟩
  | thrown err m' =>
    rw [ran] at zero bounded accrued
    intro unwrapped
    exact ⟨zero,accrued.tickAccum sound.tickAccum,sound.profiler.recorded accrued.profiler unwrapped,bounded⟩

end Machines

-- Every cached block holds words and ends where they end.
def BlockCache.Shaped (c : BlockCache) : Prop := ∀ pc blk, c.map pc = some blk →
  blk.ops ≠ [] ∧ blk.endPc = blk.startPc+BitVec.ofNat 32 (4*blk.ops.length)

theorem BlockCache.empty_shaped : BlockCache.empty.Shaped := by
  intro pc blk impossible
  cases impossible

theorem BlockCache.Shaped.translate {c : BlockCache} (shaped : c.Shaped) (mem : ByteStore) (pc : Word) :
    (c.translate mem pc).2.Shaped := by
  unfold BlockCache.translate
  split
  · exact shaped
  · split
    · exact shaped
    · rename_i blk fresh
      intro key stored found
      by_cases same : key = pc
      · subst same
        simp only [BlockCache.insert,Function.update_self] at found
        cases found
        obtain ⟨ins,first⟩ := freshBlock_nonempty fresh
        refine ⟨?_,freshBlock_end fresh⟩
        intro none
        rw [none] at first
        cases first
      · simp only [BlockCache.insert,Function.update_of_ne same] at found
        exact shaped key stored found

structure Emulator.Sound (e : Emulator) : Prop where
  core : e.core.Sound
  blocks : e.blockCache.Shaped

-- A saved state is as good as the machine it was taken from, but for r0, which the
-- restore sets to zero itself.
structure State.Sound (s : State) : Prop where
  tickAccum : s.tickAccum < cyclesPerTick
  profiler : s.profiler.Consistent

theorem Machine.Sound.restore {s : State} (sound : m.Sound) (saved : s.Sound) : (m.restoreState s).Sound :=
  ⟨by simp [Machine.restoreState],saved.tickAccum,saved.profiler,sound.axi⟩

theorem Emulator.Sound.load {e e' : Emulator} {l : Load} (sound : e.Sound) (loaded : e.load l = .ok e') : e'.Sound := by
  obtain ⟨⟨zero,tickAccum,profiler,axi⟩,blocks⟩ := sound
  cases l with
  | program bytes =>
    unfold Emulator.load Emulator.loadProgram at loaded
    dsimp only at loaded
    split at loaded
    · cases loaded
    · split at loaded
      · cases loaded
      · cases loaded
        exact ⟨⟨zero,tickAccum,profiler,axi⟩,BlockCache.empty_shaped⟩
  | data addr bytes =>
    unfold Emulator.load Emulator.loadData at loaded
    dsimp only at loaded
    split at loaded
    · cases loaded
    · cases loaded
      exact ⟨⟨zero,tickAccum,profiler,axi⟩,blocks⟩
  | tensor addr lanes =>
    unfold Emulator.load Emulator.loadTensor Emulator.loadData at loaded
    dsimp only at loaded
    split at loaded
    · cases loaded
    · cases loaded
      exact ⟨⟨zero,tickAccum,profiler,axi⟩,blocks⟩
  | mainRam addr bytes =>
    unfold Emulator.load Emulator.loadMainRam at loaded
    dsimp only at loaded
    split at loaded
    · cases loaded
      exact ⟨⟨zero,tickAccum,profiler,axi⟩,blocks⟩
    · cases loaded

-- An emulator in use, with the states its host has saved from it so far.
structure Session where
  activity : Activity
  saved : List State

-- No counter goes round in a move of a run.
def Unbroken (c d : Activity) : Prop := ∀ e e', c.emulator = some e → d.emulator = some e' →
  Profiler.Unwrapped e.core.profiler e'.core.profiler

-- The calls of the host, each with both of its ends where it can throw.
inductive Uses (h : Host) : Session → Session → Prop where
  | load : e.load l = .ok e' → Uses h ⟨.idle e,saved⟩ ⟨.idle e',saved⟩
  | loadThrown : e.load l = .error err → Uses h ⟨.idle e,saved⟩ ⟨.idle e,saved⟩
  | setTarget (p : TargetProfile) : Uses h ⟨.idle e,saved⟩ ⟨.idle (e.setTarget p),saved⟩
  | setAcceleration (on : Bool) :
      Uses h ⟨.idle e,saved⟩ ⟨.idle {e with core := {e.core with accel := on}},saved⟩
  | reset : Uses h ⟨.idle e,saved⟩ ⟨.idle e.reset,saved⟩
  | saveState : Uses h ⟨.idle e,saved⟩ ⟨.idle e,e.core.saveState :: saved⟩
  | restoreState : s ∈ saved → Uses h ⟨.idle e,saved⟩ ⟨.idle {e with core := e.core.restoreState s},saved⟩
  | step : Stepped h e.core core → Unbroken (.idle e) (.idle {e with core := core}) →
      Uses h ⟨.idle e,saved⟩ ⟨.idle {e with core := core},saved⟩
  | run : Uses h ⟨.idle e,saved⟩ ⟨.running (.loop e.core) e.blockCache,saved⟩
  | runNext : runNext h c = some d → Unbroken (.running c cache) (.running d cache) →
      Uses h ⟨.running c cache,saved⟩ ⟨.running d cache,saved⟩
  | runReturn : Uses h ⟨.running (.done core) cache,saved⟩ ⟨.idle ⟨core,cache⟩,saved⟩
  | runThrown : Uses h ⟨.running (.thrown err core) cache,saved⟩ ⟨.idle ⟨core,cache⟩,saved⟩
  | runFast : Uses h ⟨.idle e,saved⟩ ⟨.fast (.loop e),saved⟩
  | fastNext : fastNext h c = some d → Unbroken (.fast c) (.fast d) → Uses h ⟨.fast c,saved⟩ ⟨.fast d,saved⟩
  | fastReturn : Uses h ⟨.fast (.done e),saved⟩ ⟨.idle e,saved⟩
  | fastThrown : Uses h ⟨.fast (.thrown err e),saved⟩ ⟨.idle e,saved⟩

def Activity.Sound (c : Activity) : Prop := ∀ e, c.emulator = some e → e.Sound

theorem Activity.Sound.of {c : Activity} {e : Emulator} (shows : c.emulator = some e) (sound : e.Sound) : c.Sound := by
  intro other here
  cases shows.symm.trans here
  exact sound

structure Session.Sound (s : Session) : Prop where
  activity : s.activity.Sound
  saved : ∀ state ∈ s.saved, state.Sound

theorem sound_runNext {c d : RunConfig} {cache : BlockCache} (sound : (Activity.running c cache).Sound)
    (next : runNext h c = some d) (unbroken : Unbroken (.running c cache) (.running d cache)) :
    (Activity.running d cache).Sound := by
  cases runNext_moves next with
  | stepped m m' live ran =>
    have here := sound ⟨m,cache⟩ rfl
    have after := (Stepped.returned ran).sound here.core (unbroken ⟨m,cache⟩ ⟨m',cache⟩ rfl rfl)
    exact .of (e := ⟨m',cache⟩) rfl ⟨after,here.blocks⟩
  | threw m m' err live ran =>
    have here := sound ⟨m,cache⟩ rfl
    have after := (Stepped.thrown ran).sound here.core (unbroken ⟨m,cache⟩ ⟨m',cache⟩ rfl rfl)
    exact .of (e := ⟨m',cache⟩) rfl ⟨after,here.blocks⟩
  | stuck => exact fun _ impossible => (by cases impossible)
  | stopped m =>
    obtain ⟨⟨zero,tickAccum,profiler,axi⟩,blocks⟩ := sound ⟨m,cache⟩ rfl
    exact .of (e := ⟨m.flushUart,cache⟩) rfl ⟨⟨zero,tickAccum,profiler,axi⟩,blocks⟩

theorem step_sound (sound : m.Sound) : (step h m).Sat (fun _ m' => Profiler.Unwrapped m.profiler m'.profiler → m'.Sound)
    (fun _ m' => Profiler.Unwrapped m.profiler m'.profiler → m'.Sound) (fun _ => True) := by
  cases ran : step h m with
  | ok u m' => exact fun unwrapped => (Stepped.returned ran).sound sound unwrapped
  | thrown err m' => exact fun unwrapped => (Stepped.thrown ran).sound sound unwrapped
  | undefined why => trivial

theorem FastConfig.ofReplay_sound {c : FastConfig} {e : Emulator} {o : Outcome EmulatorError Hazard Machine Unit}
    {continued : Emulator → FastConfig} (shows : c.emulator = some e) (blocks : e.blockCache.Shaped)
    (kept : o.Sat (fun _ m' => Profiler.Unwrapped e.core.profiler m'.profiler → m'.Sound)
      (fun _ m' => Profiler.Unwrapped e.core.profiler m'.profiler → m'.Sound) (fun _ => True))
    (goes : ∀ e, (continued e).emulator = some e)
    (unbroken : Unbroken (.fast c) (.fast (.ofReplay e.blockCache continued o))) :
    (Activity.fast (.ofReplay e.blockCache continued o)).Sound := by
  cases o with
  | ok u m' => exact .of (goes _) ⟨kept (unbroken e ⟨m',e.blockCache⟩ shows (goes _)),blocks⟩
  | thrown err m' => exact .of rfl ⟨kept (unbroken e ⟨m',e.blockCache⟩ shows rfl),blocks⟩
  | undefined why => exact fun _ impossible => (by cases impossible)

theorem sound_fastNext {c d : FastConfig} (sound : (Activity.fast c).Sound) (next : fastNext h c = some d)
    (unbroken : Unbroken (.fast c) (.fast d)) : (Activity.fast d).Sound := by
  cases fastNext_moves next with
  | traced e live verbose =>
    have here := sound e rfl
    exact FastConfig.ofReplay_sound rfl here.blocks (step_sound here.core) (fun _ => rfl) unbroken
  | entered e blk cache live silent translated =>
    have here := sound e rfl
    have blocks := here.blocks.translate e.core.scratchpad e.core.regs.pc
    rw [translated] at blocks
    exact .of rfl ⟨here.core,blocks⟩
  | unread e err cache live silent translated =>
    have here := sound e rfl
    have blocks := here.blocks.translate e.core.scratchpad e.core.regs.pc
    rw [translated] at blocks
    exact .of rfl ⟨here.core,blocks⟩
  | stopped e stopped =>
    obtain ⟨⟨zero,tickAccum,profiler,axi⟩,blocks⟩ := sound e rfl
    exact .of rfl ⟨⟨zero,tickAccum,profiler,axi⟩,blocks⟩
  | replayed e blk i ins op live =>
    have here := sound e rfl
    refine FastConfig.ofReplay_sound rfl here.blocks (replay_sound here.core) ?_ unbroken
    intro e'
    split <;> rfl
  | ended e => exact .of rfl (sound e rfl)
  | left e => exact .of rfl (sound e rfl)

theorem uses_sound {s s' : Session} (use : Uses h s s') (sound : s.Sound) : s'.Sound := by
  obtain ⟨activity,saved⟩ := sound
  cases use with
  | load loaded => exact ⟨.of rfl ((activity _ rfl).load loaded),saved⟩
  | loadThrown => exact ⟨activity,saved⟩
  | setTarget p =>
    obtain ⟨⟨zero,tickAccum,profiler,axi⟩,_⟩ := activity _ rfl
    exact ⟨.of rfl ⟨⟨zero,tickAccum,profiler,axi⟩,BlockCache.empty_shaped⟩,saved⟩
  | setAcceleration on =>
    obtain ⟨⟨zero,tickAccum,profiler,axi⟩,blocks⟩ := activity _ rfl
    exact ⟨.of rfl ⟨⟨zero,tickAccum,profiler,axi⟩,blocks⟩,saved⟩
  | reset => exact ⟨.of rfl ⟨Machine.reset_sound _,BlockCache.empty_shaped⟩,saved⟩
  | saveState =>
    refine ⟨activity,?_⟩
    intro state listed
    rcases List.mem_cons.mp listed with rfl | earlier
    · obtain ⟨⟨_,tickAccum,profiler,_⟩,_⟩ := activity _ rfl
      exact ⟨tickAccum,profiler⟩
    · exact saved state earlier
  | restoreState listed =>
    obtain ⟨core,blocks⟩ := activity _ rfl
    exact ⟨.of rfl ⟨core.restore (saved _ listed),blocks⟩,saved⟩
  | step stepped unbroken =>
    obtain ⟨core,blocks⟩ := activity _ rfl
    exact ⟨.of rfl ⟨stepped.sound core (unbroken _ _ rfl rfl),blocks⟩,saved⟩
  | run => exact ⟨.of rfl (activity _ rfl),saved⟩
  | runNext next unbroken => exact ⟨sound_runNext activity next unbroken,saved⟩
  | runReturn => exact ⟨.of rfl (activity _ rfl),saved⟩
  | runThrown => exact ⟨.of rfl (activity _ rfl),saved⟩
  | runFast => exact ⟨.of rfl (activity _ rfl),saved⟩
  | fastNext next unbroken => exact ⟨sound_fastNext activity next unbroken,saved⟩
  | fastReturn => exact ⟨.of rfl (activity _ rfl),saved⟩
  | fastThrown => exact ⟨.of rfl (activity _ rfl),saved⟩

theorem uses_keep_sound {s s' : Session} (path : ReflTransGen (Uses h) s s') (sound : s.Sound) : s'.Sound := by
  induction path with
  | refl => exact sound
  | tail _ use ih => exact uses_sound use ih

theorem Session.initial_sound (scratchpadBytes mainRamBytes : Nat) :
    Session.Sound ⟨.idle (.initial scratchpadBytes mainRamBytes),[]⟩ :=
  ⟨.of rfl ⟨Machine.initial_sound _ _,BlockCache.empty_shaped⟩,fun _ impossible => (by cases impossible)⟩

theorem reachable_state_invariant (h : Host) (scratchpadBytes mainRamBytes : Nat) (s : Session) (e : Emulator)
    (path : ReflTransGen (Uses h) ⟨.idle (.initial scratchpadBytes mainRamBytes),[]⟩ s)
    (shows : s.activity.emulator = some e) :
    e.core.regs.gpr 0 = 0 ∧
    e.core.tickAccum < cyclesPerTick ∧
    e.core.profiler.histTotal = e.core.profiler.instrCount.toNat ∧
    e.core.profiler.dmaCycleCount ≤ e.core.profiler.cycleCount ∧
    e.core.axi.pending.length ≤ e.core.axi.cfg.maxOutstanding.toNat ∧
    ∀ pc blk, e.blockCache.map pc = some blk → blk.ops ≠ [] ∧ blk.endPc = blk.startPc+BitVec.ofNat 32 (4*blk.ops.length) := by
  obtain ⟨core,blocks⟩ := (uses_keep_sound path (Session.initial_sound _ _)).activity e shows
  exact ⟨core.zero,core.tickAccum,core.profiler.hist,core.profiler.dma,core.axi,blocks⟩

theorem reachable_state_invariant_halted : ∃ s e,
    ReflTransGen (Uses (.ieee .scalar)) ⟨.idle (.initial 512 256),[]⟩ s ∧ s.activity.emulator = some e ∧
      e.core.regs.halt = true ∧ e.core.profiler.histTotal = e.core.profiler.instrCount.toNat := by
  have loaded : (Emulator.initial 512 256).load (.program (wordBytes Enc.halt)) = .ok (.programmed [Enc.halt]) := rfl
  have ends : (step (.ieee .scalar) (Emulator.programmed [Enc.halt]).core).Sat
      (fun _ m' => m'.regs.halt = true ∧ m'.profiler.instrCount = 1) (fun _ _ => False) (fun _ => False) := by decide +kernel
  obtain ⟨u,m',ran,halted,_⟩ := ends.returns
  have unbroken : Unbroken (.idle (.programmed [Enc.halt])) (.idle ⟨m',.empty⟩) := by
    intro e e' before after
    cases before
    cases after
    exact ⟨Nat.zero_le _,Nat.zero_le _⟩
  have path : ReflTransGen (Uses (.ieee .scalar)) ⟨.idle (.initial 512 256),[]⟩ ⟨.idle ⟨m',.empty⟩,[]⟩ :=
    .tail (.single (.load loaded)) (.step (.returned ran) unbroken)
  exact ⟨_,⟨m',.empty⟩,path,rfl,halted,(reachable_state_invariant _ _ _ _ _ path rfl).2.2.1⟩

end Novium
