import Novium.Blocks
import Novium.Cycle

namespace Novium
open Storage Effects StateTransition SmallStep Relation
variable {h : Host}

def RunConfig.machine : RunConfig → Option Machine
  | .loop m | .done m | .thrown _ m => some m
  | .undefined _ => none

def FastConfig.emulator : FastConfig → Option Emulator
  | .loop e | .block e _ _ | .done e | .thrown _ e => some e
  | .undefined _ => none

-- What the host is doing with an emulator: nothing, or inside a call of `run` or `run_fast`.
inductive Activity where
  | idle (e : Emulator)
  | running (c : RunConfig) (cache : BlockCache)
  | fast (c : FastConfig)

def Activity.emulator : Activity → Option Emulator
  | .idle e => some e
  | .running c cache => c.machine.map (⟨·,cache⟩)
  | .fast c => c.emulator

namespace Machine

def writes (m : Machine) (i : Instruction) : Set Nat := {a | ¬ m.spares i a}

-- The bytes the instruction of the next `step` writes.
def stepWrites (m : Machine) : Set Nat :=
  {a | ∃ i pre, fetch (saveBefore m.deliverInterrupt) = .ok i pre ∧ a ∈ pre.writes i}

end Machine

def RunConfig.writes : RunConfig → Set Nat
  | .loop m => m.stepWrites
  | _ => ∅

def FastConfig.writes : FastConfig → Set Nat
  | .loop e => if e.core.verbose then e.core.stepWrites else ∅
  | .block e blk i => {a | ∃ ins, blk.ops[i]? = some ins ∧ a ∈ e.core.advancePc.writes ins}
  | _ => ∅

-- The operations on an emulator, each with the scratchpad bytes it writes without
-- clearing the block cache. `configure` stands for every other call of the host.
inductive Moves (h : Host) : Activity → Set Nat → Activity → Prop where
  | loadProgram : e.loadProgram bytes = .ok e' → Moves h (.idle e) ∅ (.idle e')
  | loadData : e.loadData addr data = .ok e' →
      Moves h (.idle e) (Set.Ico addr.toNat (addr.toNat+data.length)) (.idle e')
  | loadTensor : e.loadTensor addr data = .ok e' →
      Moves h (.idle e) (Set.Ico addr.toNat (addr.toNat+(data.flatMap wordBytes).length)) (.idle e')
  | busWrite : Bus.write32 addr value e.core = .ok () m →
      Moves h (.idle e) {a | e.core.deviceAt addr = none ∧ a ∈ Set.Ico addr.toNat (addr.toNat+4)} (.idle {e with core := m})
  | setTarget (p : TargetProfile) : Moves h (.idle e) ∅ (.idle (e.setTarget p))
  | reset : Moves h (.idle e) ∅ (.idle e.reset)
  | configure : m.scratchpad = e.core.scratchpad → Moves h (.idle e) ∅ (.idle {e with core := m})
  | step : step h e.core = .ok () m → Moves h (.idle e) e.core.stepWrites (.idle {e with core := m})
  | stepThrown : Novium.step h e.core = .thrown err m → Moves h (.idle e) e.core.stepWrites (.idle {e with core := m})
  | run : Moves h (.idle e) ∅ (.running (.loop e.core) e.blockCache)
  | runNext : runNext h c = some d → Moves h (.running c cache) c.writes (.running d cache)
  | runReturn : Moves h (.running (.done m) cache) ∅ (.idle ⟨m,cache⟩)
  | runThrown : Moves h (.running (.thrown err m) cache) ∅ (.idle ⟨m,cache⟩)
  | runFast : Moves h (.idle e) ∅ (.fast (.loop e))
  | fastNext : fastNext h c = some d → Moves h (.fast c) c.writes (.fast d)
  | fastReturn : Moves h (.fast (.done e)) ∅ (.idle e)
  | fastThrown : Moves h (.fast (.thrown err e)) ∅ (.idle e)

def Activity.Coherent (c : Activity) : Prop := ∀ e, c.emulator = some e → FreshCache e.core.scratchpad e.blockCache

theorem Activity.Coherent.of {c : Activity} {e : Emulator} (shows : c.emulator = some e)
    (sound : FreshCache e.core.scratchpad e.blockCache) : c.Coherent := by
  intro other here
  cases shows.symm.trans here
  exact sound

-- A move that leaves every byte under a cached block alone.
def SparingMove (h : Host) (c d : Activity) : Prop :=
  ∃ written, Moves h c written d ∧ ∀ e, c.emulator = some e → ∀ a ∈ written, ¬ e.blockCache.covers a

-- What a move does to memory: same size, and only the given bytes differ.
def WritesOnly (written : Set Nat) (mem mem' : ByteStore) : Prop :=
  mem'.size = mem.size ∧ ∀ a, a ∉ written → mem'.byte a = mem.byte a

theorem WritesOnly.refl (mem : ByteStore) (written : Set Nat) : WritesOnly written mem mem := ⟨rfl,fun _ _ => rfl⟩

theorem writeBytes_only {mem mem' : ByteStore} {addr : Word} {data : List Byte}
    (wrote : VirtualSRAM.writeBytes mem addr data = .ok mem') :
    WritesOnly (Set.Ico addr.toNat (addr.toNat+data.length)) mem mem' := by
  unfold VirtualSRAM.writeBytes at wrote
  split at wrote
  · cases wrote
    refine ⟨rfl,?_⟩
    intro a outside
    apply ByteStore.write_outside
    simp only [Set.mem_Ico,not_and_or,not_le,not_lt] at outside
    exact outside
  · cases wrote

-- Trap entry writes no byte, so only what retires counts.
theorem effect_only {i : Instruction} {m m' : Machine} (effect : Executed i m m' ∨ Trapped i m m') :
    WritesOnly (m.writes i) m.scratchpad m'.scratchpad := by
  rcases effect with executed | ⟨u,t,_,_,_,rfl⟩
  · refine ⟨congrArg Control.scratchpadSize executed.control,?_⟩
    intro a outside
    exact executed.scratchpad a (not_not.mp outside)
  · exact .refl _ _

theorem scratchpad_saveBefore (m : Machine) : (saveBefore m).scratchpad = m.scratchpad :=
  congrArg Visible.scratchpad (visible_saveBefore m)

theorem scratchpad_deliver (m : Machine) : m.deliverInterrupt.scratchpad = m.scratchpad :=
  Machine.deliverInterrupt_keeps Machine.scratchpad (fun _ _ _ _ => rfl) m

theorem scratchpad_logStep (pc : Word) (i : Instruction) (cycles : Word) (m : Machine) :
    (logStep pc i cycles m).scratchpad = m.scratchpad := congrArg Visible.scratchpad (visible_logStep pc i cycles m)

theorem scratchpad_tick (m : Machine) : m.tickPeripherals.scratchpad = m.scratchpad :=
  congrArg Visible.scratchpad (visible_tick m)

-- A step writes the bytes `stepWrites` foretells, whether it returns or throws.
theorem step_only (h : Host) (m : Machine) :
    (step h m).Sat (fun _ m' => WritesOnly m.stepWrites m.scratchpad m'.scratchpad)
      (fun _ m' => WritesOnly m.stepWrites m.scratchpad m'.scratchpad) (fun _ => True) := by
  unfold step
  simp only [Exec.sat_bind,Exec.get_apply,Outcome.sat_ok,Exec.ite_apply]
  split
  · exact .refl _ _
  · have before : ∀ {i pre}, fetch (saveBefore m.deliverInterrupt) = .ok i pre → pre.scratchpad = m.scratchpad :=
      fetched_keeps Machine.scratchpad fun _ _ _ _ _ _ _ _ => rfl
    refine (cycle_effect h m.deliverInterrupt).mono ?_ ?_ (fun _ _ => trivial)
    · intro _ m' effect
      obtain ⟨fetched,ran⟩ := effect
      obtain ⟨size,bytes⟩ := effect_only (execute_ok ran)
      rw [before fetched] at size bytes
      rw [scratchpad_logStep,scratchpad_tick]
      refine ⟨size,?_⟩
      intro a outside
      exact bytes a fun inside => outside ⟨_,_,fetched,inside⟩
    · intro _ m' stopped
      rcases stopped with _ | ⟨fetched,ran⟩
      · rw [scratchpad_saveBefore,scratchpad_deliver]
        exact .refl _ _
      · rw [(execute_thrown ran).scratchpad,before fetched]
        exact .refl _ _

theorem replay_only (h : Host) (ins : Instruction) (m : Machine) :
    (replay h ins m).Sat (fun _ m' => WritesOnly (m.advancePc.writes ins) m.scratchpad m'.scratchpad)
      (fun _ m' => WritesOnly (m.advancePc.writes ins) m.scratchpad m'.scratchpad) (fun _ => True) := by
  refine (replay_effect h ins m).mono ?_ ?_ (fun _ _ => trivial)
  · intro _ m' ran
    obtain ⟨after,rfl,effect⟩ := ran
    rw [scratchpad_tick]
    exact effect_only effect
  · intro _ m' stopped
    rw [stopped.scratchpad]
    exact .refl _ _

theorem FreshCache.only {mem mem' : ByteStore} {cache : BlockCache} {written : Set Nat} (sound : FreshCache mem cache)
    (only : WritesOnly written mem mem') (spared : ∀ a ∈ written, ¬ cache.covers a) : FreshCache mem' cache :=
  sound.kept only.1 fun a covered => only.2 a fun inside => spared a inside covered

theorem runNext_coherent {c d : RunConfig} {cache : BlockCache} (coherent : (Activity.running c cache).Coherent)
    (next : runNext h c = some d) (spared : ∀ a ∈ c.writes, ¬ cache.covers a) : (Activity.running d cache).Coherent := by
  cases runNext_moves next with
  | stepped m m' live ran =>
    have effect := step_only h m
    rw [ran] at effect
    exact .of rfl ((coherent ⟨m,cache⟩ rfl).only effect spared)
  | threw m m' err live ran =>
    have effect := step_only h m
    rw [ran] at effect
    exact .of rfl ((coherent ⟨m,cache⟩ rfl).only effect spared)
  | stuck =>
    intro e here
    cases here
  | stopped m =>
    have sound : FreshCache m.scratchpad cache := coherent ⟨m,cache⟩ rfl
    exact .of rfl sound

theorem FastConfig.ofReplay_coherent {m : Machine} {cache : BlockCache} {written : Set Nat}
    {o : Outcome EmulatorError Hazard Machine Unit} {continued : Emulator → FastConfig}
    (sound : FreshCache m.scratchpad cache) (spared : ∀ a ∈ written, ¬ cache.covers a)
    (only : o.Sat (fun _ m' => WritesOnly written m.scratchpad m'.scratchpad)
      (fun _ m' => WritesOnly written m.scratchpad m'.scratchpad) (fun _ => True))
    (goes : ∀ e, (continued e).emulator = some e) :
    (Activity.fast (.ofReplay cache continued o)).Coherent := by
  cases o with
  | ok _ m' => exact .of (goes _) (sound.only only spared)
  | thrown err m' => exact .of rfl (sound.only only spared)
  | undefined why =>
    intro e here
    cases here

theorem FreshCache.translate_any {mem : ByteStore} {cache : BlockCache} (sound : FreshCache mem cache) (pc : Word) :
    FreshCache mem (cache.translate mem pc).2 := by
  cases fresh : freshBlock mem pc with
  | ok blk =>
    obtain ⟨cache',translated,kept⟩ := sound.translate rfl fresh
    rw [translated]
    exact kept
  | error err =>
    unfold BlockCache.translate
    split
    · exact sound
    · split
      · exact sound
      · rename_i found
        rw [fresh] at found
        cases found

theorem fastNext_coherent {c d : FastConfig} (coherent : (Activity.fast c).Coherent) (next : fastNext h c = some d)
    (spared : ∀ e, c.emulator = some e → ∀ a ∈ c.writes, ¬ e.blockCache.covers a) : (Activity.fast d).Coherent := by
  cases fastNext_moves next with
  | traced e live verbose =>
    refine FastConfig.ofReplay_coherent (coherent _ rfl) ?_ (step_only h e.core) (fun _ => rfl)
    simpa [FastConfig.writes,verbose] using spared e rfl
  | entered e blk cache live silent translated =>
    have kept := FreshCache.translate_any (coherent _ rfl) e.core.regs.pc
    rw [translated] at kept
    exact .of rfl kept
  | unread e err cache live silent translated =>
    have kept := FreshCache.translate_any (coherent _ rfl) e.core.regs.pc
    rw [translated] at kept
    exact .of rfl kept
  | stopped e =>
    have kept : FreshCache e.core.scratchpad e.blockCache := coherent e rfl
    exact .of rfl kept
  | replayed e blk i ins op live =>
    refine FastConfig.ofReplay_coherent (coherent _ rfl) ?_ (replay_only h ins e.core) ?_
    · intro a inside
      exact spared e rfl a ⟨ins,op,inside⟩
    · intro e'
      split <;> rfl
  | ended => exact coherent
  | left => exact coherent

-- `load_data`, and `load_tensor` through it, writes its range and keeps the cache.
theorem loadData_coherent {e e' : Emulator} {addr : Word} {data : List Byte} (coherent : (Activity.idle e).Coherent)
    (loaded : e.loadData addr data = .ok e')
    (spared : ∀ a ∈ Set.Ico addr.toNat (addr.toNat+data.length), ¬ e.blockCache.covers a) :
    (Activity.idle e').Coherent := by
  unfold Emulator.loadData at loaded
  split at loaded
  · cases loaded
  · rename_i wrote
    cases loaded
    exact .of rfl ((coherent _ rfl).only (writeBytes_only wrote) spared)

-- A program replaces the cache together with the code.
theorem loadProgram_coherent {e e' : Emulator} {bytes : List Byte} (loaded : e.loadProgram bytes = .ok e') :
    (Activity.idle e').Coherent := by
  unfold Emulator.loadProgram at loaded
  split at loaded
  · cases loaded
  · split at loaded
    · cases loaded
    · cases loaded
      exact .of rfl (.empty _)

theorem busWrite_only {m m' : Machine} {addr value : Word} (wrote : Bus.write32 addr value m = .ok () m') :
    WritesOnly {a | m.deviceAt addr = none ∧ a ∈ Set.Ico addr.toNat (addr.toNat+4)} m.scratchpad m'.scratchpad := by
  have effect : Outcome.Sat (fun _ m' => Handlers.BusWrote m addr value m') (fun _ _ => True) (fun _ => True)
      (Bus.write32 addr value m) := Handlers.sat_busWrite (fun _ _ wrote => wrote) (fun _ _ => trivial) (fun _ => trivial)
  rw [wrote] at effect
  refine ⟨congrArg Control.scratchpadSize effect.control,?_⟩
  intro a outside
  rw [effect.scratchpad]
  split
  · rename_i ram
    apply ByteStore.write_outside
    simp only [Set.mem_ofPred_eq,ram,true_and,Set.mem_Ico,not_and_or,not_le,not_lt] at outside
    exact outside
  · rfl

theorem moves_coherent {c d : Activity} {written : Set Nat} (coherent : c.Coherent) (move : Moves h c written d)
    (spared : ∀ e, c.emulator = some e → ∀ a ∈ written, ¬ e.blockCache.covers a) : d.Coherent := by
  cases move with
  | loadProgram loaded => exact loadProgram_coherent loaded
  | loadData loaded => exact loadData_coherent coherent loaded (spared _ rfl)
  | loadTensor loaded => exact loadData_coherent coherent loaded (spared _ rfl)
  | busWrite wrote => exact .of rfl ((coherent _ rfl).only (busWrite_only wrote) (spared _ rfl))
  | setTarget p => exact .of rfl (.empty _)
  | reset => exact .of rfl (.empty _)
  | configure same =>
    apply Activity.Coherent.of rfl
    rw [same]
    exact coherent _ rfl
  | @step m e ran =>
    have effect := step_only h e.core
    rw [ran] at effect
    exact .of rfl ((coherent _ rfl).only effect (spared _ rfl))
  | @stepThrown err m e ran =>
    have effect := step_only h e.core
    rw [ran] at effect
    exact .of rfl ((coherent _ rfl).only effect (spared _ rfl))
  | run => exact .of rfl (coherent _ rfl)
  | @runNext c d cache next =>
    cases c with
    | loop m => exact runNext_coherent coherent next (spared _ rfl)
    | done m => cases next
    | thrown err m => cases next
    | undefined why => cases next
  | runReturn => exact .of rfl (coherent _ rfl)
  | runThrown => exact .of rfl (coherent _ rfl)
  | runFast => exact .of rfl (coherent _ rfl)
  | fastNext next => exact fastNext_coherent coherent next spared
  | fastReturn => exact .of rfl (coherent _ rfl)
  | fastThrown => exact .of rfl (coherent _ rfl)

-- Every state reached without writing under a cached block is coherent.
theorem blockCache_coherent (h : Host) (scratchpadBytes mainRamBytes : Nat) (c : Activity)
    (path : ReflTransGen (SparingMove h) (.idle (.initial scratchpadBytes mainRamBytes)) c) : c.Coherent := by
  induction path with
  | refl =>
    intro _ here
    cases here
    exact .empty _
  | tail _ move ih =>
    obtain ⟨written,move,spared⟩ := move
    exact moves_coherent ih move spared

-- Configurations whose next move writes nothing to the scratchpad.
def FastConfig.silent : FastConfig → Bool
  | .loop e => !e.core.verbose
  | .block e blk i => blk.ops[i]?.all fun ins => (e.core.advancePc.scratchpadWrites ins).isNone
  | _ => true

theorem FastConfig.silent_writes {c : FastConfig} (silent : c.silent = true) (a : Nat) : a ∉ c.writes := by
  cases c with
  | loop e =>
    have quiet : e.core.verbose = false := by simpa [FastConfig.silent] using silent
    simp [FastConfig.writes,quiet]
  | block e blk i =>
    intro written
    obtain ⟨ins,op,inside⟩ := written
    have none : e.core.advancePc.scratchpadWrites ins = none := by simpa [FastConfig.silent,op] using silent
    apply inside
    intro start count writes
    rw [none] at writes
    cases writes
  | done e => exact id
  | thrown err e => exact id
  | undefined why => exact id

theorem sparing_of_silent {c d : FastConfig} (silent : Always (fastNext h) (fun c => c.silent = true) c)
    (path : Reaches (fastNext h) c d) : ReflTransGen (SparingMove h) (.fast c) (.fast d) := by
  induction path with
  | refl => exact .refl
  | tail before next ih =>
    exact ih.tail ⟨_,.fastNext next,fun _ _ a inside => absurd inside (FastConfig.silent_writes (silent _ before) a)⟩

theorem loadProgram_programmed (words : List Word) (small : (words.flatMap wordBytes).length ≤ 512) :
    (Emulator.initial 512 256).loadProgram (words.flatMap wordBytes) = .ok (.programmed words) := by
  have fits : ¬ textSize < (words.flatMap wordBytes).length := by
    unfold textSize
    omega
  have room : textBase.toNat+(words.flatMap wordBytes).length ≤ (Emulator.initial 512 256).core.scratchpad.size := by
    change 0+_ ≤ 512
    omega
  simp only [Emulator.loadProgram,fits,if_false,VirtualSRAM.writeBytes,room,if_true]
  rfl

theorem blockCache_coherent_halting : ∃ e, (Activity.idle e).Coherent ∧ (e.blockCache.map 0).isSome = true := by
  obtain ⟨d,ran,holds⟩ := reaches_of_any (by decide +kernel :
    (after (fastNext (.ieee .scalar)) 4 (.loop (.programmed [Enc.movi 1 5,Enc.halt]))).any (fun
      | .done e => (e.blockCache.map 0).isSome
      | _ => false) = true)
  have silent : Always (fastNext (.ieee .scalar)) (fun c => c.silent = true) (.loop (.programmed [Enc.movi 1 5,Enc.halt])) :=
    always_of_settles (by decide +kernel : settles _ _ 6 _ = true)
  have nothing : ∀ {e : Emulator}, ∀ a ∈ (∅ : Set Nat), ¬ e.blockCache.covers a := fun _ inside => absurd inside id
  cases d with
  | done e =>
    refine ⟨e,blockCache_coherent (.ieee .scalar) 512 256 (.idle e) ?_,holds⟩
    have loaded : SparingMove (.ieee .scalar) (.idle (.initial 512 256)) (.idle (.programmed [Enc.movi 1 5,Enc.halt])) :=
      ⟨∅,.loadProgram (loadProgram_programmed _ (by decide)),fun _ _ => nothing⟩
    have started : SparingMove (.ieee .scalar) (.idle (.programmed [Enc.movi 1 5,Enc.halt])) (.fast _) :=
      ⟨∅,.runFast,fun _ _ => nothing⟩
    have returned : SparingMove (.ieee .scalar) (.fast (.done e)) (.idle e) := ⟨∅,.fastReturn,fun _ _ => nothing⟩
    exact (((ReflTransGen.single loaded).tail started).trans (sparing_of_silent silent ran)).tail returned
  | loop e => cases holds
  | block e blk i => cases holds
  | thrown err e => cases holds
  | undefined why => cases holds

def AnyMove (h : Host) (c d : Activity) : Prop := ∃ written, Moves h c written d

theorem fast_moves {c d : FastConfig} (path : Reaches (fastNext h) c d) :
    ReflTransGen (AnyMove h) (.fast c) (.fast d) := by
  induction path with
  | refl => exact .refl
  | tail _ next ih => exact ih.tail ⟨_,.fastNext next⟩

-- `load_data` over a HALT that `run_fast` has decoded leaves the HALT in the cache.
theorem blockCache_stale :
    ¬ ∀ c, ReflTransGen (AnyMove (.ieee .scalar)) (.idle (.initial 512 256)) c → c.Coherent := by
  intro coherent
  obtain ⟨d,ran,holds⟩ := reaches_of_any (by decide +kernel :
    (after (fastNext (.ieee .scalar)) 3 (.loop (.programmed [Enc.halt]))).any (fun
      | .done e => e.core.scratchpad.size == 512 && (e.blockCache.map 0).any fun blk => blk.ops == [⟨Enc.halt⟩]
      | _ => false) = true)
  cases d with
  | done e =>
    simp only [Bool.and_eq_true,beq_iff_eq,Option.any_eq_true] at holds
    obtain ⟨size,blk,cached,ops⟩ := holds
    let changed : Emulator := {e with core := {e.core with scratchpad := e.core.scratchpad.write 0 [0,0,0,0]}}
    have wrote : e.loadData 0 [0,0,0,0] = .ok changed := by
      simp [Emulator.loadData,VirtualSRAM.writeBytes,size,changed]
    have path : ReflTransGen (AnyMove (.ieee .scalar)) (.idle (.initial 512 256)) (.idle changed) := by
      have loaded : AnyMove (.ieee .scalar) (.idle (.initial 512 256)) (.idle (.programmed [Enc.halt])) :=
        ⟨_,.loadProgram (loadProgram_programmed _ (by decide))⟩
      have started : AnyMove (.ieee .scalar) (.idle (.programmed [Enc.halt])) (.fast (.loop (.programmed [Enc.halt]))) :=
        ⟨_,.runFast⟩
      have finished : AnyMove (.ieee .scalar) (.fast (.done e)) (.idle e) := ⟨_,.fastReturn⟩
      have reloaded : AnyMove (.ieee .scalar) (.idle e) (.idle changed) := ⟨_,.loadData wrote⟩
      exact ((((ReflTransGen.single loaded).tail started).trans (fast_moves ran)).tail finished).tail reloaded
    have fresh := coherent _ path changed rfl 0 blk cached
    have stored := freshBlock_words fresh (by rw [ops]; rfl : blk.ops[0]? = some ⟨Enc.halt⟩)
    have word : VirtualSRAM.read32 changed.core.scratchpad 0 = .ok 0 := by
      simp [VirtualSRAM.read32,changed,size,ByteStore.word,ByteStore.write]
    rw [opPc_zero,word] at stored
    cases stored
  | loop e => cases holds
  | block e blk i => cases holds
  | thrown err e => cases holds
  | undefined why => cases holds

end Novium
