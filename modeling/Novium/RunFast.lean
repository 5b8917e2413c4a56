import Novium.Blocks
import Novium.Cycle

namespace Novium
open Storage Effects StateTransition SmallStep
variable {h : Host}

-- The mode in which nothing but the program's own jumps moves the pc: no trace,
-- no translation, no deliverable interrupt and no trap vector.
structure Quiet (m : Machine) : Prop where
  verbose : m.verbose = false
  mmu : m.mmu.enabled = false
  masked : m.csr.mstatusMie = false
  unvectored : m.csr.mtvec = 0

theorem Quiet.of_control {m m' : Machine} (quiet : Quiet m) (same : m'.control = m.control) : Quiet m' := by
  have verbose : m'.verbose = m.verbose := congrArg Control.verbose same
  have mmu : m'.mmu.enabled = m.mmu.enabled := congrArg Control.mmuEnabled same
  have csr : m'.csr = m.csr := congrArg Control.csr same
  exact ⟨verbose.trans quiet.verbose,mmu.trans quiet.mmu,by rw [csr]; exact quiet.masked,
    by rw [csr]; exact quiet.unvectored⟩

theorem Quiet.deliver {m : Machine} (quiet : Quiet m) : m.deliverInterrupt = m := deliverInterrupt_masked quiet.masked

theorem Quiet.no_trap {m : Machine} {i : Instruction} {u : MMU} {t : Trap} (quiet : Quiet m) : ¬ TrapSite m i u t := by
  have resolves : ∀ (m : Machine) va isWrite, m.mmu.enabled = false → (m.resolved va isWrite).1 ≠ none := by
    intro m va isWrite off
    simp [Machine.resolved_off off]
  intro site
  cases site with
  | illegal _ vectored => exact vectored quiet.unvectored
  | fault _ site =>
    have later : ∀ va, (m.afterResolve va true).mmu.enabled = false := by
      intro va
      exact (m.resolved_kept va true).1.trans quiet.mmu
    cases site with
    | load _ failed => exact resolves _ _ _ quiet.mmu failed
    | store _ failed => exact resolves _ _ _ quiet.mmu failed
    | dmaDest _ _ _ failed => exact resolves _ _ _ quiet.mmu failed
    | dmaLoadSrc _ _ _ failed => exact resolves _ _ _ (later _) failed
    | dmaStoreSrc _ _ _ failed => exact resolves _ _ _ (later _) failed

theorem Quiet.tick {m : Machine} (quiet : Quiet m) : Quiet m.tickPeripherals := by
  have same : (m.tickPeripherals.verbose,m.tickPeripherals.mmu,m.tickPeripherals.csr) = (m.verbose,m.mmu,m.csr) :=
    Machine.tickPeripherals_keeps (fun m => (m.verbose,m.mmu,m.csr)) (fun _ => rfl) m
  simp only [Prod.mk.injEq] at same
  obtain ⟨verbose,mmu,csr⟩ := same
  exact ⟨verbose.trans quiet.verbose,by rw [mmu]; exact quiet.mmu,by rw [csr]; exact quiet.masked,
    by rw [csr]; exact quiet.unvectored⟩

-- One replayed instruction in quiet mode: the mode stays and a straight-line
-- instruction ends at the next word.
structure Replayed (ins : Instruction) (m m' : Machine) : Prop where
  quiet : Quiet m'
  pc : ins.endsBlock = false → m'.regs.pc = m.regs.pc+4
  size : m'.scratchpad.size = m.scratchpad.size

theorem Quiet.executed {m m' : Machine} {ins : Instruction} (quiet : Quiet m)
    (effect : Executed ins m m' ∨ Trapped ins m m') : Executed ins m m' := by
  rcases effect with executed | ⟨u,t,_,_,site,_⟩
  · exact executed
  · exact absurd site quiet.no_trap

theorem Quiet.advance {m : Machine} (quiet : Quiet m) : Quiet m.advancePc :=
  ⟨quiet.verbose,quiet.mmu,quiet.masked,quiet.unvectored⟩

theorem Quiet.replay {m m' : Machine} {ins : Instruction} (quiet : Quiet m) (ran : replay h ins m = .ok () m') :
    Replayed ins m m' := by
  have effect := replay_effect h ins m
  rw [ran] at effect
  obtain ⟨after,rfl,effect⟩ := effect
  have executed := quiet.advance.executed effect
  have kept := visible_tick after
  have regs : after.tickPeripherals.regs = after.regs := congrArg Visible.regs kept
  have scratchpad : after.tickPeripherals.scratchpad = after.scratchpad := congrArg Visible.scratchpad kept
  refine ⟨(quiet.advance.of_control executed.control).tick,?_,?_⟩
  · intro straight
    rw [regs]
    exact executed.pc straight
  · rw [scratchpad]
    exact congrArg Control.scratchpadSize executed.control

theorem saveBefore_silent {m : Machine} (verbose : m.verbose = false) : saveBefore m = m := by
  unfold saveBefore
  rw [verbose,if_neg Bool.false_ne_true]

theorem execute_verbose {m m' : Machine} {i : Instruction} {cycles : Word} (ran : execute h i m = .ok cycles m') :
    m'.verbose = m.verbose := by
  rcases execute_ok ran with executed | ⟨u,t,_,_,_,rfl⟩
  · exact congrArg Control.verbose executed.control
  · rfl

-- Without translation, interrupts and logging a step is a fetch from the scratchpad
-- and what `run_fast` does with the word.
theorem step_eq_replay {m : Machine} (verbose : m.verbose = false) (off : m.mmu.enabled = false)
    (masked : m.csr.mstatusMie = false) (running : m.regs.halt = false) (below : m.regs.pc < mmioBase)
    (inside : m.regs.pc.toNat+4 ≤ m.scratchpad.size) :
    step h m = replay h ⟨m.scratchpad.word m.regs.pc.toNat⟩ m := by
  simp only [step,cycle,replay,Exec.bind_apply,Exec.get_apply,Exec.ite_apply,Exec.modify_apply,running,
    Bool.false_eq_true,if_false,deliverInterrupt_masked masked,saveBefore_silent verbose,fetch_plain off below inside]
  cases executed : execute h ⟨m.scratchpad.word m.regs.pc.toNat⟩ m.advancePc with
  | thrown e t => rfl
  | undefined why => rfl
  | ok cycles after =>
    have silent : after.tickPeripherals.verbose = false := by
      rw [Machine.tickPeripherals_keeps Machine.verbose (fun _ => rfl),execute_verbose executed]
      exact verbose
    simp only [logStep,silent,Bool.false_eq_true,if_false]

-- Asked of every loop test of a run: a pc that is fetched from has a whole block's
-- worth of bytes below the bound, and no byte below the bound ever changes.
def Within (bound : Nat) (mem : ByteStore) : RunConfig → Prop
  | .loop m => (m.live = true → m.regs.pc.toNat+128 ≤ bound) ∧ ∀ a < bound, m.scratchpad.byte a = mem.byte a
  | _ => True

instance (bound : Nat) (mem : ByteStore) : DecidablePred (Within bound mem)
  | .loop m => inferInstanceAs (Decidable ((m.live = true → m.regs.pc.toNat+128 ≤ bound) ∧
      ∀ a < bound, m.scratchpad.byte a = mem.byte a))
  | .done _ => .isTrue trivial
  | .thrown _ _ => .isTrue trivial
  | .undefined _ => .isTrue trivial

structure Tracks (h : Host) (bound : Nat) (mem : ByteStore) (m : Machine) (cache : BlockCache) : Prop where
  quiet : Quiet m
  size : m.scratchpad.size = mem.size
  path : Always (runNext h) (Within bound mem) (.loop m)
  fresh : FreshCache mem cache

-- The simulation relation. Inside a block the pc is the address of the operation to come.
inductive Matches (h : Host) (bound : Nat) (mem : ByteStore) : RunConfig → FastConfig → Prop where
  | loop : Tracks h bound mem m cache → Matches h bound mem (.loop m) (.loop ⟨m,cache⟩)
  | block : Tracks h bound mem m cache → freshBlock mem blk.startPc = .ok blk → m.regs.pc = opPc blk.startPc i →
      Matches h bound mem (.loop m) (.block ⟨m,cache⟩ blk i)
  | done : Matches h bound mem (.done m) (.done ⟨m,cache⟩)
  | thrown : Matches h bound mem (.thrown err m) (.thrown err ⟨m,cache⟩)
  | undefined : Matches h bound mem (.undefined why) (.undefined why)

section Simulation
variable {bound : Nat} {mem : ByteStore} {m : Machine} {cache : BlockCache} {blk : DecodedBlock} {i : Nat}

theorem Tracks.agree (tracks : Tracks h bound mem m cache) (room : bound ≤ mem.size) : AgreeBelow bound m.scratchpad mem :=
  ⟨by rw [tracks.size]; exact room,room,tracks.path.now.2⟩

theorem Tracks.replayOp (tracks : Tracks h bound mem m cache) (room : bound ≤ mem.size) (plain : bound ≤ mmioBase.toNat)
    (fresh : freshBlock mem blk.startPc = .ok blk) (pc : m.regs.pc = opPc blk.startPc i) (live : m.live = true)
    {ins : Instruction} (op : blk.ops[i]? = some ins) :
    ∃ c, Matches h bound mem (.ofStep (step h m)) c ∧ fastNext h (.block ⟨m,cache⟩ blk i) = some c := by
  have inside : m.regs.pc.toNat+128 ≤ bound := tracks.path.now.1 live
  have stored : VirtualSRAM.read32 m.scratchpad m.regs.pc = .ok ins.raw := by
    rw [read32_agree (tracks.agree room) (by omega),pc]
    exact freshBlock_words fresh op
  have fits : m.regs.pc.toNat+4 ≤ m.scratchpad.size := by
    have := tracks.size
    omega
  have word : m.scratchpad.word m.regs.pc.toNat = ins.raw := by
    simpa [VirtualSRAM.read32,fits] using stored
  have running : m.regs.halt = false := by
    simp only [Machine.live,Bool.and_eq_true,Bool.not_eq_true'] at live
    exact live.1
  have below : m.regs.pc < mmioBase := by
    rw [BitVec.lt_def]
    omega
  have same : step h m = replay h ins m := by
    rw [step_eq_replay tracks.quiet.verbose tracks.quiet.mmu tracks.quiet.masked running below fits,word]
  have next : runNext h (.loop m) = some (.ofStep (replay h ins m)) := by
    simp only [runNext,live,if_true,same]
  simp only [same,fastNext,op,live,if_true]
  cases ran : replay h ins m with
  | thrown err m' => exact ⟨_,.thrown,rfl⟩
  | undefined why => exact ⟨_,.undefined,rfl⟩
  | ok _ m' =>
    rw [ran] at next
    have replayed := tracks.quiet.replay ran
    have kept : Tracks h bound mem m' cache :=
      ⟨replayed.quiet,replayed.size.trans tracks.size,tracks.path.step next,tracks.fresh⟩
    refine ⟨_,?_,rfl⟩
    cases ends : ins.endsBlock with
    | true => exact .loop kept
    | false =>
      refine .block kept fresh ?_
      rw [replayed.pc ends,pc,opPc_next]

theorem Tracks.enter (tracks : Tracks h bound mem m cache) (room : bound ≤ mem.size) (plain : bound ≤ mmioBase.toNat)
    (live : m.live = true) :
    ∃ c, Matches h bound mem (.ofStep (step h m)) c ∧ Reaches₁ (fastNext h) (.loop ⟨m,cache⟩) c := by
  have inside : m.regs.pc.toNat+128 ≤ bound := tracks.path.now.1 live
  have small : bound < 2^32 := Nat.lt_of_le_of_lt plain mmioBase.isLt
  obtain ⟨blk,fresh⟩ := freshBlock_total room small inside
  obtain ⟨cache',translated,kept⟩ := tracks.fresh.translate (freshBlock_agree (tracks.agree room) small inside) fresh
  have start := freshBlock_startPc fresh
  have entered : fastNext h (.loop ⟨m,cache⟩) = some (.block ⟨m,cache'⟩ blk 0) := by
    simp only [fastNext,live,if_true,tracks.quiet.verbose,Bool.false_eq_true,if_false,translated]
  obtain ⟨ins,op⟩ := freshBlock_nonempty fresh
  have tracks' : Tracks h bound mem m cache' := ⟨tracks.quiet,tracks.size,tracks.path,kept⟩
  obtain ⟨c,related,next⟩ := tracks'.replayOp room plain (by rw [start]; exact fresh) (by rw [start,opPc_zero]) live op
  exact ⟨c,related,.head entered (.single next)⟩

theorem matches_respects (room : bound ≤ mem.size) (plain : bound ≤ mmioBase.toNat) :
    Respects (runNext h) (fastNext h) (Matches h bound mem) := by
  intro c d related
  cases related with
  | done => rfl
  | thrown => rfl
  | undefined => rfl
  | @loop m cache tracks =>
    cases live : m.live with
    | true =>
      simp only [runNext,live,if_true]
      exact tracks.enter room plain live
    | false =>
      simp only [runNext,live,Bool.false_eq_true,if_false]
      exact ⟨_,.done,.single (by simp only [fastNext,live,Bool.false_eq_true,if_false]; rfl)⟩
  | @block m cache blk i tracks fresh pc =>
    have leave : ∀ {c}, Reaches₁ (fastNext h) (.loop ⟨m,cache⟩) c → fastNext h (.block ⟨m,cache⟩ blk i) = some (.loop ⟨m,cache⟩) →
        Reaches₁ (fastNext h) (.block ⟨m,cache⟩ blk i) c := fun rest left => .head left rest
    cases live : m.live with
    | false =>
      simp only [runNext,live,Bool.false_eq_true,if_false]
      refine ⟨_,.done,leave (.single (by simp only [fastNext,live,Bool.false_eq_true,if_false]; rfl)) ?_⟩
      simp only [fastNext,live,Bool.false_eq_true,if_false]
      split <;> rfl
    | true =>
      simp only [runNext,live,if_true]
      cases op : blk.ops[i]? with
      | some ins =>
        obtain ⟨c,matched,next⟩ := tracks.replayOp room plain fresh pc live op
        exact ⟨c,matched,.single next⟩
      | none =>
        obtain ⟨c,matched,rest⟩ := tracks.enter room plain live
        exact ⟨c,matched,leave rest (by simp only [fastNext,op])⟩

end Simulation

-- Whatever `run` ends in, `run_fast` ends in, apart from the block cache.
theorem runFast_simulates_run (h : Host) (e : Emulator) (bound : Nat) (quiet : Quiet e.core)
    (fresh : FreshCache e.core.scratchpad e.blockCache) (room : bound ≤ e.core.scratchpad.size)
    (plain : bound ≤ mmioBase.toNat) (path : Always (runNext h) (Within bound e.core.scratchpad) (.loop e.core)) :
    (∀ m, Reaches (runNext h) (.loop e.core) (.done m) → ∃ cache, Reaches (fastNext h) (.loop e) (.done ⟨m,cache⟩)) ∧
    ∀ err m, Reaches (runNext h) (.loop e.core) (.thrown err m) →
      ∃ cache, Reaches (fastNext h) (.loop e) (.thrown err ⟨m,cache⟩) := by
  have start : Matches h bound e.core.scratchpad (.loop e.core) (.loop e) := .loop ⟨quiet,rfl,path,fresh⟩
  refine ⟨?_,?_⟩
  · intro m ran
    obtain ⟨d,related,fast⟩ := tr_reaches (matches_respects room plain) start ran
    cases related
    exact ⟨_,fast⟩
  · intro err m ran
    obtain ⟨d,related,fast⟩ := tr_reaches (matches_respects room plain) start ran
    cases related
    exact ⟨_,fast⟩

theorem runFast_simulates_run_halting : ∃ m cache,
    Reaches (runNext (.ieee .avx2)) (.loop (Emulator.programmed [Enc.movi 1 5,Enc.add 2 1 1,Enc.halt]).core) (.done m) ∧
    Reaches (fastNext (.ieee .avx2)) (.loop (.programmed [Enc.movi 1 5,Enc.add 2 1 1,Enc.halt])) (.done ⟨m,cache⟩) ∧
    m.regs.gpr 2 = 10 := by
  obtain ⟨d,ran,holds⟩ := reaches_of_any (by decide +kernel :
    (after (runNext (.ieee .avx2)) 4 (.loop (Emulator.programmed [Enc.movi 1 5,Enc.add 2 1 1,Enc.halt]).core)).any
      (fun | .done m => m.regs.gpr 2 == 10 | _ => false) = true)
  cases d with
  | done m =>
    obtain ⟨cache,fast⟩ := (runFast_simulates_run (.ieee .avx2) (.programmed [Enc.movi 1 5,Enc.add 2 1 1,Enc.halt]) 256
      ⟨rfl,rfl,by decide,by decide⟩ (.empty _) (by decide) (by decide)
      (always_of_settles (by decide +kernel :
        settles _ (Within 256 _) 6 _ = true))).1 m ran
    exact ⟨m,cache,ran,fast,by simpa using holds⟩
  | loop m => cases holds
  | thrown e m => cases holds
  | undefined why => cases holds

end Novium
