import Novium.Emulator
import Novium.Execution

namespace Novium
open Storage Effects

-- A fetch that succeeds advances the pc and may touch the TLB or the timer; one
-- that faults has entered the trap and hands out a NOP.
inductive FetchEffect (m : Machine) : Instruction → Machine → Prop where
  | word (timer : TimerDevice) : MMU.Kept m.mmu u → FetchEffect m i {m.advancePc with mmu := u,timer := timer}
  | fault : m.mmu.enabled = true →
      m.mmu.translate (some m.scratchpad) (some m.csr) m.regs.pc false true (some .none) = some ⟨u,cause,none⟩ →
      FetchEffect m ⟨Enc.nop⟩ (({m with mmu := u} : Machine).enterTrap (fetchFaultTrap m.regs.pc))

theorem fetch_effect (m : Machine) :
    (fetch m).Sat (fun i m' => FetchEffect m i m') (fun _ m' => m' = m) (fun _ => True) := by
  unfold fetch
  simp only [Exec.sat_bind,Exec.get_apply,Outcome.sat_ok,Exec.ite_apply]
  split
  · rename_i on
    obtain ⟨⟨u,cause,pa⟩,translated,kept⟩ :=
      MMU.translate_total m.mmu (some m.scratchpad) (some m.csr) m.regs.pc false true .none
    simp only [Handlers.translate,Exec.sat_bind,Exec.get_apply,Outcome.sat_ok,translated,Exec.ofOption_some,
      Exec.modify_apply,Exec.pure_apply]
    cases pa with
    | none => exact .fault on translated
    | some pa =>
      simp only [Exec.ite_apply]
      split
      · exact .word m.timer kept
      · trivial
  · rw [Exec.sat_bind]
    refine Handlers.sat_busRead (fun _ => ?_) (fun _ _ => rfl) (fun _ => trivial)
    exact .word _ ⟨rfl,rfl⟩

inductive CycleEffect (h : Host) (m : Machine) : Machine → Prop where
  | ran : fetch (saveBefore m) = .ok i pre → execute h i pre = .ok cycles after →
      CycleEffect h m (logStep m.regs.pc i cycles after.tickPeripherals)

inductive CycleStopped (h : Host) (m : Machine) : Machine → Prop where
  | fetch : CycleStopped h m (saveBefore m)
  | execute : Novium.fetch (saveBefore m) = .ok i pre → execute h i pre = .thrown err m' → CycleStopped h m m'

theorem cycle_effect (h : Host) (m : Machine) :
    (cycle h m).Sat (fun _ m' => CycleEffect h m m') (fun _ m' => CycleStopped h m m') (fun _ => True) := by
  unfold cycle
  simp only [Exec.sat_bind,Exec.get_apply,Outcome.sat_ok,Exec.modify_apply]
  have effect := fetch_effect (saveBefore m)
  cases fetched : fetch (saveBefore m) with
  | undefined why => trivial
  | thrown err pre =>
    rw [fetched] at effect
    cases effect
    exact .fetch
  | ok i pre =>
    simp only [Outcome.sat_ok]
    cases ran : execute h i pre with
    | ok cycles after => exact .ran fetched ran
    | thrown err after => exact .execute fetched ran
    | undefined why => trivial

theorem fetch_ok {i : Instruction} {m pre : Machine} (fetched : fetch m = .ok i pre) : FetchEffect m i pre := by
  have effect := fetch_effect m
  rw [fetched] at effect
  exact effect

theorem fetch_plain {m : Machine} (off : m.mmu.enabled = false) (below : m.regs.pc < mmioBase)
    (inside : m.regs.pc.toNat+4 ≤ m.scratchpad.size) :
    fetch m = .ok ⟨m.scratchpad.word m.regs.pc.toNat⟩ m.advancePc := by
  simp [fetch,Exec.bind_apply,off,Bus.read32,Machine.deviceAt_below below,liftExcept,VirtualSRAM.read32,inside]

theorem fetched_keeps {α : Type} (view : Machine → α) (blind : ∀ (m : Machine) csr intc pc u timer lastPc lastGpr,
      view {m with csr := csr,intc := intc,regs := {m.regs with pc := pc},mmu := u,timer := timer,lastPc := lastPc,lastGpr := lastGpr} = view m)
    {i : Instruction} {m pre : Machine} (fetched : fetch (saveBefore m.deliverInterrupt) = .ok i pre) : view pre = view m := by
  have delivered := m.deliverInterrupt_keeps view fun m csr intc pc => blind m csr intc pc m.mmu m.timer m.lastPc m.lastGpr
  have saved := m.deliverInterrupt.saveBefore_keeps view fun m pc gpr => blind m m.csr m.intc m.regs.pc m.mmu m.timer pc gpr
  rw [← delivered,← saved]
  cases fetch_ok fetched with
  | word timer => exact blind (saveBefore m.deliverInterrupt) _ _ _ _ _ _ _
  | fault => exact blind (saveBefore m.deliverInterrupt) _ _ _ _ _ _ _

-- With MIE clear nothing is pending, whatever the lines say.
theorem pendingInterrupt_masked {m : Machine} (masked : m.csr.mstatusMie = false) : m.pendingInterrupt = none := by
  have off : m.csr.mstatus.getLsbD 3 = false := masked
  unfold Machine.pendingInterrupt InterruptController.pendingInterrupt InterruptController.interruptPending
  rw [off]
  rfl

theorem deliverInterrupt_masked {m : Machine} (masked : m.csr.mstatusMie = false) : m.deliverInterrupt = m := by
  simp only [Machine.deliverInterrupt,pendingInterrupt_masked masked]

theorem step_halted (h : Host) {m : Machine} (halted : m.regs.halt = true) : step h m = .ok () m := by
  simp [step,Exec.bind_apply,halted]

theorem step_running (h : Host) {m : Machine} (running : m.regs.halt = false) : step h m = cycle h m.deliverInterrupt := by
  simp [step,Exec.bind_apply,running]

theorem step_fetched (h : Host) {i : Instruction} {m pre : Machine} (running : m.regs.halt = false)
    (fetched : fetch (saveBefore m.deliverInterrupt) = .ok i pre) : step h m = (do
      let cycles ← execute h i
      Exec.modify Machine.tickPeripherals
      Exec.modify (logStep m.deliverInterrupt.regs.pc i cycles) : Emu Unit) pre := by
  rw [step_running h running]
  unfold cycle
  rw [Exec.bind_ok (Exec.get_apply _),Exec.bind_ok (Exec.modify_apply _ _),Exec.bind_ok fetched]

-- The body of the replay loop of `run_fast`, in the same terms.
theorem replay_effect (h : Host) (ins : Instruction) (m : Machine) :
    (replay h ins m).Sat (fun _ m' => ∃ after, m' = after.tickPeripherals ∧
        (Executed ins m.advancePc after ∨ Trapped ins m.advancePc after))
      (fun _ m' => Stopped m.advancePc m') (fun _ => True) := by
  simp only [replay,Exec.sat_bind,Exec.modify_apply,Outcome.sat_ok]
  refine (execute_effect h ins m.advancePc).mono ?_ (fun _ _ stopped => stopped) (fun _ _ => trivial)
  intro _ after effect
  exact ⟨after,rfl,effect⟩

-- All that one turn of the loop of `run` can do.
inductive RunMoves (h : Host) : RunConfig → RunConfig → Prop where
  | stepped (m m' : Machine) : m.live = true → step h m = .ok () m' → RunMoves h (.loop m) (.loop m')
  | threw (m m' : Machine) (err : EmulatorError) : m.live = true → step h m = .thrown err m' → RunMoves h (.loop m) (.thrown err m')
  | stuck (m : Machine) (why : Hazard) : m.live = true → step h m = .undefined why → RunMoves h (.loop m) (.undefined why)
  | stopped (m : Machine) : m.live = false → RunMoves h (.loop m) (.done m.flushUart)

theorem runNext_moves {h : Host} {c d : RunConfig} (next : runNext h c = some d) : RunMoves h c d := by
  cases c with
  | done m => cases next
  | thrown err m => cases next
  | undefined why => cases next
  | loop m =>
    simp only [runNext,Option.some.injEq] at next
    subst next
    cases live : m.live with
    | false => exact .stopped m live
    | true =>
      cases ran : step h m with
      | ok u m' => exact .stepped m m' live ran
      | thrown err m' => exact .threw m m' err live ran
      | undefined why => exact .stuck m why live ran

-- All that one move of `run_fast` can do.
inductive FastMoves (h : Host) : FastConfig → FastConfig → Prop where
  | traced (e : Emulator) : e.core.live = true → e.core.verbose = true →
      FastMoves h (.loop e) (.ofReplay e.blockCache .loop (step h e.core))
  | entered (e : Emulator) (blk : DecodedBlock) (cache : BlockCache) : e.core.live = true → e.core.verbose = false →
      e.blockCache.translate e.core.scratchpad e.core.regs.pc = (.ok blk,cache) →
      FastMoves h (.loop e) (.block ⟨e.core,cache⟩ blk 0)
  | unread (e : Emulator) (err : EmulatorError) (cache : BlockCache) : e.core.live = true → e.core.verbose = false →
      e.blockCache.translate e.core.scratchpad e.core.regs.pc = (.error err,cache) →
      FastMoves h (.loop e) (.thrown err ⟨e.core,cache⟩)
  | stopped (e : Emulator) : e.core.live = false → FastMoves h (.loop e) (.done ⟨e.core.flushUart,e.blockCache⟩)
  | replayed (e : Emulator) (blk : DecodedBlock) (i : Nat) (ins : Instruction) : blk.ops[i]? = some ins → e.core.live = true →
      FastMoves h (.block e blk i) (.ofReplay e.blockCache
        (fun e' => if ins.endsBlock then .loop e' else .block e' blk (i+1)) (replay h ins e.core))
  | ended (e : Emulator) (blk : DecodedBlock) (i : Nat) : blk.ops[i]? = none → FastMoves h (.block e blk i) (.loop e)
  | left (e : Emulator) (blk : DecodedBlock) (i : Nat) (ins : Instruction) : blk.ops[i]? = some ins → e.core.live = false →
      FastMoves h (.block e blk i) (.loop e)

theorem fastNext_moves {h : Host} {c d : FastConfig} (next : fastNext h c = some d) : FastMoves h c d := by
  cases c with
  | done e => cases next
  | thrown err e => cases next
  | undefined why => cases next
  | loop e =>
    simp only [fastNext,Option.some.injEq] at next
    subst next
    cases live : e.core.live with
    | false => exact .stopped e live
    | true =>
      cases verbose : e.core.verbose with
      | true => exact .traced e live verbose
      | false =>
        simp only [if_true,Bool.false_eq_true,if_false]
        split
        · exact .entered e _ _ live verbose (by assumption)
        · exact .unread e _ _ live verbose (by assumption)
  | block e blk i =>
    simp only [fastNext,Option.some.injEq] at next
    subst next
    cases op : blk.ops[i]? with
    | none => exact .ended e blk i op
    | some ins =>
      cases live : e.core.live with
      | false => exact .left e blk i ins op live
      | true => exact .replayed e blk i ins op live

structure Visible where
  regs : RegisterFile
  scratchpad : ByteStore
  mainRam : ByteStore
  csr : CSRFile

def Machine.visible (m : Machine) : Visible := ⟨m.regs,m.scratchpad,m.mainRam,m.csr⟩

def Visible.enterTrap (v : Visible) (t : Trap) : Visible :=
  {v with
    regs := {v.regs with pc := (v.csr.mtvec &&& ~~~(3#64)).truncate 32}
    csr := InterruptController.takeTrapCsr v.csr t}

theorem visible_enterTrap (m : Machine) (t : Trap) : (m.enterTrap t).visible = m.visible.enterTrap t := by
  have regs := m.enterTrap_regs t
  simp only [Machine.visible,Visible.enterTrap,regs,Machine.trapVector]
  rfl

theorem visible_saveBefore (m : Machine) : (saveBefore m).visible = m.visible :=
  Machine.saveBefore_keeps Machine.visible (fun _ _ _ => rfl) m

theorem visible_logStep (pc : Word) (i : Instruction) (cycles : Word) (m : Machine) :
    (logStep pc i cycles m).visible = m.visible := Machine.logStep_keeps Machine.visible (fun _ _ => rfl) pc i cycles m

theorem visible_tick (m : Machine) : m.tickPeripherals.visible = m.visible :=
  Machine.tickPeripherals_keeps Machine.visible (fun _ => rfl) m

-- What a trap entry leaves its mark on.
def Machine.ledger (m : Machine) : DWord × CSRFile := (m.intc.trapCount,m.csr)

def trapEntry (l : DWord × CSRFile) (t : Trap) : DWord × CSRFile := (l.1+1,InterruptController.takeTrapCsr l.2 t)

theorem ledger_of_control {m m' : Machine} (same : m'.control = m.control) : m'.ledger = m.ledger :=
  Prod.ext (congrArg InterruptController.trapCount (congrArg Control.intc same)) (congrArg Control.csr same)

theorem ledger_saveBefore (m : Machine) : (saveBefore m).ledger = m.ledger :=
  Machine.saveBefore_keeps Machine.ledger (fun _ _ _ => rfl) m

theorem ledger_logStep (pc : Word) (i : Instruction) (cycles : Word) (m : Machine) :
    (logStep pc i cycles m).ledger = m.ledger := Machine.logStep_keeps Machine.ledger (fun _ _ => rfl) pc i cycles m

theorem ledger_tick (m : Machine) : m.tickPeripherals.ledger = m.ledger := by
  refine Machine.tickPeripherals_keeps Machine.ledger ?_ m
  intro m
  unfold Machine.ledger Machine.tickOnce
  dsimp only
  split <;> rfl

theorem Trapped.ledger {i : Instruction} {m m' : Machine} (trapped : Trapped i m m') :
    ∃ u t, TrapSite m i u t ∧ m'.ledger = trapEntry m.ledger t := by
  obtain ⟨u,t,_,_,site,rfl⟩ := trapped
  exact ⟨u,t,site,rfl⟩

theorem FetchEffect.ledger {i : Instruction} {m m' : Machine} (fetched : FetchEffect m i m') :
    m'.ledger = m.ledger ∨ (i = ⟨Enc.nop⟩ ∧ m'.ledger = trapEntry m.ledger (fetchFaultTrap m.regs.pc)) := by
  cases fetched with
  | word => exact .inl rfl
  | fault => exact .inr ⟨rfl,rfl⟩

theorem nop_traps_never {m : Machine} {u : MMU} {t : Trap} : ¬ TrapSite m ⟨Enc.nop⟩ u t := by
  have known : (⟨Enc.nop⟩ : Instruction).opcode = some .nop := by decide
  intro site
  cases site with
  | illegal unknown _ =>
    rw [known] at unknown
    cases unknown
  | fault opcode site =>
    rw [known] at opcode
    cases opcode
    cases site with
    | dmaDest kind => simp at kind

-- The synchronous traps a cycle can take: none, or exactly one.
inductive CycleTraps (m : Machine) : Machine → Prop where
  | none : m'.ledger = m.ledger → CycleTraps m m'
  | one (t : Trap) : t.isInterrupt = false → m'.ledger = trapEntry m.ledger t → CycleTraps m m'

theorem TrapSite.synchronous {m : Machine} {i : Instruction} {u : MMU} {t : Trap} (site : TrapSite m i u t) :
    t.isInterrupt = false := by
  cases site with
  | illegal => rfl
  | fault => rfl

theorem CycleEffect.traps {h : Host} {m m' : Machine} (effect : CycleEffect h m m') : CycleTraps m m' := by
  cases effect with
  | @ran i pre cycles after fetched ran =>
    have before : (saveBefore m).ledger = m.ledger := ledger_saveBefore m
    have last : (logStep m.regs.pc i cycles after.tickPeripherals).ledger = after.ledger := by
      rw [ledger_logStep,ledger_tick]
    rcases execute_ok ran with executed | trapped
    · have same := ledger_of_control executed.control
      rcases (fetch_ok fetched).ledger with kept | ⟨_,faulted⟩
      · exact .none (by rw [last,same,kept,before])
      · exact .one _ rfl (by rw [last,same,faulted,before])
    · obtain ⟨u,t,site,entered⟩ := trapped.ledger
      rcases (fetch_ok fetched).ledger with kept | ⟨rfl,_⟩
      · exact .one t site.synchronous (by rw [last,entered,kept,before])
      · exact absurd site nop_traps_never

theorem CycleStopped.traps {h : Host} {m m' : Machine} (stopped : CycleStopped h m m') : CycleTraps m m' := by
  have before : (saveBefore m).ledger = m.ledger := ledger_saveBefore m
  cases stopped with
  | fetch => exact .none before
  | execute fetched ran =>
    have same := ledger_of_control (execute_thrown ran).control
    rcases (fetch_ok fetched).ledger with kept | ⟨_,faulted⟩
    · exact .none (by rw [same,kept,before])
    · exact .one _ rfl (by rw [same,faulted,before])

end Novium
