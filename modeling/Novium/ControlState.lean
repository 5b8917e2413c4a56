import Novium.Interrupts

namespace Novium
open Storage Effects Relation

-- One call of `step`, whether it returns or throws.
inductive Stepped (h : Host) (m : Machine) : Machine → Prop where
  | returned : step h m = .ok () m' → Stepped h m m'
  | thrown : step h m = .thrown err m' → Stepped h m m'

variable {h : Host} {m m' : Machine}

-- What trap entry may do to the CSR file, and nothing else.
structure CsrKept (csr csr' : CSRFile) : Prop where
  other : ∀ addr, addr ∉ [csrMepc,csrMcause,csrMtval,csrMstatus] → csr'.read addr = csr.read addr
  mstatus : ∀ b, b ∉ [3,7,11,12] → csr'.mstatus.getLsbD b = csr.mstatus.getLsbD b
  priv : csr'.priv = csr.priv ∨ csr'.priv = .machine

theorem CsrKept.refl (csr : CSRFile) : CsrKept csr csr := ⟨fun _ _ => rfl,fun _ _ => rfl,.inl rfl⟩

theorem CsrKept.trans {a b c : CSRFile} (ab : CsrKept a b) (bc : CsrKept b c) : CsrKept a c := by
  refine ⟨fun addr apart => (bc.other addr apart).trans (ab.other addr apart),
    fun b apart => (bc.mstatus b apart).trans (ab.mstatus b apart),?_⟩
  rcases bc.priv with same | machine
  · rw [same]
    exact ab.priv
  · exact .inr machine

namespace InterruptController

-- The bits of MSTATUS that trap entry clears or sets: MIE, MPIE and MPP.
theorem trapMstatus_other (s : DWord) (p : PrivilegeLevel) (b : Nat) (apart : b ∉ [3,7,11,12]) :
    (trapMstatus s p).getLsbD b = s.getLsbD b := by
  by_cases inside : b < 64
  · have cleared : ∀ b < 64, b ∉ [3,7,11,12] →
        (((1#64 <<< 7) ||| (1#64 <<< 3) ||| (3#64 <<< 11)).getLsbD b = false ∧ (1#64 <<< 7).getLsbD b = false) := by decide
    have field : ∀ p : BitVec 2, ∀ b < 64, b ∉ [3,7,11,12] → (p.zeroExtend 64 <<< 11).getLsbD b = false := by decide
    obtain ⟨mask,mpie⟩ := cleared b inside apart
    unfold trapMstatus
    split
    · simp only [BitVec.getLsbD_or,BitVec.getLsbD_and,BitVec.getLsbD_not,mask,mpie,field p.bits b inside apart,inside]
      simp
    · simp only [BitVec.getLsbD_or,BitVec.getLsbD_and,BitVec.getLsbD_not,mask,field p.bits b inside apart,inside]
      simp
  · rw [BitVec.getLsbD_of_ge _ _ (by omega),BitVec.getLsbD_of_ge _ _ (by omega)]

theorem takeTrapCsr_kept (csr : CSRFile) (t : Trap) : CsrKept csr (takeTrapCsr csr t) := by
  refine ⟨fun addr apart => takeTrapCsr_other csr t addr apart,?_,.inr rfl⟩
  intro b apart
  rw [takeTrapCsr_mstatus,trapMstatus_other _ _ _ apart]

end InterruptController

-- The traps of one call: at most an interrupt and then a synchronous trap.
inductive Entries : DWord × CSRFile → DWord × CSRFile → Prop where
  | none : Entries l l
  | one (t : Trap) : Entries l (trapEntry l t)
  | two (t s : Trap) : Entries l (trapEntry (trapEntry l t) s)

theorem Entries.kept {l l' : DWord × CSRFile} (entries : Entries l l') : CsrKept l.2 l'.2 := by
  cases entries with
  | none => exact .refl _
  | one t => exact InterruptController.takeTrapCsr_kept _ t
  | two t s => exact (InterruptController.takeTrapCsr_kept _ t).trans (InterruptController.takeTrapCsr_kept _ s)

theorem Entries.masks {l l' : DWord × CSRFile} (entries : Entries l l') :
    l' = l ∨ (l'.1 ≠ l.1 ∧ l'.2.mstatusMie = false) := by
  have masked : ∀ csr t, (InterruptController.takeTrapCsr csr t).mstatusMie = false := by
    intro csr t
    rw [CSRFile.mstatusMie,InterruptController.takeTrapCsr_mstatus,InterruptController.trapMstatus_mie]
  cases entries with
  | none => exact .inl rfl
  | one t => exact .inr ⟨by simp [trapEntry],masked _ _⟩
  | two t s => exact .inr ⟨by simp [trapEntry,BitVec.add_assoc],masked _ _⟩

theorem deliverInterrupt_entries (m : Machine) :
    m.deliverInterrupt.ledger = m.ledger ∨ ∃ t, m.deliverInterrupt.ledger = trapEntry m.ledger t := by
  cases pending : m.pendingInterrupt with
  | none => exact .inl (by simp only [Machine.deliverInterrupt,pending])
  | some t => exact .inr ⟨t,deliverInterrupt_ledger pending⟩

theorem Stepped.cases (stepped : Stepped h m m') : m' = m ∨
    CycleEffect h m.deliverInterrupt m' ∨ CycleStopped h m.deliverInterrupt m' := by
  cases halt : m.regs.halt with
  | true =>
    have idle := step_halted h halt
    cases stepped with
    | returned ran =>
      rw [idle] at ran
      cases ran
      exact .inl rfl
    | thrown ran =>
      rw [idle] at ran
      cases ran
  | false =>
    have effect := cycle_effect h m.deliverInterrupt
    rw [← step_running h halt] at effect
    cases stepped with
    | returned ran =>
      rw [ran] at effect
      exact .inr (.inl effect)
    | thrown ran =>
      rw [ran] at effect
      exact .inr (.inr effect)

theorem Stepped.entries (stepped : Stepped h m m') : Entries m.ledger m'.ledger := by
  have join : CycleTraps m.deliverInterrupt m' → Entries m.ledger m'.ledger := by
    intro traps
    rcases deliverInterrupt_entries m with same | ⟨t,entered⟩
    · cases traps with
      | none kept =>
        rw [kept,same]
        exact .none
      | one s _ trapped =>
        rw [trapped,same]
        exact .one s
    · cases traps with
      | none kept =>
        rw [kept,entered]
        exact .one t
      | one s _ trapped =>
        rw [trapped,entered]
        exact .two t s
  rcases stepped.cases with rfl | ran | stopped
  · exact .none
  · exact join ran.traps
  · exact join stopped.traps

theorem TrapSite.kept {i : Instruction} {u : MMU} {t : Trap} (site : TrapSite m i u t) : MMU.Kept m.mmu u := by
  have twice : ∀ dest src, MMU.Kept m.mmu ((m.afterResolve dest true).resolved src false).2 := by
    intro dest src
    exact (m.resolved_kept dest true).trans ((m.afterResolve dest true).resolved_kept src false)
  cases site with
  | illegal => exact ⟨rfl,rfl⟩
  | fault _ site =>
    cases site with
    | load => exact m.resolved_kept _ _
    | store => exact m.resolved_kept _ _
    | dmaDest => exact twice _ _
    | dmaLoadSrc => exact twice _ _
    | dmaStoreSrc => exact twice _ _

theorem kept_of_control (same : m'.control = m.control) : MMU.Kept m.mmu m'.mmu :=
  ⟨congrArg Control.mmuEnabled same,congrArg Control.simpleMap same⟩

theorem FetchEffect.mmuKept {i : Instruction} (fetched : FetchEffect m i m') : MMU.Kept m.mmu m'.mmu := by
  cases fetched with
  | word timer kept => exact kept
  | fault _ translated => exact (MMU.translate_inv translated).1

theorem Trapped.mmuKept {i : Instruction} (trapped : Trapped i m m') : MMU.Kept m.mmu m'.mmu := by
  obtain ⟨u,t,_,_,site,rfl⟩ := trapped
  exact site.kept

theorem mmu_saveBefore (m : Machine) : (saveBefore m).mmu = m.mmu := Machine.saveBefore_keeps Machine.mmu (fun _ _ _ => rfl) m

theorem mmu_logStep (pc : Word) (i : Instruction) (cycles : Word) (m : Machine) : (logStep pc i cycles m).mmu = m.mmu :=
  Machine.logStep_keeps Machine.mmu (fun _ _ => rfl) pc i cycles m

theorem mmu_deliver (m : Machine) : m.deliverInterrupt.mmu = m.mmu := Machine.deliverInterrupt_keeps Machine.mmu (fun _ _ _ _ => rfl) m

theorem mmu_tick (m : Machine) : m.tickPeripherals.mmu = m.mmu :=
  Machine.tickPeripherals_keeps Machine.mmu (fun _ => rfl) m

theorem fetched_mmuKept {i : Instruction} {pre : Machine} (fetched : fetch (saveBefore m.deliverInterrupt) = .ok i pre) :
    MMU.Kept m.mmu pre.mmu := by
  have kept := (fetch_ok fetched).mmuKept
  rwa [mmu_saveBefore,mmu_deliver] at kept

theorem Stepped.mmuKept (stepped : Stepped h m m') : MMU.Kept m.mmu m'.mmu := by
  rcases stepped.cases with rfl | ran | stopped
  · exact ⟨rfl,rfl⟩
  · cases ran with
    | ran fetched executed =>
      rw [mmu_logStep,mmu_tick]
      rcases execute_ok executed with effect | trapped
      · exact (fetched_mmuKept fetched).trans (kept_of_control effect.control)
      · exact (fetched_mmuKept fetched).trans trapped.mmuKept
  · cases stopped with
    | fetch =>
      rw [mmu_saveBefore,mmu_deliver]
      exact ⟨rfl,rfl⟩
    | execute fetched threw => exact (fetched_mmuKept fetched).trans (kept_of_control (execute_thrown threw).control)

-- What a guest can do to the control state of the machine it runs on.
structure ControlKept (m m' : Machine) : Prop where
  csr : CsrKept m.csr m'.csr
  mmu : MMU.Kept m.mmu m'.mmu

theorem run_keeps_control (path : ReflTransGen (Stepped h) m m') : ControlKept m m' := by
  induction path with
  | refl => exact ⟨.refl _,⟨rfl,rfl⟩⟩
  | tail _ stepped ih => exact ⟨ih.csr.trans stepped.entries.kept,ih.mmu.trans stepped.mmuKept⟩

-- Interrupts that are off stay off: the guest has no way to write MSTATUS.
theorem run_keeps_masked (masked : m.csr.mstatusMie = false) (path : ReflTransGen (Stepped h) m m') :
    m'.csr.mstatusMie = false := by
  induction path with
  | refl => exact masked
  | tail _ stepped ih =>
    rcases stepped.entries.masks with same | ⟨_,off⟩
    · have csr : _ = _ := congrArg (fun l => CSRFile.mstatusMie l.2) same
      exact csr.trans ih
    · exact off

theorem Stepped.uninterrupted (masked : m.csr.mstatusMie = false) (stepped : Stepped h m m') : ¬ InterruptTaken m m' := by
  have idle := deliverInterrupt_masked masked
  have traps := stepped.cases
  rw [idle] at traps
  rcases traps with rfl | ran | stopped
  · exact (CycleTraps.none rfl).uninterrupted
  · exact ran.traps.uninterrupted
  · exact stopped.traps.uninterrupted

-- From any state, whatever the guest runs. A step that takes a trap shows it in
-- the trap count, and one that does not leaves the CSR file exactly as it was.
theorem guest_controls_by_trapping (h : Host) (m : Machine) :
    (∀ m', ReflTransGen (Stepped h) m m' → ControlKept m m') ∧
    ∀ before after, ReflTransGen (Stepped h) m before → Stepped h before after →
      (after.intc.trapCount = before.intc.trapCount → after.csr = before.csr) ∧
      (after.intc.trapCount ≠ before.intc.trapCount → ∀ later, ReflTransGen (Stepped h) after later →
        later.csr.mstatusMie = false ∧ later.pendingInterrupt = none ∧
        ∀ next, Stepped h later next → ¬ InterruptTaken later next) := by
  refine ⟨fun m' path => run_keeps_control path,?_⟩
  intro before after _ stepped
  rcases stepped.entries.masks with same | ⟨counted,masked⟩
  · exact ⟨fun _ => congrArg Prod.snd same,fun counted => absurd (congrArg Prod.fst same) counted⟩
  · refine ⟨fun unchanged => absurd unchanged counted,?_⟩
    intro _ later path
    have off := run_keeps_masked masked path
    exact ⟨off,pendingInterrupt_masked off,fun next taken => taken.uninterrupted off⟩

end Novium
