import Novium.ControlState
import Novium.Lockstep

namespace Novium
open Storage Effects Relation

-- Everything in a machine but its timing: the profiler, the accumulator, the timer,
-- the interrupt lines, the traffic on the fabrics, the profile and the trace.
structure Architecture where
  scratchpad : ByteStore
  mainRam : ByteStore
  regs : RegisterFile
  csr : CSRFile
  mmu : MMU
  uart : UartDevice
  debugger : Debugger
  accel : Bool
  verbose : Bool
  lastPc : Word
  lastGpr : Fin numGpr → Word
  shared : Option ByteStore
  externalId : Word
  trapCount : DWord
  fabrics : List InterconnectConfig

def Machine.architecture (m : Machine) : Architecture :=
  ⟨m.scratchpad,m.mainRam,m.regs,m.csr,m.mmu,m.uart,m.debugger,m.accel,m.verbose,m.lastPc,m.lastGpr,m.shared,
    m.intc.externalId,m.intc.trapCount,[m.axi.cfg,m.pcie.cfg,m.cxi.cfg,m.interconnect.cfg]⟩

def TimerWindow (addr : Word) : Prop := mmioBase ≤ addr ∧ addr < mmioBase+0x1000

instance (addr : Word) : Decidable (TimerWindow addr) := inferInstanceAs (Decidable (mmioBase ≤ addr ∧ addr < mmioBase+0x1000))

theorem deviceAt_timer {m : Machine} {addr : Word} (found : m.deviceAt addr = some .timer) : TimerWindow addr := by
  obtain ⟨d,listed,kind,inside⟩ := Machine.deviceAt_some found
  rcases Machine.mem_devices.mp listed with rfl | rfl | ⟨_,rfl⟩
  · exact inside
  · cases kind
  · cases kind

-- Interrupts are masked, so the lines that timing moves are never looked at.
structure SameArchitecture (m n : Machine) : Prop where
  same : n.architecture = m.architecture
  masked : m.csr.mstatusMie = false

theorem architecture_tick (m : Machine) : m.tickPeripherals.architecture = m.architecture := by
  refine Machine.tickPeripherals_keeps Machine.architecture ?_ m
  intro m
  unfold Machine.tickOnce
  dsimp only
  split <;> rfl

theorem Interconnect.issue_cfg {x y : Interconnect} {t : Transaction} {cycle : DWord} {accepted : Bool}
    (issued : x.issue t cycle = some (y,accepted)) : y.cfg = x.cfg := by
  unfold Interconnect.issue at issued
  dsimp only at issued
  split at issued
  · cases issued
    rfl
  · split at issued
    · cases issued
    · cases issued
      rfl

namespace SameArchitecture
variable {m n : Machine}

theorem update {m' n' : Machine} (related : SameArchitecture m n) (f : Architecture → Architecture)
    (left : m'.architecture = f m.architecture) (right : n'.architecture = f n.architecture) (csr : m'.csr = m.csr) :
    SameArchitecture m' n' :=
  ⟨by rw [left,right,related.same],by rw [csr]; exact related.masked⟩

theorem issueAxi (related : SameArchitecture m n) (addr bytes : Word) (isWrite : Bool) :
    Outcome.Agree (Excused false) (Timing false) SameArchitecture (Handlers.issueAxi addr bytes isWrite m)
      (Handlers.issueAxi addr bytes isWrite n) := by
  have moved : ∀ {m n : Machine} {x y : Interconnect}, SameArchitecture m n → x.cfg = m.axi.cfg → y.cfg = n.axi.cfg →
      SameArchitecture {m with axi := x} {n with axi := y} := by
    intro m n x y related left right
    refine related.update id ?_ ?_ rfl
    · simp only [Machine.architecture,left,id]
    · simp only [Machine.architecture,right,id]
  rw [Handlers.issueAxi_apply,Handlers.issueAxi_apply]
  cases left : m.axi.issue ⟨0,addr,bytes,isWrite,m.profiler.cycleCount,0,.axi4⟩ m.profiler.cycleCount with
  | none => exact .left ⟨rfl,rfl⟩
  | some first =>
    cases right : n.axi.issue ⟨0,addr,bytes,isWrite,n.profiler.cycleCount,0,.axi4⟩ n.profiler.cycleCount with
    | none => exact .right ⟨rfl,rfl⟩
    | some second =>
      refine .ok (fun impossible => by cases impossible) ?_
      exact moved related (Interconnect.issue_cfg left) (Interconnect.issue_cfg right)

theorem lockstep : Lockstep false (fun addr => ¬ TimerWindow addr) (fun _ => True) SameArchitecture where
  regs related := congrArg Architecture.regs related.same
  withRegs related r := related.update (fun a => {a with regs := r}) rfl rfl rfl
  scratchpad related := congrArg Architecture.scratchpad related.same
  withScratchpad related s := related.update (fun a => {a with scratchpad := s}) rfl rfl rfl
  mainRam related := congrArg Architecture.mainRam related.same
  withMainRam related s := related.update (fun a => {a with mainRam := s}) rfl rfl rfl
  enabled related := congrArg (fun a => a.mmu.enabled) related.same
  translation related _ := ⟨congrArg Architecture.mmu related.same,congrArg Architecture.csr related.same⟩
  withMmu related _ u _ := related.update (fun a => {a with mmu := u}) rfl rfl rfl
  vector related := congrArg (fun a => a.csr.mtvec) related.same
  takeTrap related t := by
    refine ⟨congrArg (fun a : Architecture => {a with
      csr := InterruptController.takeTrapCsr a.csr t,trapCount := a.trapCount+1}) related.same,?_⟩
    change (InterruptController.takeTrapCsr _ t).mstatusMie = false
    rw [CSRFile.mstatusMie,InterruptController.takeTrapCsr_mstatus,InterruptController.trapMstatus_mie]
  weight _ _ _ := fun impossible => by cases impossible
  issue := issueAxi
  stall := by
    intro m n a b related _
    unfold stallOn
    cases a <;> cases b <;> exact related.update id rfl rfl rfl
  busRead related outside := by
    refine busRead_agree related (.of_shared (congrArg Architecture.shared related.same)) (congrArg Architecture.scratchpad related.same)
      (congrArg (fun a => a.uart.readReg) related.same) ?_
    intro found
    exact absurd (deviceAt_timer found) outside
  busWrite related _ value := by
    refine busWrite_agree related (.of_shared (congrArg Architecture.shared related.same)) (congrArg Architecture.scratchpad related.same)
      (fun s => related.update (fun a => {a with scratchpad := s}) rfl rfl rfl)
      (fun _ s => related.update (fun a => {a with shared := s}) rfl rfl rfl)
      (fun _ => related.update id rfl rfl rfl) ?_
    intro offset
    exact related.update (fun a => {a with uart := (a.uart.writeReg offset value).1}) rfl rfl rfl
  account related _ _ _ := related.update id rfl rfl rfl
  tick := by
    intro m n related
    have csr : m.tickPeripherals.csr = m.csr := congrArg Architecture.csr (architecture_tick m)
    exact related.update id (architecture_tick m) (architecture_tick n) csr
  deliver := by
    intro m n related
    have csr : n.csr = m.csr := congrArg Architecture.csr related.same
    rw [deliverInterrupt_masked related.masked,deliverInterrupt_masked (by rw [csr]; exact related.masked)]
    exact related
  save := by
    intro m n related
    have verbose : n.verbose = m.verbose := congrArg Architecture.verbose related.same
    unfold saveBefore
    by_cases traced : m.verbose = true
    · rw [if_pos traced,if_pos (verbose.trans traced)]
      exact related.update (fun a => {a with lastPc := a.regs.pc,lastGpr := readAllGpr a.regs}) rfl rfl rfl
    · rw [if_neg traced,if_neg (by rwa [verbose])]
      exact related
  log := by
    intro m n a b related _ pc i
    unfold logStep
    split <;> split <;> exact related.update id rfl rfl rfl
  verbose related := congrArg Architecture.verbose related.same
  debugger related := congrArg Architecture.debugger related.same
  flush related := related.update (fun a => {a with uart := a.uart.flush.1}) rfl rfl rfl

end SameArchitecture

-- No fetch and no LOAD of the run, however often `step` is called, reads the timer's window.
def TimerUnread (h : Host) (m : Machine) : Prop := ∀ s, ReflTransGen (Stepped h) m s → s.regs.halt = false →
  ∀ addr, Touches s.deliverInterrupt addr → ¬ TimerWindow addr

theorem TimerUnread.later {h : Host} {m s : Machine} (unread : TimerUnread h m) (stepped : Stepped h m s) : TimerUnread h s :=
  fun _ path => unread _ (.head stepped path)

theorem TimerUnread.after {h : Host} {m : Machine} (unread : TimerUnread h m) :
    (step h m).Sat (fun _ s => TimerUnread h s) (fun _ s => TimerUnread h s) (fun _ => True) := by
  cases ran : step h m with
  | ok _ s => exact unread.later (.returned ran)
  | thrown err s => exact unread.later (.thrown ran)
  | undefined why => trivial

-- Two profiles, one program: the same architecture after every number of calls and
-- the same calls that throw. Only a fabric configured with bursts of no bytes can
-- tell the profiles apart, by dividing by that size in one run and not the other.
theorem timing_invisible (h : Host) (m : Machine) (p q : TargetProfile) (masked : m.csr.mstatusMie = false)
    (unread : TimerUnread h {m with target := p}) (n : Nat) :
    Outcome.Agree (· = .zeroBurst) Eq (fun s t => t.architecture = s.architecture)
      (Exec.calls (step h) n {m with target := p}) (Exec.calls (step h) n {m with target := q}) := by
  have start : SameArchitecture {m with target := p} {m with target := q} := ⟨rfl,masked⟩
  have call : ∀ s t, SameArchitecture s t ∧ TimerUnread h s → Outcome.Agree (Excused false) Eq
      (fun s t => SameArchitecture s t ∧ TimerUnread h s) (step h s) (step h t) := by
    intro s t related
    obtain ⟨same,unread⟩ := related
    exact (SameArchitecture.lockstep.step h same (unread s .refl) fun _ _ _ => trivial).and unread.after
  refine (Outcome.Agree.calls call ⟨start,unread⟩ n).mono ?_ (fun _ _ same => same) ?_
  · intro why excused
    exact excused.2
  · intro s t related
    exact related.1.same

-- Executable companion of `TimerUnread` for runs that halt within `n` calls.
def cycleUnread (m : Machine) : Bool :=
  m.fetchAddress.all (fun addr => !decide (TimerWindow addr)) && match fetch (saveBefore m) with
    | .ok i pre => (pre.loads i).all fun addr => !decide (TimerWindow addr)
    | _ => true

def unreadWithin (h : Host) : Nat → Machine → Bool
  | 0,m => m.regs.halt
  | n+1,m => m.regs.halt || cycleUnread m.deliverInterrupt && match step h m with
    | .ok _ s | .thrown _ s => unreadWithin h n s
    | .undefined _ => true

theorem TimerUnread.halted {h : Host} {m : Machine} (halted : m.regs.halt = true) : TimerUnread h m := by
  intro s path
  have stays : s = m := by
    induction path with
    | refl => rfl
    | tail _ stepped ih =>
      subst ih
      have idle := step_halted h halted
      cases stepped with
      | returned ran =>
        rw [idle] at ran
        cases ran
        rfl
      | thrown ran =>
        rw [idle] at ran
        cases ran
  subst stays
  intro running
  rw [halted] at running
  cases running

theorem touches_unread {m : Machine} {addr : Word} (unread : cycleUnread m = true) (touched : Touches m addr) :
    ¬ TimerWindow addr := by
  simp only [cycleUnread,Bool.and_eq_true] at unread
  obtain ⟨fetched,loaded⟩ := unread
  cases touched with
  | fetch address => simpa [address] using fetched
  | load ran address =>
    rw [ran] at loaded
    simpa [address] using loaded

theorem timerUnread_of_within {h : Host} {n : Nat} {m : Machine} (unread : unreadWithin h n m = true) : TimerUnread h m := by
  induction n generalizing m with
  | zero => exact .halted unread
  | succ n ih =>
    simp only [unreadWithin,Bool.or_eq_true,Bool.and_eq_true] at unread
    rcases unread with halted | ⟨here,rest⟩
    · exact .halted halted
    · intro s path
      rcases ReflTransGen.cases_head path with rfl | ⟨next,stepped,path⟩
      · intro _ addr touched
        exact touches_unread here touched
      · cases stepped with
        | returned ran =>
          rw [ran] at rest
          exact ih rest s path
        | thrown ran =>
          rw [ran] at rest
          exact ih rest s path

-- A vector add takes two cycles on the CPU profile and one on the GPU profile.
theorem timing_invisible_profiles : Outcome.Agree (· = .zeroBurst) Eq (fun s t => t.architecture = s.architecture)
    (Exec.calls (step (.ieee .avx2)) 2 {(Emulator.programmed [Enc.vecAdd 1 2 3,Enc.halt]).core with target := makeCpuProfile})
    (Exec.calls (step (.ieee .avx2)) 2 {(Emulator.programmed [Enc.vecAdd 1 2 3,Enc.halt]).core with target := makeGpuProfile}) :=
  timing_invisible (.ieee .avx2) (Emulator.programmed [Enc.vecAdd 1 2 3,Enc.halt]).core makeCpuProfile makeGpuProfile
    (by decide) (timerUnread_of_within (by decide +kernel : unreadWithin _ 2 _ = true)) 2

end Novium
