import Novium.Lockstep

namespace Novium
open Storage Effects

-- Two fabrics that accept and finish the same transactions from here on. The clock
-- of an empty one does not matter: the next issue sets it.
structure SameFlow (x y : Interconnect) : Prop where
  outstanding : y.cfg.maxOutstanding = x.cfg.maxOutstanding
  latency : y.cfg.latencyCycles = x.cfg.latencyCycles
  burst : y.cfg.dataWidth*y.cfg.burstLen = x.cfg.dataWidth*x.cfg.burstLen
  pending : y.pending.map Transaction.completeCycle = x.pending.map Transaction.completeCycle
  clock : x.pending = [] ∨ y.curCycle = x.curCycle

namespace SameFlow
variable {x y : Interconnect}

theorem length (same : SameFlow x y) : y.pending.length = x.pending.length := by
  have lengths := congrArg List.length same.pending
  rwa [List.length_map,List.length_map] at lengths

-- Both stall, both divide by zero, or both accept.
theorem issue (same : SameFlow x y) (t : Transaction) (cycle : DWord) :
    Option.Rel (fun a b => b.2 = a.2 ∧ SameFlow a.1 b.1) (x.issue t cycle) (y.issue t cycle) := by
  unfold Interconnect.issue
  dsimp only
  rw [same.outstanding,same.length,same.burst]
  split
  · exact .some ⟨rfl,same.outstanding,same.latency,same.burst,same.pending,same.clock⟩
  · split
    · exact .none
    · refine .some ⟨rfl,same.outstanding,same.latency,same.burst,?_,.inr rfl⟩
      rw [List.map_append,List.map_append,same.pending,same.latency]
      rfl

theorem tick (same : SameFlow x y) (cycles : DWord) : SameFlow (x.tick cycles) (y.tick cycles) := by
  have finished : ∀ z : Interconnect, (z.pending.takeWhile fun t => decide (t.completeCycle ≤ z.curCycle+cycles)).length =
      ((z.pending.map Transaction.completeCycle).takeWhile fun c => decide (c ≤ z.curCycle+cycles)).length := by
    intro z
    rw [List.takeWhile_map,List.length_map]
    rfl
  rcases same.clock with empty | clock
  · have empty' : y.pending = [] := by
      have pending := same.pending
      rw [empty] at pending
      exact List.map_eq_nil_iff.mp pending
    refine ⟨same.outstanding,same.latency,same.burst,?_,.inl ?_⟩
    · simp [Interconnect.tick,empty,empty']
    · simp [Interconnect.tick,empty]
  · refine ⟨same.outstanding,same.latency,same.burst,?_,.inr ?_⟩
    · simp only [Interconnect.tick]
      rw [List.map_drop,List.map_drop,finished,finished,same.pending,clock]
    · simp only [Interconnect.tick,clock]

end SameFlow

-- What later execution depends on, apart from the CSR file and the fabric.
structure Course where
  regs : RegisterFile
  scratchpad : ByteStore
  mainRam : ByteStore
  profiler : Profiler
  tickAccum : DWord
  timer : TimerDevice
  rx : Word → Word
  target : TargetProfile
  debugger : Debugger
  verbose : Bool
  shared : Option ByteStore
  mtvec : DWord

def Machine.course (m : Machine) : Course :=
  ⟨m.regs,m.scratchpad,m.mainRam,m.profiler,m.tickAccum,m.timer,m.uart.readReg,m.target,m.debugger,m.verbose,m.shared,m.csr.mtvec⟩

-- Neither translation nor an interrupt can interfere.
structure Plain (m : Machine) : Prop where
  untranslated : m.mmu.enabled = false
  undeliverable : m.csr.mstatusMie = false ∨ m.csr.read csrMie = 0

-- Two machines with the same course before them. Their CSR files are compared only on demand.
structure SameCourse (csrs : Bool) (m n : Machine) : Prop where
  same : n.course = m.course
  csr : csrs = true → n.csr = m.csr
  left : Plain m
  right : Plain n
  flow : SameFlow m.axi n.axi

namespace SameCourse
variable {csrs : Bool} {m n m' n' : Machine}

-- The parts a change to the course leaves alone.
def kept (m : Machine) : CSRFile × Bool × Interconnect := (m.csr,m.mmu.enabled,m.axi)

theorem update (related : SameCourse csrs m n) (f : Course → Course) (left : m'.course = f m.course)
    (right : n'.course = f n.course) (keptLeft : kept m' = kept m) (keptRight : kept n' = kept n) : SameCourse csrs m' n' := by
  simp only [kept,Prod.mk.injEq] at keptLeft keptRight
  obtain ⟨csr,enabled,axi⟩ := keptLeft
  obtain ⟨csr',enabled',axi'⟩ := keptRight
  exact {
    same := by rw [left,right,related.same]
    csr := fun wanted => by rw [csr,csr',related.csr wanted]
    left := ⟨enabled.trans related.left.untranslated,by rw [csr]; exact related.left.undeliverable⟩
    right := ⟨enabled'.trans related.right.untranslated,by rw [csr']; exact related.right.undeliverable⟩
    flow := by rw [axi,axi']; exact related.flow}

theorem withAxi {x y : Interconnect} (related : SameCourse csrs m n) (flow : SameFlow x y) :
    SameCourse csrs {m with axi := x} {n with axi := y} :=
  ⟨related.same,related.csr,⟨related.left.1,related.left.2⟩,⟨related.right.1,related.right.2⟩,flow⟩

end SameCourse

theorem Plain.deliver {m : Machine} (plain : Plain m) : m.deliverInterrupt = m := by
  have none : m.pendingInterrupt = none := by
    rcases plain.undeliverable with masked | disabled
    · exact pendingInterrupt_masked masked
    · have zero : m.intc.interruptPending m.csr = false := by
        unfold InterruptController.interruptPending
        rw [disabled]
        split <;> simp
      unfold Machine.pendingInterrupt InterruptController.pendingInterrupt
      rw [zero]
      rfl
  simp only [Machine.deliverInterrupt,none]

theorem Plain.takeTrap {m : Machine} (plain : Plain m) (t : Trap) : Plain (m.takeTrap t) := by
  refine ⟨plain.untranslated,.inl ?_⟩
  change (InterruptController.takeTrapCsr m.csr t).mstatusMie = false
  rw [CSRFile.mstatusMie,InterruptController.takeTrapCsr_mstatus,InterruptController.trapMstatus_mie]

-- Writing to the transmit side leaves the receive side alone.
theorem UartDevice.writeReg_rx (u : UartDevice) (offset value : Word) : (u.writeReg offset value).1.readReg = u.readReg := by
  unfold UartDevice.writeReg
  dsimp only
  split
  · split <;> rfl
  · rfl

theorem UartDevice.flush_rx (u : UartDevice) : u.flush.1.readReg = u.readReg := by
  unfold UartDevice.flush
  split <;> rfl

namespace SameCourse
variable {csrs : Bool} {m n : Machine}

theorem tickOnce (related : SameCourse csrs m n) : SameCourse csrs m.tickOnce n.tickOnce where
  same := congrArg (fun c : Course => {c with
    timer := c.timer.tick cyclesPerTick,tickAccum := c.tickAccum-cyclesPerTick}) related.same
  csr := related.csr
  left := ⟨related.left.1,related.left.2⟩
  right := ⟨related.right.1,related.right.2⟩
  flow := related.flow.tick cyclesPerTick

theorem tick (related : SameCourse csrs m n) : SameCourse csrs m.tickPeripherals n.tickPeripherals := by
  have accum : n.tickAccum = m.tickAccum := congrArg Course.tickAccum related.same
  unfold Machine.tickPeripherals
  rw [accum]
  generalize m.tickAccum.toNat/cyclesPerTick.toNat = passes
  clear accum
  induction passes generalizing m n with
  | zero => exact related
  | succ passes ih =>
    rw [Function.iterate_succ_apply,Function.iterate_succ_apply]
    exact ih related.tickOnce

theorem takeTrap (related : SameCourse csrs m n) (t : Trap) : SameCourse csrs (m.takeTrap t) (n.takeTrap t) := by
  have vector : ∀ k : Machine, (k.takeTrap t).course = k.course := by
    intro k
    have same : (k.takeTrap t).csr.mtvec = k.csr.mtvec := InterruptController.takeTrapCsr_other k.csr t _ (by decide)
    unfold Machine.course
    rw [same]
    rfl
  refine ⟨by rw [vector,vector,related.same],?_,related.left.takeTrap t,related.right.takeTrap t,related.flow⟩
  intro wanted
  exact congrArg (InterruptController.takeTrapCsr · t) (related.csr wanted)

theorem issueAxi (related : SameCourse csrs m n) (addr bytes : Word) (isWrite : Bool) :
    Outcome.Agree (Excused true) (Timing true) (SameCourse csrs) (Handlers.issueAxi addr bytes isWrite m)
      (Handlers.issueAxi addr bytes isWrite n) := by
  have cycles : n.profiler.cycleCount = m.profiler.cycleCount := congrArg (fun c => c.profiler.cycleCount) related.same
  have issued := related.flow.issue ⟨0,addr,bytes,isWrite,m.profiler.cycleCount,0,.axi4⟩ m.profiler.cycleCount
  rw [Handlers.issueAxi_apply,Handlers.issueAxi_apply,cycles]
  generalize m.axi.issue _ _ = o at issued ⊢
  generalize n.axi.issue _ _ = p at issued ⊢
  cases issued with
  | none => exact .undefined
  | some answers =>
    obtain ⟨accepted,flow⟩ := answers
    exact .ok (fun _ => accepted.symm) (related.withAxi flow)

theorem lockstep (csrs : Bool) : Lockstep true (fun _ => True) (fun _ => True) (SameCourse csrs) where
  regs related := congrArg Course.regs related.same
  withRegs related r := related.update (fun c => {c with regs := r}) rfl rfl rfl rfl
  scratchpad related := congrArg Course.scratchpad related.same
  withScratchpad related s := related.update (fun c => {c with scratchpad := s}) rfl rfl rfl rfl
  mainRam related := congrArg Course.mainRam related.same
  withMainRam related s := related.update (fun c => {c with mainRam := s}) rfl rfl rfl rfl
  enabled related := related.right.untranslated.trans related.left.untranslated.symm
  translation related on := by rw [related.left.untranslated] at on; cases on
  withMmu related on := by rw [related.left.untranslated] at on; cases on
  vector related := congrArg Course.mtvec related.same
  takeTrap := takeTrap
  weight related op func := fun _ => (congrArg (fun c => profileCycleWeight c.target op func) related.same).symm
  issue := issueAxi
  stall := by
    intro m n a b related timing
    cases timing rfl
    cases a with
    | true => exact related
    | false => exact related.update (fun c => {c with profiler := c.profiler.record .dmaLoad 1 0}) rfl rfl rfl rfl
  busRead related _ := by
    refine busRead_agree related (.of_shared (congrArg Course.shared related.same)) (congrArg Course.scratchpad related.same)
      (congrArg Course.rx related.same) ?_
    intro _
    exact ⟨congrArg Course.timer related.same,fun t => related.update (fun c => {c with timer := t}) rfl rfl rfl rfl⟩
  busWrite related _ value := by
    refine busWrite_agree related (.of_shared (congrArg Course.shared related.same)) (congrArg Course.scratchpad related.same)
      (fun s => related.update (fun c => {c with scratchpad := s}) rfl rfl rfl rfl)
      (fun _ s => related.update (fun c => {c with shared := s}) rfl rfl rfl rfl)
      (fun offset => related.update (fun c => {c with timer := c.timer.writeReg offset value}) rfl rfl rfl rfl) ?_
    intro offset
    have received : ∀ k : Machine, (k.writeUart offset value).course = k.course := by
      intro k
      simp only [Machine.course,Machine.writeUart,UartDevice.writeReg_rx]
    exact related.update id (received _) (received _) rfl rfl
  account := by
    intro m n a b related timing op i
    cases timing rfl
    exact related.update (fun c => {c with
      profiler := c.profiler.record op a (dmaBytesOf op i),tickAccum := c.tickAccum+a.zeroExtend 64}) rfl rfl rfl rfl
  tick := tick
  deliver related := by
    rw [related.left.deliver,related.right.deliver]
    exact related
  save related := by
    unfold saveBefore
    split <;> split <;> exact related.update id rfl rfl rfl rfl
  log related timing pc i := by
    unfold logStep
    split <;> split <;> exact related.update id rfl rfl rfl rfl
  verbose related := congrArg Course.verbose related.same
  debugger related := congrArg Course.debugger related.same
  flush := by
    intro m n related
    have received : ∀ k : Machine, k.flushUart.course = k.course := by
      intro k
      simp only [Machine.course,Machine.flushUart,UartDevice.flush_rx]
    exact related.update id (received m) (received n) rfl rfl

end SameCourse
end Novium
