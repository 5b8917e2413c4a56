import Novium.Charges
import Novium.ThrowingSteps

namespace Novium
open Storage Effects Relation

-- The timer's IRQ register. A read or a write of it acknowledges the timer.
def timerIrq : Word := mmioBase+0x0C

namespace Machine

def LineFollows (m : Machine) : Prop := m.intc.mip.getLsbD 7 = m.timer.irqPending

-- The bus address of a LOAD or a STORE, as its handler resolves it.
def dataPa (m : Machine) (i : Instruction) : Option Word := (m.loads i).or (m.storesTo i)

def fetchesIrq (m : Machine) : Bool := !m.mmu.enabled && m.regs.pc == timerIrq

end Machine

-- The next step reads or writes the IRQ register, in an instruction of the given cost. What is
-- fetched from the register is a NOP.
inductive Acknowledges (m : Machine) : Word → Prop where
  | fetch : m.deliverInterrupt.fetchesIrq = true → Acknowledges m (cycleWeight .nop 0)
  | data (i : Instruction) (pre : Machine) (op : Opcode) : Novium.fetch (saveBefore m.deliverInterrupt) = .ok i pre →
      i.opcode = some op → pre.dataPa i = some timerIrq → Acknowledges m (cycleWeight op 0)

-- A step that acknowledges a pending timer takes its clock to the next tick.
def Machine.Timely (m : Machine) : Prop :=
  m.regs.halt = false → m.timer.irqPending = true → ∀ cycles, Acknowledges m cycles → cyclesPerTick ≤ m.tickAccum+cycles.zeroExtend 64

-- The host has reset the emulator and then left the timer and the lines alone.
structure FromReset (m₀ m : Machine) : Prop where
  intc : m.intc = m₀.reset.intc
  timer : m.timer = m₀.reset.timer

variable {h : Host} {m m' pre after : Machine} {i : Instruction} {op : Opcode} {cycles : Word}

namespace TimerDevice

theorem readReg_irq (t : TimerDevice) (offset : Word) : (t.readReg offset).1.irqPending = (t.irqPending && offset != 0x0C) := by
  unfold readReg
  by_cases irq : offset = 0x0C
  · subst irq
    simp
  · have other : (offset != 0x0C) = true := bne_iff_ne.mpr irq
    rw [if_neg irq,other,Bool.and_true]
    repeat' split
    all_goals rfl

theorem writeReg_irq (t : TimerDevice) (offset value : Word) : (t.writeReg offset value).irqPending = (t.irqPending && offset != 0x0C) := by
  unfold writeReg
  by_cases irq : offset = 0x0C
  · subst irq
    simp
  · have other : (offset != 0x0C) = true := bne_iff_ne.mpr irq
    rw [if_neg irq,other,Bool.and_true]
    repeat' split
    all_goals rfl

end TimerDevice

theorem timerIrq_offset (addr : Word) : (addr-mmioBase != 0x0C) = (addr != timerIrq) := by
  rw [Bool.eq_iff_iff,bne_iff_ne,bne_iff_ne,not_iff_not,timerIrq,BitVec.sub_eq_iff_eq_add,BitVec.add_comm]

theorem deviceAt_irq (m : Machine) : m.deviceAt timerIrq = some .timer := by
  unfold Machine.deviceAt Machine.devices
  cases m.shared with
  | none => rfl
  | some ram => rfl

theorem ne_timerIrq {addr : Word} (m : Machine) (other : m.deviceAt addr ≠ some .timer) : addr ≠ timerIrq := by
  rintro rfl
  exact other (deviceAt_irq m)

def FlagAfter (addr : Option Word) (m m' : Machine) : Prop := m'.timer.irqPending = (m.timer.irqPending && addr != some timerIrq)

theorem flag_kept {addr : Option Word} (same : m'.timer = m.timer) (other : addr ≠ some timerIrq) : FlagAfter addr m m' := by
  have apart : (addr != some timerIrq) = true := bne_iff_ne.mpr other
  rw [FlagAfter,same,apart,Bool.and_true]

theorem busTimer_irq (m : Machine) (addr : Word) : (m.busTimer addr).irqPending = (m.timer.irqPending && addr != timerIrq) := by
  unfold Machine.busTimer
  split
  · rw [TimerDevice.readReg_irq,timerIrq_offset]
  · rename_i device
    have other : (addr != timerIrq) = true := bne_iff_ne.mpr (ne_timerIrq m device)
    rw [other,Bool.and_true]

theorem busRead_flag (addr : Word) (m : Machine) :
    (Bus.read32 addr m).Sat (fun _ m' => FlagAfter (some addr) m m') (fun _ _ => addr ≠ timerIrq) (fun _ => True) := by
  refine Handlers.sat_busRead (fun _ => busTimer_irq m addr) (fun beyond _ => ?_) (fun _ => trivial)
  rintro rfl
  simp [Machine.addressable,deviceAt_irq] at beyond

theorem busWrite_flag (addr value : Word) (m : Machine) :
    (Bus.write32 addr value m).Sat (fun _ m' => FlagAfter (some addr) m m') (fun _ _ => addr ≠ timerIrq) (fun _ => True) := by
  simp only [Bus.write32,Exec.sat_bind,Exec.get_apply,Outcome.sat_ok]
  cases device : m.deviceAt addr with
  | none =>
    have other : addr ≠ timerIrq := ne_timerIrq m (by simp [device])
    simp only [Exec.sat_bind,Exec.modify_apply,Outcome.sat_ok]
    cases VirtualSRAM.write32 m.scratchpad addr value with
    | error e => exact other
    | ok ram => exact flag_kept rfl (by simpa using other)
  | some kind =>
    cases kind with
    | timer =>
      have flag := m.timer.writeReg_irq (addr-mmioBase) value
      rw [timerIrq_offset] at flag
      exact flag
    | uart =>
      have other : addr ≠ timerIrq := ne_timerIrq m (by simp [device])
      exact flag_kept rfl (by simpa using other)
    | shared =>
      have other : addr ≠ timerIrq := ne_timerIrq m (by simp [device])
      cases m.shared with
      | none => trivial
      | some ram =>
        dsimp only
        rw [Exec.ite_apply]
        split
        · exact flag_kept rfl (by simpa using other)
        · trivial

def FlagEffect (i : Instruction) (m : Machine) (o : Outcome EmulatorError Hazard Machine Word) : Prop :=
  o.Sat (fun _ m' => FlagAfter (m.dataPa i) m m') (fun _ _ => m.dataPa i ≠ some timerIrq) (fun _ => True)

namespace Handlers

theorem dataPa_other {known : Option Opcode} (opcode : i.opcode = known) (load : known ≠ some .load) (store : known ≠ some .store) :
    m.dataPa i = none := by
  subst opcode
  simp [Machine.dataPa,Machine.loads,Machine.storesTo,load,store]

theorem dataPa_load {va : Word} (opcode : i.opcode = some .load) (read : m.dataVa i = some va) : m.dataPa i = (m.resolved va false).1 := by
  simp [Machine.dataPa,Machine.loads,Machine.storesTo,opcode,read]

theorem dataPa_store {va : Word} (opcode : i.opcode = some .store) (read : m.dataVa i = some va) : m.dataPa i = (m.resolved va true).1 := by
  simp [Machine.dataPa,Machine.loads,Machine.storesTo,opcode,read]

theorem opLoad_flag (opcode : i.opcode = some .load) : FlagEffect i m (opLoad i m) := by
  apply sat_opLoad trivial trivial
  · intro va read translated
    exact flag_kept rfl (by simp [dataPa_load opcode read,translated])
  · intro va addr axi read translated
    rw [dataPa_load opcode read,translated]
    refine (busRead_flag addr _).mono ?_ ?_ (fun _ _ => trivial)
    · intro value m' flag r _
      exact flag
    · intro err m' other
      simpa using other

theorem opStore_flag (opcode : i.opcode = some .store) : FlagEffect i m (opStore i m) := by
  apply sat_opStore trivial trivial
  · intro va read translated
    exact flag_kept rfl (by simp [dataPa_store opcode read,translated])
  · intro va addr value axi read translated _
    rw [dataPa_store opcode read,translated]
    refine (busWrite_flag addr value _).mono ?_ ?_ (fun _ _ => trivial)
    · intro _ m' flag
      exact flag
    · intro err m' other
      simpa using other

theorem kept_flag {o : Outcome EmulatorError Hazard Machine Word} (other : m.dataPa i = none)
    (kept : o.Sat (fun _ m' => m'.timer = m.timer) (fun _ _ => True) (fun _ => True)) : FlagEffect i m o := by
  refine kept.mono ?_ ?_ (fun _ _ => trivial)
  · intro _ m' same
    exact flag_kept same (by simp [other])
  · intro _ m' _
    simp [other]

theorem onRegs_timer (x : OnRegs Word) : (onRegs x m).Sat (fun _ m' => m'.timer = m.timer) (fun _ _ => True) (fun _ => True) := by
  rw [sat_onRegs]
  cases x m.regs with
  | ok => exact rfl
  | thrown => trivial
  | undefined => trivial

theorem dma_timer (h : Host) (dma : op.isDma) :
    (handler h op i m).Sat (fun _ m' => m'.timer = m.timer) (fun _ _ => True) (fun _ => True) := by
  refine sat_dma h dma ⟨fun _ _ _ _ => rfl,fun _ _ _ => trivial,?_,fun _ _ => trivial⟩
  intro s _ axi
  rcases dma with rfl | rfl <;> rfl

end Handlers

open Handlers

theorem handler_flag (h : Host) (m : Machine) (opcode : i.opcode = some op) : FlagEffect i m (handler h op i m) := by
  cases op with
  | load => exact opLoad_flag opcode
  | store => exact opStore_flag opcode
  | loadVr => exact kept_flag (dataPa_other opcode (by decide) (by decide)) (sat_opLoadVr trivial (fun _ => trivial) fun _ _ => rfl)
  | storeVr => exact kept_flag (dataPa_other opcode (by decide) (by decide)) (sat_opStoreVr trivial (fun _ => trivial) fun _ _ _ => rfl)
  | dmaLoad => exact kept_flag (dataPa_other opcode (by decide) (by decide)) (dma_timer h (.inl rfl))
  | dmaStore => exact kept_flag (dataPa_other opcode (by decide) (by decide)) (dma_timer h (.inr rfl))
  | _ => exact kept_flag (dataPa_other opcode (by decide) (by decide)) (onRegs_timer _)

theorem execute_flag (h : Host) (i : Instruction) (m : Machine) : FlagEffect i m (execute h i m) := by
  unfold execute
  cases opcode : i.opcode with
  | none =>
    apply kept_flag (dataPa_other opcode (by decide) (by decide))
    simp only [illegal,Exec.sat_bind,Exec.get_apply,Outcome.sat_ok,Exec.ite_apply]
    split
    · exact rfl
    · trivial
  | some op =>
    simp only [FlagEffect,Exec.sat_bind,Exec.modify_apply,Exec.pure_apply,Outcome.sat_ok]
    exact handler_flag h m opcode

theorem fetch_irq (here : m.fetchesIrq = true) :
    ∃ i, fetch m = .ok i {m.advancePc with timer := {m.timer with irqPending := false}} ∧ i.opcode = some .nop := by
  rw [Machine.fetchesIrq,Bool.and_eq_true,Bool.not_eq_true',beq_iff_eq] at here
  obtain ⟨off,pc⟩ := here
  refine ⟨⟨if m.timer.irqPending then 1 else 0⟩,?_,?_⟩
  · simp only [fetch,Bus.read32,Exec.bind_apply,Exec.get_apply,Exec.ite_apply,off,Bool.false_eq_true,if_false,pc,deviceAt_irq]
    rfl
  · cases m.timer.irqPending with
    | true => decide
    | false => decide

theorem fetch_elsewhere (elsewhere : m.fetchesIrq = false) (fetched : fetch m = .ok i pre) :
    pre.timer.irqPending = m.timer.irqPending := by
  cases on : m.mmu.enabled with
  | false =>
    have apart : (m.regs.pc != timerIrq) = true := by simpa [Machine.fetchesIrq,on] using elsewhere
    obtain ⟨_,rfl⟩ := fetch_bus on fetched
    change (m.busTimer m.regs.pc).irqPending = _
    rw [busTimer_irq,apart,Bool.and_true]
  | true =>
    have kept : (fetch m).Sat (fun _ m' => m'.timer = m.timer) (fun _ _ => True) (fun _ => True) := by
      simp only [fetch,Exec.sat_bind,Exec.get_apply,Outcome.sat_ok,Exec.ite_apply,on,if_true]
      obtain ⟨⟨u,cause,pa⟩,translated,_⟩ := MMU.translate_total m.mmu (some m.scratchpad) (some m.csr) m.regs.pc false true .none
      rw [Handlers.translate_apply translated,Outcome.sat_ok]
      cases pa with
      | none => exact rfl
      | some pa =>
        dsimp only
        rw [Exec.ite_apply]
        split
        · exact rfl
        · trivial
    rw [fetched] at kept
    exact congrArg TimerDevice.irqPending kept

theorem tickOnce_line (m : Machine) : m.tickOnce.LineFollows := by
  unfold Machine.LineFollows Machine.tickOnce
  dsimp only
  cases (m.timer.tick cyclesPerTick).irqPending with
  | true => simp [InterruptController.raiseTimer]
  | false => simp [InterruptController.clearTimer]

theorem tickPeripherals_line (enough : cyclesPerTick ≤ m.tickAccum) : m.tickPeripherals.LineFollows := by
  have passes : 0 < m.tickAccum.toNat/cyclesPerTick.toNat := Nat.div_pos (BitVec.le_def.mp enough) (by decide)
  obtain ⟨earlier,last⟩ := Nat.exists_eq_add_of_lt passes
  rw [Nat.zero_add] at last
  unfold Machine.tickPeripherals
  rw [last,Function.iterate_succ_apply']
  exact tickOnce_line _

-- The lines and the flag, which most of a step leaves alone.
def Machine.lines (m : Machine) : Word × TimerDevice := (m.intc.mip,m.timer)

theorem lines_deliver (m : Machine) : m.deliverInterrupt.lines = m.lines := by
  unfold Machine.deliverInterrupt
  split <;> rfl

theorem lines_saveBefore (m : Machine) : (saveBefore m).lines = m.lines := Machine.saveBefore_keeps Machine.lines (fun _ _ _ => rfl) m

theorem lines_ready (m : Machine) : (saveBefore m.deliverInterrupt).lines = m.lines := (lines_saveBefore _).trans (lines_deliver m)

theorem fetchesIrq_ready (m : Machine) : (saveBefore m.deliverInterrupt).fetchesIrq = m.deliverInterrupt.fetchesIrq := by
  unfold Machine.fetchesIrq
  rw [saveBefore_mmu,saveBefore_regs]

theorem mip_fetched (fetched : fetch m = .ok i pre) : pre.intc.mip = m.intc.mip := by
  cases fetch_ok fetched with
  | word => rfl
  | fault => rfl

theorem mip_executed (ran : execute h i m = .ok cycles m') : m'.intc.mip = m.intc.mip := by
  rcases execute_ok ran with executed | ⟨u,t,_,_,_,rfl⟩
  · exact congrArg InterruptController.mip (congrArg Control.intc executed.control)
  · rfl

theorem lines_logStep (pc : Word) (i : Instruction) (cycles : Word) (m : Machine) : (logStep pc i cycles m).lines = m.lines :=
  Machine.logStep_keeps Machine.lines (fun _ _ => rfl) ..

theorem Machine.LineFollows.of_lines {a b : Machine} (same : b.lines = a.lines) (follows : a.LineFollows) : b.LineFollows := by
  obtain ⟨mip,timer⟩ := Prod.mk.inj same
  unfold Machine.LineFollows
  rw [mip,timer]
  exact follows

-- How a step that executes its instruction ends: at a tick, or with the line of before.
theorem ticked_line (pc : Word) (i : Instruction) (cycles : Word) (enough : cyclesPerTick ≤ after.tickAccum) : (logStep pc i cycles after.tickPeripherals).LineFollows :=
  .of_lines (lines_logStep pc i cycles _) (tickPeripherals_line enough)

theorem unticked_lines (pc : Word) (i : Instruction) (cycles : Word) (short : after.tickAccum < cyclesPerTick) :
    (logStep pc i cycles after.tickPeripherals).lines = after.lines := by
  rw [lines_logStep,Machine.tickPeripherals_done after short]

theorem mip_ready (fetched : fetch (saveBefore m.deliverInterrupt) = .ok i pre) : pre.intc.mip = m.intc.mip :=
  (mip_fetched fetched).trans (congrArg Prod.fst (lines_ready m))

-- The instruction of a step that acknowledges the timer: the flag is down once it has run, and it does not throw.
structure Acknowledged (h : Host) (m : Machine) (cycles : Word) (i : Instruction) (pre : Machine) : Prop where
  fetched : fetch (saveBefore m.deliverInterrupt) = .ok i pre
  ran : (execute h i pre).Sat (fun _ after => after.tickAccum = m.tickAccum+cycles.zeroExtend 64 ∧
    after.intc.mip = m.intc.mip ∧ after.timer.irqPending = false) (fun _ _ => False) (fun _ => True)

theorem acknowledged_of_cost (fetched : fetch (saveBefore m.deliverInterrupt) = .ok i pre) (opcode : i.opcode = some op)
    (cost : pre.charge i op = cycles) (flag : FlagEffect i pre (execute h i pre)) (down : ∀ after, FlagAfter (pre.dataPa i) pre after →
      after.timer.irqPending = false) (returns : ∀ err after, execute h i pre ≠ .thrown err after) : Acknowledged h m cycles i pre := by
  refine ⟨fetched,?_⟩
  cases ran : execute h i pre with
  | undefined why => trivial
  | thrown err after => exact absurd ran (returns err after)
  | ok charged after =>
    rw [ran] at flag
    have total : charged = cycles := (execute_charge opcode ran).trans cost
    subst total
    have accum := ((execute_charged ran).handled op opcode).1
    rw [(books_fetched fetched).2] at accum
    exact ⟨accum,(mip_executed ran).trans (mip_ready fetched),down after flag⟩

theorem acknowledges_runs (h : Host) (acks : Acknowledges m cycles) : ∃ i pre, Acknowledged h m cycles i pre := by
  cases acks with
  | fetch here =>
    rw [← fetchesIrq_ready] at here
    obtain ⟨i,fetched,nop⟩ := fetch_irq here
    refine ⟨i,_,acknowledged_of_cost fetched nop rfl (execute_flag h i _) ?_ fun err after => nop_returns nop⟩
    intro after flag
    rw [flag]
    rfl
  | data i pre op fetched opcode reaches =>
    have flag := execute_flag h i pre
    have cost : pre.charge i op = cycleWeight op 0 := by
      cases op with
      | load =>
        have target : ((pre.dataVa i).bind fun va => (pre.resolved va false).1) = some timerIrq := by
          simpa [Machine.dataPa,Machine.loads,Machine.storesTo,opcode] using reaches
        simp only [Machine.charge,target,Option.isSome_some,if_true]
      | store =>
        have target : ((pre.dataVa i).bind fun va => (pre.resolved va true).1) = some timerIrq := by
          simpa [Machine.dataPa,Machine.loads,Machine.storesTo,opcode] using reaches
        simp only [Machine.charge,target,Option.isSome_some,if_true]
      | _ =>
        rw [dataPa_other opcode (by decide) (by decide)] at reaches
        cases reaches
    refine ⟨i,pre,acknowledged_of_cost fetched opcode cost flag ?_ ?_⟩
    · intro after flag
      rw [flag,reaches]
      simp
    · intro err after threw
      rw [threw] at flag
      exact flag reaches

-- A step that acknowledges the timer and ends before the next tick leaves the line as it was.
theorem acknowledges_step (running : m.regs.halt = false) (acks : Acknowledges m cycles) (stepped : Stepped h m m') :
    (cyclesPerTick ≤ m.tickAccum+cycles.zeroExtend 64 → m'.LineFollows) ∧
    (¬ cyclesPerTick ≤ m.tickAccum+cycles.zeroExtend 64 → m'.intc.mip = m.intc.mip ∧ m'.timer.irqPending = false) := by
  obtain ⟨i,pre,fetched,effect⟩ := acknowledges_runs h acks
  have rest := step_fetched h running fetched
  cases ran : execute h i pre with
  | undefined why =>
    rw [Exec.bind_apply,ran] at rest
    cases stepped with
    | returned returned => cases rest.symm.trans returned
    | thrown threw => cases rest.symm.trans threw
  | thrown err after =>
    rw [ran] at effect
    exact effect.elim
  | ok cost after =>
    rw [ran] at effect
    obtain ⟨accum,mip,down⟩ := effect
    rw [Exec.bind_ok ran] at rest
    cases stepped with
    | thrown threw => cases rest.symm.trans threw
    | returned returned =>
      cases rest.symm.trans returned
      rw [← accum]
      refine ⟨ticked_line _ i cost,?_⟩
      intro short
      obtain ⟨line,timer⟩ := Prod.mk.inj (unticked_lines m.deliverInterrupt.regs.pc i cost (BitVec.not_le.mp short))
      rw [line,timer]
      exact ⟨mip,down⟩

theorem dataPa_opcode {addr : Word} (reaches : m.dataPa i = some addr) : ∃ op, i.opcode = some op := by
  cases opcode : i.opcode with
  | none =>
    rw [dataPa_other opcode (by decide) (by decide)] at reaches
    cases reaches
  | some op => exact ⟨op,rfl⟩

theorem other_fetch (without : ∀ cycles, ¬ Acknowledges m cycles) (fetched : fetch (saveBefore m.deliverInterrupt) = .ok i pre) :
    pre.timer.irqPending = m.timer.irqPending ∧ pre.dataPa i ≠ some timerIrq := by
  have timer : (saveBefore m.deliverInterrupt).timer = m.timer := congrArg Prod.snd (lines_ready m)
  refine ⟨?_,?_⟩
  · rw [← timer]
    apply fetch_elsewhere _ fetched
    rw [fetchesIrq_ready,Bool.eq_false_iff]
    exact fun here => without _ (.fetch here)
  · intro reaches
    obtain ⟨op,opcode⟩ := dataPa_opcode reaches
    exact without _ (.data i pre op fetched opcode reaches)

theorem other_step (without : ∀ cycles, ¬ Acknowledges m cycles) (stepped : Stepped h m m') :
    m'.LineFollows ∨ (m'.intc.mip = m.intc.mip ∧ m'.timer.irqPending = m.timer.irqPending) := by
  rcases stepped.cases with rfl | effect | stopped
  · exact .inr ⟨rfl,rfl⟩
  · cases effect with
    | @ran i pre cycles after fetched ran =>
      obtain ⟨same,other⟩ := other_fetch without fetched
      by_cases enough : cyclesPerTick ≤ after.tickAccum
      · exact .inl (ticked_line _ i cycles enough)
      · obtain ⟨line,timer⟩ := Prod.mk.inj (unticked_lines m.deliverInterrupt.regs.pc i cycles (BitVec.not_le.mp enough))
        have flag := execute_flag h i pre
        rw [ran] at flag
        have kept : after.timer.irqPending = pre.timer.irqPending := by
          have apart : (pre.dataPa i != some timerIrq) = true := bne_iff_ne.mpr other
          have after : after.timer.irqPending = (pre.timer.irqPending && pre.dataPa i != some timerIrq) := flag
          rw [after,apart,Bool.and_true]
        rw [line,timer,kept]
        exact .inr ⟨(mip_executed ran).trans (mip_ready fetched),same⟩
  · cases stopped with
    | fetch =>
      obtain ⟨line,timer⟩ := Prod.mk.inj (lines_ready m)
      rw [line,timer]
      exact .inr ⟨rfl,rfl⟩
    | @execute i pre err m' fetched threw =>
      have frame := execute_frame h i pre
      rw [threw] at frame
      have line := congrArg InterruptController.mip (congrArg Control.intc (execute_thrown threw).control)
      rw [frame.timer]
      exact .inr ⟨line.trans (mip_ready fetched),(other_fetch without fetched).1⟩

theorem step_line_iff (follows : m.LineFollows) (stepped : Stepped h m m') : m'.LineFollows ↔ m.Timely := by
  have leaves : m'.intc.mip = m.intc.mip ∧ m'.timer.irqPending = m.timer.irqPending → m'.LineFollows := by
    rintro ⟨line,flag⟩
    unfold Machine.LineFollows
    rw [line,flag]
    exact follows
  constructor
  · intro holds running pending cycles acks
    by_contra short
    obtain ⟨line,down⟩ := (acknowledges_step running acks stepped).2 short
    unfold Machine.LineFollows at holds follows
    rw [line,follows,pending,down] at holds
    cases holds
  · intro timely
    by_cases acknowledges : ∃ cycles, Acknowledges m cycles
    · obtain ⟨cycles,acks⟩ := acknowledges
      cases halt : m.regs.halt with
      | true =>
        rcases stepped with returned | threw
        · rw [step_halted h halt] at returned
          cases returned
          exact follows
        · rw [step_halted h halt] at threw
          cases threw
      | false =>
        obtain ⟨ticked,short⟩ := acknowledges_step halt acks stepped
        by_cases enough : cyclesPerTick ≤ m.tickAccum+cycles.zeroExtend 64
        · exact ticked enough
        · cases pending : m.timer.irqPending with
          | true => exact absurd (timely halt pending cycles acks) enough
          | false =>
            obtain ⟨line,down⟩ := short enough
            exact leaves ⟨line,down.trans pending.symm⟩
    · rcases other_step (not_exists.mp acknowledges) stepped with holds | kept
      · exact holds
      · exact leaves kept

theorem start_line {m₀ : Machine} (start : FromReset m₀ m) (down : m₀.timer.irqPending = false) : m.LineFollows := by
  have timer : m.timer.irqPending = false := (congrArg TimerDevice.irqPending start.timer).trans down
  have low : m₀.reset.intc.mip.getLsbD 7 = false := by
    change InterruptController.initial.mip.getLsbD 7 = false
    decide
  unfold Machine.LineFollows
  rw [start.intc,timer,low]

theorem Machine.LineFollows.untaken {irq : Trap} (follows : m.LineFollows) (down : m.timer.irqPending = false) (taken : m.pendingInterrupt = some irq) :
    irq.cause ≠ .machineTimer := by
  have low : m.intc.mip.getLsbD 7 = false := follows.trans down
  unfold Machine.pendingInterrupt InterruptController.pendingInterrupt at taken
  dsimp only at taken
  have masked : (m.intc.mip &&& (m.csr.read csrMie).truncate 32).getLsbD 7 = false := by rw [BitVec.getLsbD_and,low,Bool.false_and]
  rw [masked,if_neg Bool.false_ne_true] at taken
  repeat' split at taken
  all_goals cases taken
  all_goals exact fun impossible => (by cases impossible)

-- What the line owes the guest: it shows the flag, and an acknowledged timer interrupts no more.
structure LineServes (m : Machine) : Prop where
  line : m.LineFollows
  untaken : m.timer.irqPending = false → ∀ irq, m.pendingInterrupt = some irq → irq.cause ≠ .machineTimer

-- In every run since a reset that found the flag down and whose steps are timely. A step
-- that is not breaks the line.
theorem timer_line_follows (h : Host) :
    (∀ m₀ start m, FromReset m₀ start → m₀.timer.irqPending = false →
      ReflTransGen (fun a b => Stepped h a b ∧ a.Timely) start m → LineServes m) ∧
    ∀ m m', m.LineFollows → Stepped h m m' → ¬ m.Timely → ¬ m'.LineFollows := by
  refine ⟨?_,?_⟩
  · intro m₀ start m reset down path
    have follows : m.LineFollows := by
      induction path with
      | refl => exact start_line reset down
      | tail _ step ih => exact (step_line_iff ih step.1).mpr step.2
    exact ⟨follows,fun low _ taken => follows.untaken low taken⟩
  · intro m m' follows stepped late holds
    exact late ((step_line_iff follows stepped).mp holds)

def stepTimes (h : Host) : Nat → Emu Unit
  | 0 => pure ()
  | n+1 => do
    step h
    stepTimes h n

theorem stepTimes_path {n : Nat} (ran : stepTimes h n m = .ok () m') : ReflTransGen (Stepped h) m m' := by
  induction n generalizing m with
  | zero =>
    cases ran
    exact .refl
  | succ n ih =>
    unfold stepTimes at ran
    cases first : step h m with
    | ok u next =>
      rw [Exec.bind_ok first] at ran
      exact .head (.returned first) (ih ran)
    | thrown err next =>
      rw [Exec.bind_apply,first] at ran
      cases ran
    | undefined why =>
      rw [Exec.bind_apply,first] at ran
      cases ran

def Machine.keepsTime (m : Machine) : Bool :=
  !m.timer.irqPending || (!m.deliverInterrupt.fetchesIrq &&
    decide ((Novium.fetch (saveBefore m.deliverInterrupt)).Sat
      (fun i pre => pre.dataPa i = some timerIrq → cyclesPerTick ≤ m.tickAccum+3) (fun _ _ => True) (fun _ => True)))

theorem timely_of_keepsTime (keeps : m.keepsTime = true) : m.Timely := by
  intro _ pending cycles acks
  simp only [Machine.keepsTime,pending,Bool.not_true,Bool.false_or,Bool.and_eq_true,Bool.not_eq_true',decide_eq_true_eq] at keeps
  obtain ⟨elsewhere,keeps⟩ := keeps
  cases acks with
  | fetch here => cases elsewhere.symm.trans here
  | data i pre op fetched opcode reaches =>
    rw [fetched] at keeps
    have enough := keeps reaches
    cases op with
    | load => exact enough
    | store => exact enough
    | _ =>
      rw [dataPa_other opcode (by decide) (by decide)] at reaches
      cases reaches

def timelySteps (h : Host) : Nat → Machine → Option Machine
  | 0,m => some m
  | n+1,m => if m.keepsTime then match step h m with
      | .ok _ m' => timelySteps h n m'
      | _ => none
    else none

theorem timelySteps_path {n : Nat} (ran : timelySteps h n m = some m') : ReflTransGen (fun a b => Stepped h a b ∧ a.Timely) m m' := by
  induction n generalizing m with
  | zero =>
    cases ran
    exact .refl
  | succ n ih =>
    simp only [timelySteps,Option.ite_none_right_eq_some] at ran
    obtain ⟨keeps,ran⟩ := ran
    cases first : step h m with
    | ok u next =>
      rw [first] at ran
      exact .head ⟨.returned first,timely_of_keepsTime keeps⟩ (ih ran)
    | thrown err next =>
      rw [first] at ran
      cases ran
    | undefined why =>
      rw [first] at ran
      cases ran

-- The guest starts the timer with a limit of one cycle. A VEC_ADD of 1979 cycles takes it to a
-- tick, where the timer expires; the guest stops it, and its LOAD of the IRQ register comes to the next tick.
def servedTimer : Machine :=
  {(Emulator.programmed [Enc.movi 1 0x3F0,Enc.movi 2 0x100,Enc.mul 1 1 2,Enc.mul 1 1 2,Enc.movi 3 1,Enc.store 3 1 4,Enc.store 3 1 8,
    Enc.vecAdd 0 1 2,Enc.store 0 1 8,Enc.load 4 1 12]).core with target := {makeAsicProfile with cycleOverrides := fun _ => 1979}}

-- After the VEC_ADD the line is up with the flag; after the LOAD, which reads the expiry, both are down.
theorem timer_line_follows_served : ∃ expired acknowledged,
    ReflTransGen (fun a b => Stepped (.ieee .scalar) a b ∧ a.Timely) servedTimer expired ∧
    ReflTransGen (fun a b => Stepped (.ieee .scalar) a b ∧ a.Timely) expired acknowledged ∧
    expired.intc.mip.getLsbD 7 = true ∧ LineServes expired ∧ acknowledged.regs.gpr 4 = 1 ∧
    acknowledged.intc.mip.getLsbD 7 = false ∧ LineServes acknowledged := by
  have serves := fun m => (timer_line_follows (.ieee .scalar)).1 (Machine.initial 512 256) servedTimer m ⟨rfl,rfl⟩ rfl
  have first : (timelySteps (.ieee .scalar) 8 servedTimer).any (fun m => m.intc.mip.getLsbD 7 &&
      (timelySteps (.ieee .scalar) 2 m).any fun m => m.regs.gpr 4 == 1 && !m.intc.mip.getLsbD 7) = true := by decide +kernel
  obtain ⟨expired,ran,holds⟩ := (Option.any_eq_true _ _).mp first
  obtain ⟨line,later⟩ := Bool.and_eq_true_iff.mp holds
  obtain ⟨acknowledged,rest,holds⟩ := (Option.any_eq_true _ _).mp later
  obtain ⟨read,low⟩ := Bool.and_eq_true_iff.mp holds
  have before := timelySteps_path ran
  have after := timelySteps_path rest
  exact ⟨expired,acknowledged,before,after,line,serves expired before,beq_iff_eq.mp read,by simpa using low,
    serves acknowledged (before.trans after)⟩

-- The guest starts the timer with a limit of one cycle, and a VEC_ADD of a thousand cycles takes it to a tick.
def expiringTimer : Machine :=
  {(Emulator.programmed [Enc.movi 1 0x3F0,Enc.movi 2 0x100,Enc.mul 1 1 2,Enc.mul 1 1 2,Enc.movi 3 1,Enc.store 3 1 4,Enc.store 3 1 8,
    Enc.vecAdd 0 1 2,Enc.load 4 1 12]).core with target := {makeAsicProfile with cycleOverrides := fun _ => 1000}}

theorem expiringTimer_acknowledged : (stepTimes (.ieee .scalar) 9 expiringTimer).Sat
    (fun _ m => m.intc.mip.getLsbD 7 = true ∧ m.timer.irqPending = false) (fun _ _ => False) (fun _ => False) := by decide +kernel

theorem acknowledged_line_stays : ¬ ∀ (h : Host) (m₀ start m : Machine), FromReset m₀ start → ReflTransGen (Stepped h) start m →
    m.LineFollows := by
  intro right
  obtain ⟨_,m,ran,line,flag⟩ := expiringTimer_acknowledged.returns
  have follows := right (.ieee .scalar) (Machine.initial 512 256) expiringTimer m ⟨rfl,rfl⟩ (stepTimes_path ran)
  unfold Machine.LineFollows at follows
  rw [line,flag] at follows
  cases follows

end Novium
