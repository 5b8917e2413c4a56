import Novium.StateInvariant

namespace Novium
open Storage Effects Handlers
variable {h : Host} {m m' : Machine} {i : Instruction} {op : Opcode}

-- The cycles a handler returns, from the state before it. A page fault costs two.
def Machine.charge (m : Machine) (i : Instruction) (op : Opcode) : Word :=
  match op with
  | .halt => 0
  | .beq => cycleWeight .beq 0+(if m.regs.readGpr i.rd.toNat = m.regs.readGpr i.ra.toNat then 1 else 0)
  | .bne => cycleWeight .bne 0+(if m.regs.readGpr i.rd.toNat = m.regs.readGpr i.ra.toNat then 0 else 1)
  | .load => if ((m.dataVa i).bind fun va => (m.resolved va false).1).isSome then cycleWeight .load 0 else 2
  | .store => if ((m.dataVa i).bind fun va => (m.resolved va true).1).isSome then cycleWeight .store 0 else 2
  | .vecAdd => profileCycleWeight m.target .vecAdd 0
  | .matmulTile => profileCycleWeight m.target .matmulTile (BitVec.ofNat 16 (i.func &&& 0xF).toNat)
  | .dmaLoad => if m.transfers i then profileCycleWeight m.target .dmaLoad ((dmaCount i).truncate 16) else 2
  | .dmaStore => if m.transfers i then profileCycleWeight m.target .dmaStore ((dmaCount i).truncate 16) else 2
  | op => cycleWeight op 0

-- What the next step of a running machine adds to its cycle count.
def Machine.stepCharge (m : Machine) : Nat :=
  match fetch (saveBefore m.deliverInterrupt) with
  | .ok i pre => (i.opcode.map fun op => (pre.charge i op).toNat+(if pre.backpressured i then 1 else 0)).getD 0
  | _ => 0

def Charges (cycles : Word) (o : Outcome EmulatorError Hazard Machine Word) : Prop :=
  o.Sat (fun returned _ => returned = cycles) (fun _ _ => True) (fun _ => True)

namespace Handlers

theorem onRegs_charges {cycles : Word} {x : OnRegs Word}
    (kept : (x m.regs).Sat (fun returned _ => returned = cycles) (fun _ _ => True) (fun _ => True)) : Charges cycles (onRegs x m) :=
  sat_onRegs.mpr kept

theorem arith_charges (f : Word → Word → Word) (overflow : Word → Word → Word → Bool) :
    Charges (cycleWeight op 0) (onRegs (arith op f overflow i) m) := by
  apply onRegs_charges
  simp only [arith,Exec.sat_bind,sat_readGpr,sat_writeGpr,Exec.modify_apply,Exec.pure_apply,Outcome.sat_ok,implies_true,and_true]

theorem branch_charges (taken : Word → Word → Bool) {cycles : Word}
    (cost : ∀ rs rt, m.regs.readGpr i.rd.toNat = some rs → m.regs.readGpr i.ra.toNat = some rt →
      (if taken rs rt then cycleWeight op 0+1 else cycleWeight op 0) = cycles) : Charges cycles (onRegs (branch op taken i) m) := by
  apply onRegs_charges
  simp only [branch,Exec.sat_bind,sat_readGpr,implies_true,and_true]
  intro rs first rt second
  have total := cost rs rt first second
  rw [Exec.ite_apply]
  split
  · rename_i goes
    rw [if_pos goes] at total
    exact total
  · rename_i stays
    rw [if_neg stays] at total
    exact total

theorem opLoad_charges : Charges (m.charge i .load) (opLoad i m) := by
  apply sat_opLoad trivial trivial
  · intro va read translated
    simp [Machine.charge,read,translated]
  · intro va addr axi read translated
    refine sat_busRead (fun _ r _ => ?_) (fun _ _ => trivial) (fun _ => trivial)
    simp [Machine.charge,read,translated]

theorem opStore_charges : Charges (m.charge i .store) (opStore i m) := by
  apply sat_opStore trivial trivial
  · intro va read translated
    simp [Machine.charge,read,translated]
  · intro va addr value axi read translated _
    refine sat_busWrite (fun _ m' _ => ?_) (fun _ _ => trivial) (fun _ => trivial)
    simp [Machine.charge,read,translated]

theorem opLoadVr_charges : Charges (cycleWeight .loadVr 0) (opLoadVr i m) :=
  sat_opLoadVr trivial (fun _ => trivial) fun _ _ => rfl

theorem opStoreVr_charges : Charges (cycleWeight .storeVr 0) (opStoreVr i m) :=
  sat_opStoreVr trivial (fun _ => trivial) fun _ _ _ => rfl

theorem dma_charges (h : Host) {op : Opcode} (dma : op.isDma) : Charges (m.charge i op) (handler h op i m) := by
  have charge : m.charge i op = if m.transfers i then profileCycleWeight m.target op ((dmaCount i).truncate 16) else 2 := by
    rcases dma with rfl | rfl <;> rfl
  refine sat_dma h dma ⟨?_,fun _ _ _ => trivial,?_,fun _ _ => trivial⟩
  · intro u va isStore site
    rw [charge,transfers_unmapped (site.unmapped dma)]
    rfl
  · intro s _ axi
    rw [charge,transfers_site s]
    rfl

end Handlers

theorem handler_charges (h : Host) (op : Opcode) (i : Instruction) (m : Machine) : Charges (m.charge i op) (handler h op i m) := by
  cases op with
  | nop => exact rfl
  | halt => exact rfl
  | jmp => exact rfl
  | beq =>
    apply branch_charges
    intro rs rt first second
    by_cases same : rs = rt
    · simp [Machine.charge,first,second,same]
    · simp [Machine.charge,first,second,same]
  | bne =>
    apply branch_charges
    intro rs rt first second
    by_cases same : rs = rt
    · simp [Machine.charge,first,second,same]
    · simp [Machine.charge,first,second,same]
  | add => exact arith_charges _ _
  | sub => exact arith_charges _ _
  | mul => exact arith_charges _ _
  | load => exact opLoad_charges
  | store => exact opStore_charges
  | mov =>
    apply onRegs_charges
    simp only [opMov,Exec.sat_bind,sat_readGpr,sat_writeGpr,Exec.pure_apply,Outcome.sat_ok,implies_true,and_true]
    intro _ _ _ _
    rfl
  | movi =>
    apply onRegs_charges
    simp only [opMovi,Exec.sat_bind,sat_writeGpr,Exec.pure_apply,Outcome.sat_ok,implies_true,and_true]
    intro _ _
    rfl
  | loadVr => exact opLoadVr_charges
  | storeVr => exact opStoreVr_charges
  | vecAdd =>
    apply onRegs_charges
    simp only [opVecAdd,Exec.sat_bind,sat_vr,Exec.modify_apply,Exec.pure_apply,Outcome.sat_ok,implies_true,and_true]
    intro _ _ _ _ _ _
    rfl
  | matmulTile =>
    apply onRegs_charges
    simp only [opMatmulTile,Exec.ite_apply]
    split
    · trivial
    · simp only [Exec.sat_bind,sat_vr,Exec.modify_apply,Exec.pure_apply,Outcome.sat_ok,implies_true,and_true]
      intro _ _ _ _ _ _
      rfl
  | dmaLoad => exact dma_charges h (.inl rfl)
  | dmaStore => exact dma_charges h (.inr rfl)

theorem cycleWeight_ne_zero (other : op ≠ .halt) (func : BitVec 16) : cycleWeight op func ≠ 0 := by
  have transfer : (func.zeroExtend 32+dmaLineSize-1)/dmaLineSize+2 ≠ 0 := by
    intro zero
    have total := congrArg BitVec.toNat zero
    rw [BitVec.toNat_add,BitVec.toNat_udiv] at total
    have bound := (func.zeroExtend 32+dmaLineSize-1).isLt
    have line : dmaLineSize.toNat = 64 := rfl
    have two : (2 : Word).toNat = 2 := rfl
    have none : (0 : Word).toNat = 0 := rfl
    rw [line,two,none] at total
    omega
  cases op with
  | halt => exact absurd rfl other
  | dmaLoad => exact transfer
  | dmaStore => exact transfer
  | _ => exact fun impossible => (by cases impossible)

theorem profileCycleWeight_ne_zero (other : op ≠ .halt) (p : TargetProfile) (func : BitVec 16) : profileCycleWeight p op func ≠ 0 := by
  unfold profileCycleWeight
  split
  · assumption
  · exact cycleWeight_ne_zero other func

-- Every instruction but HALT takes time.
theorem charge_ne_zero (other : op ≠ .halt) (m : Machine) (i : Instruction) : m.charge i op ≠ 0 := by
  have weight := fun func => cycleWeight_ne_zero other func
  have profiled := fun func => profileCycleWeight_ne_zero other m.target func
  unfold Machine.charge
  cases op with
  | halt => exact absurd rfl other
  | beq =>
    dsimp only
    split <;> decide
  | bne =>
    dsimp only
    split <;> decide
  | load =>
    dsimp only
    split <;> decide
  | store =>
    dsimp only
    split <;> decide
  | vecAdd => exact profiled _
  | matmulTile => exact profiled _
  | dmaLoad =>
    dsimp only
    split
    · exact profiled _
    · decide
  | dmaStore =>
    dsimp only
    split
    · exact profiled _
    · decide
  | _ => exact weight 0

theorem execute_halts {cycles : Word} (opcode : i.opcode = some .halt) (ran : execute h i m = .ok cycles m') : m'.regs.halt = true := by
  unfold execute at ran
  rw [opcode] at ran
  cases ran
  rfl

theorem execute_charge {cycles : Word} (opcode : i.opcode = some op) (ran : execute h i m = .ok cycles m') : cycles = m.charge i op := by
  have charges := handler_charges h op i m
  unfold execute at ran
  rw [opcode] at ran
  dsimp only at ran
  cases handled : handler h op i m with
  | ok returned after =>
    rw [Exec.bind_ok handled] at ran
    rw [handled] at charges
    cases ran
    exact charges
  | thrown err after =>
    rw [Exec.bind_apply,handled] at ran
    cases ran
  | undefined why =>
    rw [Exec.bind_apply,handled] at ran
    cases ran

-- The next step does not enter the trap of an unknown opcode.
def Machine.Legal (m : Machine) : Prop :=
  ∀ i pre, fetch (saveBefore m.deliverInterrupt) = .ok i pre → i.opcode = none → pre.csr.mtvec = 0

structure StepCharged (m m' : Machine) : Prop where
  cycles : m'.profiler.cycleCount = m.profiler.cycleCount+BitVec.ofNat 64 m.stepCharge
  works : 0 < m.stepCharge ∨ m'.regs.halt = true

-- The trap of an unknown opcode is not accounted for.
theorem step_cycles (running : m.regs.halt = false) (ran : step h m = .ok () m') :
    m'.profiler.cycleCount = m.profiler.cycleCount+BitVec.ofNat 64 m.stepCharge := by
  have effect := cycle_effect h m.deliverInterrupt
  rw [step_running h running] at ran
  rw [ran] at effect
  cases effect with
  | @ran i pre cycles after fetched executed =>
    have profiler : (logStep m.deliverInterrupt.regs.pc i cycles after.tickPeripherals).profiler = after.profiler :=
      (Machine.logStep_keeps Machine.profiler (fun _ _ => rfl) ..).trans (Machine.tickPeripherals_keeps Machine.profiler (fun _ => rfl) _)
    have before := (books_fetched fetched).1
    cases opcode : i.opcode with
    | none =>
      have free : m.stepCharge = 0 := by
        unfold Machine.stepCharge
        rw [fetched]
        simp [opcode]
      rw [profiler,((execute_charged executed).illegal opcode).2,before,free,BitVec.add_zero]
    | some op =>
      have booked := ((execute_charged executed).handled op opcode).2
      have cost := execute_charge opcode executed
      have total : m.stepCharge = (pre.charge i op).toNat+(if pre.backpressured i then 1 else 0) := by
        unfold Machine.stepCharge
        rw [fetched]
        simp [opcode]
      have widened : cycles.zeroExtend 64 = BitVec.ofNat 64 (pre.charge i op).toNat := by
        rw [cost]
        apply BitVec.eq_of_toNat_eq
        rw [BitVec.toNat_setWidth,BitVec.toNat_ofNat]
      rw [profiler,booked,Profiler.record_cycleCount,widened,total]
      unfold Machine.stallRecord
      split
      · rename_i stalled
        have one : BitVec.zeroExtend 64 (1 : Word) = BitVec.ofNat 64 1 := rfl
        rw [Profiler.record_cycleCount,before,one,BitVec.add_assoc,← BitVec.ofNat_add,Nat.add_comm 1]
      · rw [before,Nat.add_zero]

theorem step_charged (legal : m.Legal) (running : m.regs.halt = false) (ran : step h m = .ok () m') : StepCharged m m' := by
  refine ⟨step_cycles running ran,?_⟩
  have effect := cycle_effect h m.deliverInterrupt
  rw [step_running h running] at ran
  rw [ran] at effect
  cases effect with
  | @ran i pre cycles after fetched executed =>
    have regs : (logStep m.deliverInterrupt.regs.pc i cycles after.tickPeripherals).regs = after.regs :=
      (congrArg Visible.regs (visible_logStep _ _ _ _)).trans (congrArg Visible.regs (visible_tick after))
    cases opcode : i.opcode with
    | none =>
      have unvectored := legal i pre fetched opcode
      simp [execute,opcode,illegal,Exec.bind_apply,unvectored] at executed
    | some op =>
      by_cases halts : op = .halt
      · subst halts
        rw [regs]
        exact .inr (execute_halts opcode executed)
      · left
        unfold Machine.stepCharge
        rw [fetched]
        simp only [opcode,Option.map_some,Option.getD_some]
        apply Nat.add_pos_left
        apply Nat.pos_of_ne_zero
        intro zero
        exact charge_ne_zero halts pre i (BitVec.eq_of_toNat_eq zero)

end Novium
