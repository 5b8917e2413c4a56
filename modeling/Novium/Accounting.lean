import Novium.Frames
import Novium.Histories

namespace Novium
open Storage Effects StateTransition SmallStep Relation

-- What one instruction owes the counters.
structure AccountedOnce (op : Opcode) (m m' : Machine) : Prop where
  instr : m'.profiler.instrCount = m.profiler.instrCount+1
  hist : m'.profiler.opcodeHist = Function.update m.profiler.opcodeHist op.bits (m.profiler.opcodeHist op.bits+1)
  cycles : m'.profiler.cycleCount-m.profiler.cycleCount = m'.tickAccum-m.tickAccum

namespace Profiler
variable (p : Profiler) (op : Opcode) (cycles : Word) (bytes : DWord)

@[simp] theorem record_instrCount : (p.record op cycles bytes).instrCount = p.instrCount+1 := by
  unfold record
  dsimp only
  split <;> rfl

@[simp] theorem record_cycleCount : (p.record op cycles bytes).cycleCount = p.cycleCount+cycles.zeroExtend 64 := by
  unfold record
  dsimp only
  split <;> rfl

@[simp] theorem record_opcodeHist : (p.record op cycles bytes).opcodeHist =
    Function.update p.opcodeHist op.bits (p.opcodeHist op.bits+1) := by
  unfold record
  dsimp only
  split <;> rfl

end Profiler

section Instruction
variable {h : Host} {i : Instruction} {op : Opcode} {m m' : Machine} {cycles : Word}

theorem execute_charged (ran : execute h i m = .ok cycles m') : Charged i cycles m m' := by
  have effect := execute_frame h i m
  rw [ran] at effect
  exact effect

-- The handler's own record of a stalled DMA_LOAD is the only one that is not matched.
theorem accounted_iff (opcode : i.opcode = some op) (ran : execute h i m = .ok cycles m') :
    AccountedOnce op m m' ↔ m.backpressured i = false := by
  obtain ⟨accum,profiler⟩ := (execute_charged ran).handled op opcode
  cases stalled : m.backpressured i with
  | false =>
    have recorded : m.stallRecord i = m.profiler := by simp [Machine.stallRecord,stalled]
    rw [recorded] at profiler
    refine ⟨fun _ => rfl,fun _ => ⟨?_,?_,?_⟩⟩
    · rw [profiler,Profiler.record_instrCount]
    · rw [profiler,Profiler.record_opcodeHist]
    · rw [profiler,Profiler.record_cycleCount,accum,BitVec.add_comm,BitVec.add_sub_cancel,BitVec.add_comm,BitVec.add_sub_cancel]
  | true =>
    have recorded : m.stallRecord i = m.profiler.record .dmaLoad 1 0 := by simp [Machine.stallRecord,stalled]
    rw [recorded] at profiler
    refine ⟨?_,fun impossible => by cases impossible⟩
    intro accounted
    have twice := accounted.instr
    rw [profiler,Profiler.record_instrCount,Profiler.record_instrCount] at twice
    simp at twice

end Instruction

structure Tally where
  executed : Opcode → Nat
  ticks : Nat

namespace Tally

def zero : Tally := ⟨fun _ => 0,0⟩

def total (t : Tally) : Nat := (Opcode.all.map t.executed).sum

def count (t : Tally) : Option Opcode → Tally
  | some op => {t with executed := Function.update t.executed op (t.executed op+1)}
  | none => t

def execute (h : Host) (i : Instruction) (m : Machine) (t : Tally) : Tally :=
  match Novium.execute h i m with
  | .ok _ after => {t.count i.opcode with ticks := t.ticks+after.tickAccum.toNat/cyclesPerTick.toNat}
  | _ => t

theorem sum_map_raised {α : Type} [DecidableEq α] (f : α → Nat) (a : α) (xs : List α) :
    (xs.map (Function.update f a (f a+1))).sum = (xs.map f).sum+xs.count a := by
  induction xs with
  | nil => rfl
  | cons first rest ih =>
    rw [List.map_cons,List.map_cons,List.sum_cons,List.sum_cons,ih,List.count_cons]
    by_cases same : first = a
    · subst same
      rw [Function.update_self,beq_self_eq_true,if_pos rfl]
      omega
    · rw [Function.update_of_ne same,if_neg (by simpa using same)]
      omega

theorem total_count (t : Tally) (op : Opcode) : (t.count (some op)).total = t.total+1 := by
  have once : Opcode.all.count op = 1 := by cases op <;> rfl
  unfold total count
  rw [sum_map_raised,once]

end Tally

structure Balanced (t : Tally) (m : Machine) : Prop where
  instr : m.profiler.instrCount = BitVec.ofNat 64 t.total
  hist : ∀ b, m.profiler.opcodeHist b = BitVec.ofNat 64 (((Opcode.ofBits b).map t.executed).getD 0)
  cycles : m.profiler.cycleCount = m.tickAccum+cyclesPerTick*BitVec.ofNat 64 t.ticks

theorem balanced_of_books {t : Tally} {m m' : Machine} (balanced : Balanced t m) (profiler : m'.profiler = m.profiler)
    (accum : m'.tickAccum = m.tickAccum) : Balanced t m' := by
  refine ⟨?_,?_,?_⟩
  · rw [profiler]
    exact balanced.instr
  · rw [profiler]
    exact balanced.hist
  · rw [profiler,accum]
    exact balanced.cycles

-- Each pass of the tick loop takes one tick out of the accumulator.
theorem tickAccum_ticks (m : Machine) : m.tickPeripherals.tickAccum+
    cyclesPerTick*BitVec.ofNat 64 (m.tickAccum.toNat/cyclesPerTick.toNat) = m.tickAccum := by
  unfold Machine.tickPeripherals
  generalize m.tickAccum.toNat/cyclesPerTick.toNat = passes
  induction passes generalizing m with
  | zero => simp
  | succ passes ih =>
    have rest := ih m.tickOnce
    have taken : m.tickOnce.tickAccum = m.tickAccum-cyclesPerTick := rfl
    rw [Function.iterate_succ_apply,BitVec.ofNat_add,BitVec.mul_add,← BitVec.add_assoc,rest,taken]
    simp only [BitVec.mul_one,BitVec.sub_add_cancel]

theorem Balanced.tick {t : Tally} {m : Machine} (balanced : Balanced t m) :
    Balanced {t with ticks := t.ticks+m.tickAccum.toNat/cyclesPerTick.toNat} m.tickPeripherals := by
  have profiler : m.tickPeripherals.profiler = m.profiler :=
    Machine.tickPeripherals_keeps Machine.profiler (fun _ => rfl) m
  refine ⟨?_,?_,?_⟩
  · rw [profiler]
    exact balanced.instr
  · rw [profiler]
    exact balanced.hist
  · have whole := tickAccum_ticks m
    rw [profiler,balanced.cycles,BitVec.ofNat_add,BitVec.mul_add]
    rw [BitVec.add_comm (cyclesPerTick*BitVec.ofNat 64 t.ticks),← BitVec.add_assoc,whole]

theorem Balanced.count {t : Tally} {m m' : Machine} {op : Opcode} (balanced : Balanced t m) (accounted : AccountedOnce op m m') :
    Balanced (t.count (some op)) m' := by
  refine ⟨?_,?_,?_⟩
  · rw [accounted.instr,balanced.instr,Tally.total_count,BitVec.ofNat_add]
    rfl
  · intro b
    rw [accounted.hist]
    by_cases same : b = op.bits
    · subst same
      rw [Function.update_self,balanced.hist,Opcode.ofBits_bits]
      simp [Tally.count,BitVec.ofNat_add]
    · rw [Function.update_of_ne same,balanced.hist]
      cases known : Opcode.ofBits b with
      | none => rfl
      | some other =>
        have apart : other ≠ op := by
          intro equal
          subst equal
          exact same (Opcode.bits_ofBits known).symm
        simp [Tally.count,Function.update_of_ne apart]
  · have raised := accounted.cycles
    have books : m'.profiler.cycleCount = m.profiler.cycleCount+(m'.tickAccum-m.tickAccum) := by
      rw [← raised,BitVec.add_comm,BitVec.sub_add_cancel]
    rw [books,balanced.cycles]
    change _ = m'.tickAccum+cyclesPerTick*BitVec.ofNat 64 t.ticks
    generalize cyclesPerTick*BitVec.ofNat 64 t.ticks = passed
    bv_omega

section Steps
variable {h : Host} {t : Tally} {m m' : Machine} {i : Instruction} {cycles : Word}

theorem Balanced.execute {after : Machine} (balanced : Balanced t m) (ran : execute h i m = .ok cycles after)
    (smooth : m.backpressured i = false) : Balanced (t.execute h i m) after.tickPeripherals := by
  have counted : Balanced (t.count i.opcode) after := by
    cases opcode : i.opcode with
    | none =>
      obtain ⟨accum,profiler⟩ := (execute_charged ran).illegal opcode
      exact balanced_of_books balanced profiler accum
    | some op => exact balanced.count ((accounted_iff opcode ran).mpr smooth)
  have ticks : (t.count i.opcode).ticks = t.ticks := by
    cases i.opcode <;> rfl
  have ticked := counted.tick
  rw [ticks] at ticked
  simp only [Tally.execute,ran]
  exact ticked

theorem Balanced.stopped {err : EmulatorError} (balanced : Balanced t m) (ran : Novium.execute h i m = .thrown err m') :
    Balanced t m' := by
  have effect := execute_frame h i m
  rw [ran] at effect
  exact balanced_of_books balanced effect.profiler effect.tickAccum

end Steps

-- The tally as a history beside the machine, what the counters are kept in, and the
-- instructions that are recorded twice.
def tallies : History Tally := ⟨.zero,fun h i m t => t.execute h i m⟩
def Machine.books (m : Machine) : Profiler × DWord := (m.profiler,m.tickAccum)
def Stalls (i : Instruction) (m : Machine) : Prop := m.backpressured i = true

abbrev AnyCall (h : Host) : Activity × Tally → Activity × Tally → Prop := tallies.AnyCall Machine.books Stalls h
abbrev SmoothCall (h : Host) : Activity × Tally → Activity × Tally → Prop := tallies.CallWithout Machine.books Stalls h

theorem reset_balanced (e : Emulator) : Balanced .zero e.reset.core := by
  refine ⟨?_,?_,?_⟩
  · change (0 : DWord) = BitVec.ofNat 64 Tally.zero.total
    decide
  · intro b
    change (0 : DWord) = _
    cases Opcode.ofBits b with
    | none => rfl
    | some op => rfl
  · change (0 : DWord) = 0+cyclesPerTick*BitVec.ofNat 64 0
    decide

theorem tallies_keep (h : Host) : tallies.Keeps Machine.books Stalls h Balanced where
  blind := fun _ _ _ _ _ _ _ _ => rfl
  quiet := fun _ _ _ => rfl
  viewed t m m' same balanced := by
    obtain ⟨profiler,accum⟩ := Prod.mk.inj same
    exact balanced_of_books balanced profiler accum
  returned t i m cycles after balanced ran smooth := balanced.execute ran (Bool.eq_false_iff.mpr smooth)
  thrown t i m err after balanced threw := by
    simp only [tallies,Tally.execute,threw]
    exact balanced.stopped threw
  reset := reset_balanced

-- Each instruction that returns is accounted once unless it is a DMA_LOAD that found
-- the fabric full; in every run since reset without such a DMA_LOAD, the counters are
-- the numbers of instructions executed, and the cycles are those accumulated plus
-- those the peripherals were ticked with.
theorem instructions_accounted (h : Host) :
    (∀ i op m cycles m', i.opcode = some op → execute h i m = .ok cycles m' →
      (AccountedOnce op m m' ↔ m.backpressured i = false)) ∧
    ∀ (e : Emulator) (c : Activity) (t : Tally) (e' : Emulator),
      ReflTransGen (SmoothCall h) (.idle e.reset,.zero) (c,t) → c.emulator = some e' → Balanced t e'.core := by
  refine ⟨fun i op m cycles m' opcode ran => accounted_iff opcode ran,?_⟩
  intro e c t e' path found
  exact (tallies_keep h).path ((tallies_keep h).start e) path e' found

-- Executable companion of a path of `step` calls.
def tallied (h : Host) : Nat → Emulator × Tally → Option (Emulator × Tally)
  | 0,(e,t) => some (e,t)
  | n+1,(e,t) => match step h e.core with
    | .ok _ m => tallied h n (⟨m,e.blockCache⟩,tallies.step h e.core t)
    | _ => none

theorem path_of_tallied {h : Host} {n : Nat} {e e' : Emulator} {t t' : Tally} (ran : tallied h n (e,t) = some (e',t')) :
    ReflTransGen (AnyCall h) (.idle e,t) (.idle e',t') := by
  induction n generalizing e t with
  | zero =>
    cases ran
    exact .refl
  | succ n ih =>
    unfold tallied at ran
    cases stepped : step h e.core with
    | ok _ m =>
      rw [stepped] at ran
      exact .head ⟨_,.step _ _ _ stepped⟩ (ih ran)
    | thrown err m =>
      rw [stepped] at ran
      cases ran
    | undefined why =>
      rw [stepped] at ran
      cases ran

-- Eight loads fill the fabric; the DMA_LOAD after them is recorded twice.
def fillsFabric : Emulator := .programmed (List.replicate 8 (Enc.load 1 0 0x40) ++ [Enc.dmaLoad 2 0 4])

theorem full_fabric_counted_twice : ¬ ∀ (h : Host) (e : Emulator) (c : Activity) (t : Tally) (e' : Emulator),
    ReflTransGen (AnyCall h) (.idle e.reset,.zero) (c,t) → c.emulator = some e' → Balanced t e'.core := by
  intro balanced
  have start : AnyCall (.ieee .scalar) (.idle (Emulator.initial 512 256).reset,.zero) (.idle fillsFabric,.zero) :=
    ⟨_,.configure _ _ _ rfl⟩
  have off : (tallied (.ieee .scalar) 9 (fillsFabric,.zero)).any
      (fun r => r.1.core.profiler.instrCount != BitVec.ofNat 64 r.2.total) = true := by decide +kernel
  obtain ⟨⟨e',t'⟩,ran,apart⟩ := (Option.any_eq_true _ _).mp off
  have counted := (balanced _ _ _ _ e' (.head start (path_of_tallied ran)) rfl).instr
  simp [counted] at apart

end Novium
