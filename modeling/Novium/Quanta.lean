import Novium.ClusterProgress
import Novium.SmallStep
import Novium.WindowSafety

namespace Novium
open Storage Effects Relation StateTransition SmallStep
variable {h : Host} {b : Bounds} {c d : Cluster} {m m' : Machine} {i n : Nat} {before q : DWord} {k k' : ClusterConfig}

-- The next instruction of a core by itself, until it halts or throws.
def coreNext (h : Host) (m : Machine) : Option Machine :=
  if m.regs.halt then none
  else match step h m with
    | .ok _ m' => some m'
    | _ => none

-- What the first `n` instructions of a core cost, each read off the state before it.
def spent (h : Host) : Nat → Machine → Nat := total (coreNext h) Machine.stepCharge

-- The core's next instruction is its last: it halts or does not return.
def Last (h : Host) (m : Machine) : Prop := ∀ m', coreNext h m = some m' → m'.regs.halt = true

-- A condition on the charges of the instructions of a turn. A core that runs through the
-- turn pays one cycle for each instruction but the last, and for that one at least one,
-- short of carrying the counter round; before an instruction that stops the core within
-- the turn, less than a quantum is paid.
structure Steady (h : Host) (quantum : DWord) (m : Machine) : Prop where
  through : ∀ last, after (coreNext h) quantum.toNat m = some last → last.regs.halt = false →
    ∀ n m', after (coreNext h) n m = some m' → (n+1 < quantum.toNat → m'.stepCharge = 1) ∧
      (n+1 = quantum.toNat → 1 ≤ m'.stepCharge ∧ n+m'.stepCharge < 2^64)
  stopped : ∀ n m', n < quantum.toNat → after (coreNext h) n m = some m' → m'.regs.halt = false → Last h m' →
    spent h n m < quantum.toNat

-- No instruction of the turn enters the trap that is not charged for.
def LegalTurn (h : Host) (quantum : DWord) (m : Machine) : Prop :=
  ∀ n m', n < quantum.toNat → after (coreNext h) n m = some m' → m'.Legal

-- What the cycle count owes a turn: after a quantum of instructions a core that still runs
-- has come to a quantum of cycles, and not before.
def Punctual (h : Host) (quantum : DWord) (m : Machine) : Prop :=
  ∀ n m', n ≤ quantum.toNat → after (coreNext h) n m = some m' → m'.regs.halt = false →
    (n < quantum.toNat ↔ BitVec.ofNat 64 (spent h n m) < quantum)

def EveryTurn (h : Host) (c : Cluster) (maxCycles : DWord) (holds : DWord → Machine → Prop) : Prop :=
  ∀ b d i before m, Reaches (ClusterConfig.next h) (c.run maxCycles) (.quantum b d i before 0) → d.cores[i]? = some m →
    holds d.quantum (m.attach d.sharedRam)

-- Wherever a turn stands, another instruction is due just when the core runs and has
-- not come to a quantum of cycles since the turn began.
def Measured (k : ClusterConfig) : Prop :=
  ∀ b d i before q m, k = .quantum b d i before q → d.cores[i]? = some m →
    (k.stepping.isSome = true ↔ m.regs.halt = false ∧ m.profiler.cycleCount-before < d.quantum)

theorem coreNext_eq : coreNext h m = some m' ↔ m.regs.halt = false ∧ step h m = .ok () m' := by
  unfold coreNext
  cases m.regs.halt with
  | true => simp
  | false =>
    cases step h m with
    | ok u after => simp
    | thrown err after => simp
    | undefined why => simp

theorem spent_cycles (ran : after (coreNext h) n m = some m') :
    m'.profiler.cycleCount = m.profiler.cycleCount+BitVec.ofNat 64 (spent h n m) := by
  induction n generalizing m' with
  | zero =>
    cases ran
    exact (BitVec.add_zero _).symm
  | succ n ih =>
    obtain ⟨middle,early,last⟩ := after_succ.mp ran
    obtain ⟨running,stepped⟩ := coreNext_eq.mp last
    unfold spent at ih ⊢
    rw [total_succ early,step_cycles running stepped,ih early,BitVec.ofNat_add,BitVec.add_assoc]

theorem runs_through {k : Nat} {last : Machine} (ran : after (coreNext h) n m = some last) (goes : last.regs.halt = false) (less : k ≤ n) :
    ∃ e, after (coreNext h) k m = some e ∧ e.regs.halt = false := by
  induction n generalizing last with
  | zero =>
    rw [Nat.le_zero.mp less]
    exact ⟨last,ran,goes⟩
  | succ n ih =>
    by_cases whole : k = n+1
    · rw [whole]
      exact ⟨last,ran,goes⟩
    · obtain ⟨middle,early,step⟩ := after_succ.mp ran
      exact ih early (coreNext_eq.mp step).1 (by omega)

theorem through_or_stopped {q : Nat} (left : Nat) : ∀ n m', n+left = q → after (coreNext h) n m = some m' → m'.regs.halt = false →
    (∃ last, after (coreNext h) q m = some last ∧ last.regs.halt = false) ∨
      ∃ k m'', n ≤ k ∧ k < q ∧ after (coreNext h) k m = some m'' ∧ m''.regs.halt = false ∧ Last h m'' := by
  induction left with
  | zero =>
    intro n m' whole here running
    have same : n = q := whole
    subst same
    exact .inl ⟨m',here,running⟩
  | succ left ih =>
    intro n m' whole here running
    by_cases last : Last h m'
    · exact .inr ⟨n,m',Nat.le_refl n,by omega,here,running,last⟩
    · obtain ⟨next,step,goes⟩ : ∃ next, coreNext h m' = some next ∧ next.regs.halt = false := by
        simpa [Last] using last
      rcases ih (n+1) next (by omega) (after_succ.mpr ⟨m',here,step⟩) goes with through | ⟨k,m'',later,rest⟩
      · exact .inl through
      · exact .inr ⟨k,m'',by omega,rest⟩

theorem lt_quantum {k : Nat} (small : k < 2^64) : BitVec.ofNat 64 k < q ↔ k < q.toNat := by
  rw [BitVec.lt_def,BitVec.toNat_ofNat,Nat.mod_eq_of_lt small]

theorem Steady.punctual (steady : Steady h q m) : Punctual h q m := by
  intro n m' fits here running
  have top := q.isLt
  rcases through_or_stopped (q.toNat-n) n m' (Nat.add_sub_of_le fits) here running with ⟨last,ran,goes⟩ | ⟨k,m'',later,less,there,stays,final⟩
  · have rules := steady.through last ran goes
    by_cases early : n < q.toNat
    · have each : spent h n m = n := total_exact (fun k e less at_k => (rules k e at_k).1 (by omega)) here
      rw [each,lt_quantum (by omega)]
    · have whole : n = q.toNat := by omega
      refine iff_of_false early ?_
      by_cases none : n = 0
      · subst none
        change ¬ (0 : DWord) < q
        rw [BitVec.lt_def,← whole]
        exact Nat.lt_irrefl _
      · obtain ⟨before,rfl⟩ := Nat.exists_eq_succ_of_ne_zero none
        obtain ⟨middle,early',_⟩ := after_succ.mp here
        have each : spent h before m = before := total_exact (fun k e less at_k => (rules k e at_k).1 (by omega)) early'
        obtain ⟨least,room⟩ := (rules before middle early').2 whole
        have paid : spent h (before+1) m = spent h before m+middle.stepCharge := total_succ early'
        rw [paid,each,lt_quantum room]
        omega
  · have less' := steady.stopped k m'' less there stays final
    have paid : spent h n m ≤ spent h k m := total_mono there later
    rw [lt_quantum (by omega)]
    omega

theorem stepCharge_small (m : Machine) : m.stepCharge ≤ 2^32 := by
  unfold Machine.stepCharge
  cases fetch (saveBefore m.deliverInterrupt) with
  | thrown err pre => exact Nat.zero_le _
  | undefined why => exact Nat.zero_le _
  | ok i pre =>
    dsimp only
    cases i.opcode with
    | none => exact Nat.zero_le _
    | some op =>
      have width := (pre.charge i op).isLt
      have stall : (if pre.backpressured i then 1 else 0) ≤ 1 := by split <;> decide
      change (pre.charge i op).toNat+_ ≤ 2^32
      omega

theorem Punctual.below (punctual : Punctual h q m) (small : q.toNat ≤ 2^63) (n : Nat) : ∀ m', n < q.toNat → after (coreNext h) n m = some m' →
    m'.regs.halt = false → spent h n m < q.toNat := by
  induction n with
  | zero =>
    intro m' less _ _
    exact less
  | succ n ih =>
    intro m' less here running
    obtain ⟨middle,early,last⟩ := after_succ.mp here
    have earlier := ih middle (by omega) early (coreNext_eq.mp last).1
    have paid : spent h (n+1) m = spent h n m+middle.stepCharge := total_succ early
    have most := stepCharge_small middle
    have due := (punctual (n+1) m' (by omega) here running).mp less
    rwa [lt_quantum (by omega)] at due

theorem Punctual.steady (punctual : Punctual h q m) (small : q.toNat ≤ 2^63) (legal : LegalTurn h q m) : Steady h q m := by
  refine ⟨?_,fun n m' less here running _ => punctual.below small n m' less here running⟩
  intro last ran goes n m' here
  -- an instruction after which the core goes on is charged for
  have works : ∀ k e, k < q.toNat → after (coreNext h) k m = some e → 0 < e.stepCharge := by
    intro k e less there
    obtain ⟨next,later,on⟩ := runs_through ran goes (show k+1 ≤ q.toNat from less)
    obtain ⟨same,at_k,step⟩ := after_succ.mp later
    cases there.symm.trans at_k
    obtain ⟨running,stepped⟩ := coreNext_eq.mp step
    rcases (step_charged (legal k e less there) running stepped).works with paid | halts
    · exact paid
    · cases on.symm.trans halts
  refine ⟨?_,?_⟩
  · intro early
    obtain ⟨before,there,running⟩ := runs_through ran goes (show q.toNat-1 ≤ q.toNat by omega)
    have below := punctual.below small (q.toNat-1) before (by omega) there running
    exact one_each (fun k e less => works k e (by omega)) there (show spent h (q.toNat-1) m ≤ q.toNat-1 by omega) n m' (by omega) here
  · intro final
    have most := stepCharge_small m'
    exact ⟨works n m' (by omega) here,by omega⟩

theorem stepping_iff (here : d.cores[i]? = some m) :
    (ClusterConfig.quantum b d i before q).stepping.isSome = true ↔ q < d.quantum ∧ m.regs.halt = false := by
  simp only [ClusterConfig.stepping,here,Option.filter_some,Option.isSome_map]
  by_cases due : (decide (q < d.quantum) && !m.regs.halt) = true
  · rw [if_pos due]
    simpa using due
  · rw [if_neg due]
    simpa using due

structure InTurn (h : Host) (start : ClusterConfig) (b : Bounds) (d : Cluster) (i : Nat) (before q : DWord) : Prop where
  within : q.toNat ≤ d.quantum.toNat
  began : ∃ d₀ m₀ m, Reaches (ClusterConfig.next h) start (.quantum b d₀ i before 0) ∧ d₀.cores[i]? = some m₀ ∧
    before = m₀.profiler.cycleCount ∧ d₀.quantum = d.quantum ∧ d.cores[i]? = some m ∧
    after (coreNext h) q.toNat (m₀.attach d₀.sharedRam) = some (m.attach d.sharedRam)

theorem put_core (here : d.cores[i]? = some m) (ran : step h (m.attach d.sharedRam) = .ok () m') :
    (d.put i m').cores[i]? = some m'.detach ∧ m'.detach.attach (d.put i m').sharedRam = m' := by
  have within : i < d.cores.length := (List.getElem?_eq_some_iff.mp here).1
  exact ⟨List.getElem?_set_self within,(put_attached (.returned ran) i).2⟩

-- Where a turn comes from: it has just begun, or the core has taken another step.
theorem next_quantum (next : k.next h = some (.quantum b d i before q)) :
    (∃ m, k = .turn b d i ∧ d.cores[i]? = some m ∧ before = m.profiler.cycleCount ∧ q = 0) ∨
    ∃ e m m' q', k = .quantum b e i before q' ∧ e.cores[i]? = some m ∧ q' < e.quantum ∧ m.regs.halt = false ∧
      step h (m.attach e.sharedRam) = .ok () m' ∧ d = e.put i m' ∧ q = q'+1 := by
  cases k with
  | done _ => cases next
  | thrown _ _ => cases next
  | undefined _ => cases next
  | loop b c =>
    simp only [ClusterConfig.next,Option.some.injEq] at next
    split at next
    · cases next
    · cases next
  | sweep c i =>
    simp only [ClusterConfig.next,Option.some.injEq] at next
    split at next
    · cases next
    · split at next
      · cases next
      · unfold ClusterConfig.ofStep at next
        split at next <;> cases next
  | turn b c j =>
    simp only [ClusterConfig.next,Option.some.injEq] at next
    split at next
    · split at next <;> cases next
    · rename_i m here
      split at next
      · cases next
      · cases next
        exact .inl ⟨m,rfl,here,rfl,rfl⟩
  | quantum b e j before q' =>
    simp only [ClusterConfig.next,Option.some.injEq] at next
    split at next
    · cases next
    · rename_i m here
      split at next
      · rename_i due
        simp only [Bool.and_eq_true,decide_eq_true_eq,Bool.not_eq_true'] at due
        cases ran : step h (m.attach e.sharedRam) with
        | ok u m' =>
          rw [ran] at next
          cases next
          exact .inr ⟨e,m,m',q',rfl,here,due.1,due.2,ran,rfl,rfl⟩
        | thrown err m' =>
          rw [ran] at next
          cases next
        | undefined why =>
          rw [ran] at next
          cases next
      · split at next <;> cases next

theorem InTurn.step {start : ClusterConfig} {e : Cluster} (turn : InTurn h start b e i before q) (below : q < e.quantum)
    (here : e.cores[i]? = some m) (running : m.regs.halt = false) (ran : step h (m.attach e.sharedRam) = .ok () m') :
    InTurn h start b (e.put i m') i before (q+1) := by
  have counted := toNat_counted below
  obtain ⟨within,d₀,m₀,n,reached,first,began,quantum,found,steps⟩ := turn
  cases here.symm.trans found
  obtain ⟨stored,same⟩ := put_core here ran
  refine ⟨?_,d₀,m₀,m'.detach,reached,first,began,quantum,stored,?_⟩
  · have less : q.toNat < e.quantum.toNat := below
    rw [counted]
    exact less
  · rw [counted,same]
    exact after_succ.mpr ⟨_,steps,coreNext_eq.mpr ⟨running,ran⟩⟩

theorem inTurn_of_reaches {start : ClusterConfig} (idle : ∀ b d i before q, start ≠ .quantum b d i before q)
    (path : Reaches (ClusterConfig.next h) start k) : ∀ b d i before q, k = .quantum b d i before q → InTurn h start b d i before q := by
  induction path with
  | refl =>
    intro b d i before q same
    exact absurd same (idle b d i before q)
  | @tail k k' path next ih =>
    rintro b d i before q rfl
    rcases next_quantum next with ⟨m,rfl,here,rfl,rfl⟩ | ⟨e,m,m',q',rfl,here,below,running,ran,rfl,rfl⟩
    · exact ⟨Nat.zero_le _,d,m,m,path.tail next,here,rfl,rfl,here,rfl⟩
    · exact (ih b e i before q' rfl).step below here running ran

theorem turn_reaches {d₀ : Cluster} {m₀ : Machine} (before : DWord) (here : d₀.cores[i]? = some m₀) (fits : n ≤ d₀.quantum.toNat)
    (steps : after (coreNext h) n (m₀.attach d₀.sharedRam) = some m') :
    ∃ d m, Reaches (ClusterConfig.next h) (.quantum b d₀ i before 0) (.quantum b d i before (BitVec.ofNat 64 n)) ∧
      d.quantum = d₀.quantum ∧ d.cores[i]? = some m ∧ m.attach d.sharedRam = m' := by
  induction n generalizing m' with
  | zero =>
    cases steps
    exact ⟨d₀,m₀,.refl,rfl,here,rfl⟩
  | succ n ih =>
    obtain ⟨middle,early,last⟩ := after_succ.mp steps
    obtain ⟨running,ran⟩ := coreNext_eq.mp last
    obtain ⟨d,m,path,quantum,found,rfl⟩ := ih (by omega) early
    have below : BitVec.ofNat 64 n < d.quantum := by
      have top := d₀.quantum.isLt
      rw [quantum,BitVec.lt_def,BitVec.toNat_ofNat,Nat.mod_eq_of_lt (by omega)]
      omega
    have due : (decide (BitVec.ofNat 64 n < d.quantum) && !m.regs.halt) = true := by
      rw [decide_eq_true below,show m.regs.halt = false from running]
      rfl
    have next := (next_due (h := h) (b := b) before found due).1
    rw [ran] at next
    obtain ⟨stored,same⟩ := put_core found ran
    refine ⟨d.put i m',m'.detach,?_,quantum,stored,same⟩
    rw [BitVec.ofNat_add]
    exact path.tail next

theorem InTurn.cycles {start : ClusterConfig} (turn : InTurn h start b d i before q) (here : d.cores[i]? = some m) :
    ∃ d₀ m₀, Reaches (ClusterConfig.next h) start (.quantum b d₀ i before 0) ∧ d₀.cores[i]? = some m₀ ∧ d₀.quantum = d.quantum ∧
      after (coreNext h) q.toNat (m₀.attach d₀.sharedRam) = some (m.attach d.sharedRam) ∧
      m.profiler.cycleCount-before = BitVec.ofNat 64 (spent h q.toNat (m₀.attach d₀.sharedRam)) := by
  obtain ⟨_,d₀,m₀,n,reached,first,began,quantum,found,steps⟩ := turn
  cases here.symm.trans found
  refine ⟨d₀,m₀,reached,first,quantum,steps,?_⟩
  have cycles := spent_cycles steps
  change m.profiler.cycleCount = m₀.profiler.cycleCount+_ at cycles
  rw [cycles,began,BitVec.add_comm,BitVec.add_sub_cancel]

theorem measured_iff_punctual (h : Host) (c : Cluster) (maxCycles : DWord) :
    (∀ k, Reaches (ClusterConfig.next h) (c.run maxCycles) k → Measured k) ↔ EveryTurn h c maxCycles (Punctual h) := by
  have idle : ∀ b d i before q, c.run maxCycles ≠ .quantum b d i before q := by
    intro b d i before q same
    cases same
  constructor
  · intro measured b d₀ i before m₀ reached here n m' fits steps running
    obtain ⟨d,m,path,quantum,found,rfl⟩ := turn_reaches (b := b) before here fits steps
    have counted : (BitVec.ofNat 64 n).toNat = n := by
      have top := d₀.quantum.isLt
      rw [BitVec.toNat_ofNat]
      exact Nat.mod_eq_of_lt (by omega)
    have began : before = m₀.profiler.cycleCount := by
      obtain ⟨_,_,_,_,_,_,none⟩ := (inTurn_of_reaches idle reached b d₀ i before 0 rfl).cycles here
      exact (BitVec.sub_eq_iff_eq_add.mp none).trans (BitVec.zero_add _) |>.symm
    have cycles : m.profiler.cycleCount = m₀.profiler.cycleCount+BitVec.ofNat 64 (spent h n (m₀.attach d₀.sharedRam)) := spent_cycles steps
    have due := measured _ (reached.trans path) b d i before _ m rfl found
    have halt : m.regs.halt = false := running
    rw [stepping_iff found,cycles,began,BitVec.add_comm,BitVec.add_sub_cancel,quantum] at due
    simp only [halt,true_and,and_true] at due
    rw [BitVec.lt_def,counted] at due
    exact due
  · rintro steady k path b d i before q m rfl here
    have turn := inTurn_of_reaches idle path b d i before q rfl
    obtain ⟨d₀,m₀,reached,first,quantum,steps,cycles⟩ := turn.cycles here
    rw [stepping_iff here,cycles,and_comm]
    refine and_congr_right fun running => ?_
    have even := steady b d₀ i before m₀ reached first q.toNat _ (by rw [quantum]; exact turn.within) steps running
    rw [quantum] at even
    exact even

-- In every run whose turns are steady the quanta are measured in cycles. Where no instruction
-- enters the uncharged trap they are measured in no other run.
theorem quanta_measured (h : Host) (c : Cluster) (maxCycles : DWord) :
    (EveryTurn h c maxCycles (Steady h) → ∀ k, Reaches (ClusterConfig.next h) (c.run maxCycles) k → Measured k) ∧
    (EveryTurn h c maxCycles (fun q m => q.toNat ≤ 2^63 ∧ LegalTurn h q m) →
      (∀ k, Reaches (ClusterConfig.next h) (c.run maxCycles) k → Measured k) → EveryTurn h c maxCycles (Steady h)) := by
  refine ⟨?_,?_⟩
  · intro steady
    refine (measured_iff_punctual h c maxCycles).mpr fun b d i before m reached here => ?_
    exact (steady b d i before m reached here).punctual
  · intro legal measured b d i before m reached here
    obtain ⟨small,legal⟩ := legal b d i before m reached here
    exact ((measured_iff_punctual h c maxCycles).mp measured b d i before m reached here).steady small legal

def steadily (h : Host) : Nat → Machine → Bool
  | 0,_ => true
  | n+1,m => (coreNext h m).all fun m' =>
    m'.regs.halt || (decide (1 ≤ m.stepCharge ∧ (n = 0 ∨ m.stepCharge = 1)) && steadily h n m')

theorem charges_of_steadily {left : Nat} (ran : steadily h left m = true) {next : Machine} (less : n < left)
    (here : after (coreNext h) n m = some m') (step : coreNext h m' = some next) (goes : next.regs.halt = false) :
    1 ≤ m'.stepCharge ∧ (n+1 < left → m'.stepCharge = 1) := by
  induction left generalizing m n with
  | zero => exact absurd less (Nat.not_lt_zero n)
  | succ left ih =>
    cases n with
    | zero =>
      cases here
      simp only [steadily,step,Option.all_some,goes,Bool.false_or,Bool.and_eq_true,decide_eq_true_eq] at ran
      obtain ⟨⟨least,exactly⟩,_⟩ := ran
      exact ⟨least,fun more => exactly.resolve_left (by omega)⟩
    | succ n =>
      obtain ⟨middle,first,rest⟩ := Option.bind_eq_some_iff.mp here
      have on : middle.regs.halt = false := by
        obtain ⟨e,there,running⟩ := runs_through (k := 0) rest (coreNext_eq.mp step).1 (Nat.zero_le n)
        cases there
        exact running
      simp only [steadily,first,Option.all_some,on,Bool.false_or,Bool.and_eq_true] at ran
      obtain ⟨least,exactly⟩ := ih ran.2 (by omega) rest
      exact ⟨least,fun more => exactly (by omega)⟩

theorem steady_of_steadily (small : q.toNat ≤ 2^63) (ran : steadily h q.toNat m = true) : Steady h q m := by
  refine ⟨?_,?_⟩
  · intro last through goes n m' here
    have charges : n < q.toNat → 1 ≤ m'.stepCharge ∧ (n+1 < q.toNat → m'.stepCharge = 1) := by
      intro less
      obtain ⟨next,later,on⟩ := runs_through through goes (show n+1 ≤ q.toNat from less)
      obtain ⟨same,at_n,step⟩ := after_succ.mp later
      cases here.symm.trans at_n
      exact charges_of_steadily ran less here step on
    have most := stepCharge_small m'
    exact ⟨fun more => (charges (by omega)).2 more,fun final => ⟨(charges (by omega)).1,by omega⟩⟩
  · intro n m' less here running _
    have each : spent h n m = n := by
      refine total_exact (fun k e before at_k => ?_) here
      obtain ⟨next,later,on⟩ := runs_through here running (show k+1 ≤ n from before)
      obtain ⟨same,there,step⟩ := after_succ.mp later
      cases at_k.symm.trans there
      exact (charges_of_steadily ran (by omega) at_k step on).2 (by omega)
    omega

def ClusterConfig.startsSteadily (h : Host) : ClusterConfig → Bool
  | .quantum _ d i _ q => q != 0 || d.cores[i]?.all fun m => decide (d.quantum.toNat ≤ 2^63) && steadily h d.quantum.toNat (m.attach d.sharedRam)
  | _ => true

-- A core that keeps to the mode without traps until it stops takes legal turns only.
theorem legalTurn_of_settles {left : Nat} (ran : settles (coreNext h) (fun m => m.tame = true) left m = true) : LegalTurn h q m :=
  fun _ m' _ here => legal_of_quiet (Machine.tame_iff.mp (always_of_settles ran m' (reaches_of_after here))).1

def ClusterConfig.startsTamely (h : Host) : ClusterConfig → Bool
  | .quantum _ d i _ q => q != 0 || d.cores[i]?.all fun m => decide (d.quantum.toNat ≤ 2^63) &&
      settles (coreNext h) (fun m => m.tame = true) 6 (m.attach d.sharedRam)
  | _ => true

-- The first core pays a cycle for each instruction, the second pays more for the last of its turn.
def evenCores : Cluster := ⟨2,[(Emulator.programmed [Enc.movi 1 1,Enc.movi 2 2,Enc.movi 3 3,Enc.halt]).core,
  (Emulator.programmed [Enc.movi 1 1,Enc.mul 1 1 1,Enc.halt]).core],zeroStore 16,.initial 2⟩

theorem quanta_measured_even : (∀ k, Reaches (ClusterConfig.next (.ieee .scalar)) (evenCores.run uint64Max) k → Measured k) ∧
    EveryTurn (.ieee .scalar) evenCores uint64Max (Steady (.ieee .scalar)) := by
  have settled : Always (ClusterConfig.next (.ieee .scalar)) (fun k => k.startsSteadily (.ieee .scalar) && k.startsTamely (.ieee .scalar) = true)
      (evenCores.run uint64Max) := always_of_settles (by decide +kernel : settles _ _ 24 _ = true)
  have measured := (quanta_measured (.ieee .scalar) evenCores uint64Max).1 fun b d i before m reached here => by
    have starts := (Bool.and_eq_true_iff.mp (settled _ reached)).1
    simp only [ClusterConfig.startsSteadily,bne_self_eq_false,Bool.false_or,here,Option.all_some,Bool.and_eq_true,decide_eq_true_eq] at starts
    exact steady_of_steadily starts.1 starts.2
  refine ⟨measured,(quanta_measured (.ieee .scalar) evenCores uint64Max).2 (fun b d i before m reached here => ?_) measured⟩
  have starts := (Bool.and_eq_true_iff.mp (settled _ reached)).2
  simp only [ClusterConfig.startsTamely,bne_self_eq_false,Bool.false_or,here,Option.all_some,Bool.and_eq_true,decide_eq_true_eq] at starts
  exact ⟨starts.1,legalTurn_of_settles starts.2⟩

-- A quantum of two cycles, and a first instruction of three.
def multiplying : Cluster := ⟨2,[(Emulator.programmed [Enc.mul 1 1 1,Enc.halt]).core],zeroStore 16,.initial 2⟩

def ClusterConfig.overruns : ClusterConfig → Bool
  | .quantum _ d i before q => d.cores[i]?.any fun m =>
      decide (q < d.quantum) && !m.regs.halt && !decide (m.profiler.cycleCount-before < d.quantum)
  | _ => false

theorem quantum_overrun : ¬ ∀ (h : Host) (c : Cluster) (maxCycles : DWord), 1 ≤ c.quantum →
    ∀ k, Reaches (ClusterConfig.next h) (c.run maxCycles) k → Measured k := by
  intro measured
  have ran : (after (ClusterConfig.next (.ieee .scalar)) 3 (multiplying.run uint64Max)).any ClusterConfig.overruns = true := by
    decide +kernel
  obtain ⟨k,path,overruns⟩ := reaches_of_any ran
  have rule := measured (.ieee .scalar) multiplying uint64Max (by decide) k path
  cases k with
  | quantum b d i before q =>
    obtain ⟨m,here,exceeded⟩ := (Option.any_eq_true _ _).mp overruns
    simp only [Bool.and_eq_true,decide_eq_true_eq,Bool.not_eq_true',decide_eq_false_iff_not] at exceeded
    have due := (rule b d i before q m rfl here).mp ((stepping_iff here).mpr exceeded.1)
    exact exceeded.2 due.2
  | _ => cases overruns

end Novium
