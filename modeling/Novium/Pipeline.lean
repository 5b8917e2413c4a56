import Mathlib.Algebra.BigOperators.Fin
import Mathlib.Algebra.Order.BigOperators.Group.Finset
import Mathlib.Data.List.Induction
import Novium.Isa
import Novium.Saturation
import Novium.Slots

namespace Novium

structure ReservationStation where
  occupied : Bool
  instr : Instruction
  issueCycle : DWord

def ReservationStation.empty : ReservationStation := ⟨false,⟨0⟩,0⟩

structure PipelineConfig where
  outOfOrder : Bool
  branchPrediction : Bool
  issueWidth : Nat

def kRSSize : Nat := 8

def issueInto (instr : Instruction) (cycle : DWord) : List ReservationStation → Option (List ReservationStation)
  | [] => none
  | rs :: rest =>
    if !rs.occupied then some ({rs with occupied := true,instr := instr,issueCycle := cycle} :: rest)
    else (issueInto instr cycle rest).map (rs :: ·)

-- The loop of `commit` over the stations that are left, with the number committed so far.
-- The width is only looked at after a commit.
def commitFrom (width : Nat) (cycle : DWord) : Nat → List ReservationStation → Nat × List ReservationStation
  | done,[] => (done,[])
  | done,rs :: rest =>
    if rs.occupied && rs.issueCycle+1 ≤ cycle then
      let freed := {rs with occupied := false}
      if width ≤ done+1 then (done+1,freed :: rest)
      else ((commitFrom width cycle (done+1) rest).1,freed :: (commitFrom width cycle (done+1) rest).2)
    else ((commitFrom width cycle done rest).1,rs :: (commitFrom width cycle done rest).2)

-- What a station holds; the rest of a free one is left over from before.
def ReservationStation.holds (rs : ReservationStation) : Option (Instruction × DWord) :=
  if rs.occupied then some (rs.instr,rs.issueCycle) else none

def slotsOf (stations : List ReservationStation) : List (Option (Instruction × DWord)) := stations.map ReservationStation.holds

-- Whether an entry may commit at a cycle; the sum is taken in 64 bits.
def due (cycle : DWord) (entry : Instruction × DWord) : Bool := entry.2+1 ≤ cycle

theorem issueInto_place (instr : Instruction) (cycle : DWord) (stations : List ReservationStation) :
    (issueInto instr cycle stations).map slotsOf = Slots.place (instr,cycle) (slotsOf stations) := by
  induction stations with
  | nil => rfl
  | cons rs rest ih =>
    obtain ⟨occupied,held,since⟩ := rs
    cases occupied with
    | false => rfl
    | true =>
      change ((issueInto instr cycle rest).map (_ :: ·)).map slotsOf = (Slots.place (instr,cycle) (slotsOf rest)).map _
      rw [← ih,Option.map_map,Option.map_map]
      rfl

theorem commitFrom_release {width done left : Nat} (cycle : DWord) (stations : List ReservationStation)
    (budget : done+left+1 = max width (done+1)) :
    slotsOf (commitFrom width cycle done stations).2 = Slots.release (due cycle) (left+1) (slotsOf stations) ∧
      (commitFrom width cycle done stations).1 = done+min (left+1) ((slotsOf stations).reduceOption.countP (due cycle)) := by
  induction stations generalizing done left with
  | nil => exact ⟨rfl,by simp [commitFrom,slotsOf]⟩
  | cons rs rest ih =>
    obtain ⟨occupied,held,since⟩ := rs
    cases occupied with
    | false =>
      obtain ⟨slots,count⟩ := ih budget
      exact ⟨congrArg (none :: ·) slots,count⟩
    | true =>
      have holds : slotsOf (⟨true,held,since⟩ :: rest) = some (held,since) :: slotsOf rest := rfl
      rw [holds,List.reduceOption_cons_of_some,List.countP_cons]
      unfold commitFrom Slots.release
      by_cases ready : since+1 ≤ cycle
      · have due : due cycle (held,since) = true := decide_eq_true ready
        rw [if_pos due,if_pos due,if_pos (by simpa using ready)]
        cases left with
        | zero =>
          rw [if_pos (by omega),Slots.release_zero]
          exact ⟨rfl,by omega⟩
        | succ left =>
          obtain ⟨slots,count⟩ := ih (show done+1+left+1 = max width (done+1+1) by omega)
          rw [if_neg (by omega)]
          refine ⟨congrArg (none :: ·) slots,?_⟩
          change (commitFrom width cycle (done+1) rest).1 = _
          omega
      · have waits : ¬ due cycle (held,since) = true := by simpa [due] using ready
        obtain ⟨slots,count⟩ := ih budget
        rw [if_neg waits,if_neg waits,if_neg (by simpa using ready)]
        exact ⟨congrArg (some (held,since) :: ·) slots,count⟩

theorem issueInto_length {instr : Instruction} {cycle : DWord} {stations filled : List ReservationStation}
    (issued : issueInto instr cycle stations = some filled) : filled.length = stations.length := by
  have placed := issueInto_place instr cycle stations
  rw [issued] at placed
  have lengths := (Slots.place_contents placed.symm).2
  simpa [slotsOf] using lengths

theorem commitFrom_length (width : Nat) (cycle : DWord) (done : Nat) (stations : List ReservationStation) :
    (commitFrom width cycle done stations).2.length = stations.length := by
  fun_induction commitFrom width cycle done stations <;> simp_all

def bumpCounter (taken : Bool) (ctr : BitVec 8) : BitVec 8 :=
  if taken then (if ctr < 3 then ctr+1 else 3) else (if 0 < ctr then ctr-1 else 0)

theorem counter_cases : ∀ taken : Bool, ∀ ctr : BitVec 8, ctr ≤ 3 → bumpCounter taken ctr ≤ 3 ∧
    (bumpCounter taken ctr).toNat = Saturation.bump 3 taken ctr.toNat ∧
    (ctr &&& 2 != 0) = Saturation.predicts 2 ctr.toNat := by
  decide +kernel

structure Pipeline where
  cfg : PipelineConfig
  stations : List ReservationStation
  stalls : DWord
  mispredicts : DWord
  bpred : Fin 256 → BitVec 8
  sized : stations.length = kRSSize
  saturated : ∀ k, bpred k ≤ 3

namespace Pipeline

def configured (cfg : PipelineConfig) : Pipeline :=
  ⟨cfg,List.replicate kRSSize .empty,0,0,fun _ => 0,List.length_replicate,fun _ => Nat.zero_le _⟩

def configure (p : Pipeline) (cfg : PipelineConfig) : Pipeline := {p with cfg := cfg}

def reset (p : Pipeline) : Pipeline :=
  {p with stations := List.replicate kRSSize .empty,stalls := 0,mispredicts := 0,sized := List.length_replicate}

def tryIssue (p : Pipeline) (instr : Instruction) (cycle : DWord) : Pipeline × Word :=
  if !p.cfg.outOfOrder then (p,0)
  else match issued : issueInto instr cycle p.stations with
    | some filled => ({p with stations := filled,sized := (issueInto_length issued).trans p.sized},0)
    | none => ({p with stalls := p.stalls+1},1)

def commit (p : Pipeline) (cycle : DWord) : Pipeline × Word :=
  ({p with
    stations := (commitFrom p.cfg.issueWidth cycle 0 p.stations).2
    sized := (commitFrom_length ..).trans p.sized},BitVec.ofNat 32 (commitFrom p.cfg.issueWidth cycle 0 p.stations).1)

def entryOf (pc : Word) : Fin 256 := Fin.ofNat 256 pc.toNat

def predictTaken (p : Pipeline) (pc : Word) : Bool := p.cfg.branchPrediction && p.bpred (entryOf pc) &&& 2 != 0

theorem bumped_saturated (p : Pipeline) (pc : Word) (taken : Bool) (k : Fin 256) :
    Function.update p.bpred (entryOf pc) (bumpCounter taken (p.bpred (entryOf pc))) k ≤ 3 := by
  by_cases here : k = entryOf pc
  · subst here
    rw [Function.update_self]
    exact (counter_cases taken _ (p.saturated _)).1
  · rw [Function.update_of_ne here]
    exact p.saturated k

def updatePredictor (p : Pipeline) (pc : Word) (taken mispredicted : Bool) : Pipeline :=
  {p with
    bpred := Function.update p.bpred (entryOf pc) (bumpCounter taken (p.bpred (entryOf pc)))
    mispredicts := if mispredicted then p.mispredicts+1 else p.mispredicts
    saturated := p.bumped_saturated pc taken}

-- The instructions waiting in the stations, in the order of the stations.
def resident (p : Pipeline) : List (Instruction × DWord) := (slotsOf p.stations).reduceOption

theorem resident_le (p : Pipeline) : p.resident.length ≤ kRSSize := by
  have fewer := List.reduceOption_length_le (slotsOf p.stations)
  rw [slotsOf,List.length_map,p.sized] at fewer
  exact fewer

-- A width of 0 still lets one instruction out.
def throughput (p : Pipeline) : Nat := max 1 p.cfg.issueWidth

inductive Issued (p : Pipeline) (instr : Instruction) (cycle : DWord) : Pipeline × Word → Prop where
  | inOrder : p.cfg.outOfOrder = false → Issued p instr cycle (p,0)
  | taken (filled : List ReservationStation) (sized : filled.length = kRSSize) : p.cfg.outOfOrder = true →
      p.resident.length < kRSSize → Slots.place (instr,cycle) (slotsOf p.stations) = some (slotsOf filled) →
      Issued p instr cycle ({p with stations := filled,sized := sized},0)
  | refused : p.cfg.outOfOrder = true → p.resident.length = kRSSize → Issued p instr cycle ({p with stalls := p.stalls+1},1)

theorem tryIssue_issued (p : Pipeline) (instr : Instruction) (cycle : DWord) : Issued p instr cycle (p.tryIssue instr cycle) := by
  have lengths : (slotsOf p.stations).length = kRSSize := (List.length_map _).trans p.sized
  have placed := issueInto_place instr cycle p.stations
  unfold tryIssue
  cases order : p.cfg.outOfOrder with
  | false => exact .inOrder order
  | true =>
    rw [if_neg (by simp)]
    split
    · rename_i filled issued
      rw [issued] at placed
      refine .taken filled _ order ?_ placed.symm
      refine Nat.lt_of_le_of_ne p.resident_le fun full => ?_
      have none : Slots.place (instr,cycle) (slotsOf p.stations) = none := Slots.place_eq_none.mpr (full.trans lengths.symm)
      rw [none] at placed
      cases placed
    · rename_i unissued
      rw [unissued] at placed
      exact .refused order ((Slots.place_eq_none.mp placed.symm).trans lengths)

theorem commit_releases (p : Pipeline) (cycle : DWord) :
    slotsOf (p.commit cycle).1.stations = Slots.release (due cycle) p.throughput (slotsOf p.stations) ∧
      (p.commit cycle).2.toNat = min p.throughput (p.resident.countP (due cycle)) := by
  have budget : 0+(p.throughput-1)+1 = max p.cfg.issueWidth (0+1) := by
    unfold throughput
    omega
  have least : p.throughput-1+1 = p.throughput := by
    unfold throughput
    omega
  obtain ⟨slots,count⟩ := commitFrom_release cycle p.stations budget
  rw [least] at slots count
  refine ⟨slots,?_⟩
  have fewer : p.resident.countP (due cycle) ≤ kRSSize := Nat.le_trans List.countP_le_length p.resident_le
  have small : (commitFrom p.cfg.issueWidth cycle 0 p.stations).1 ≤ kRSSize := by
    rw [count,Nat.zero_add]
    exact Nat.le_trans (Nat.min_le_right ..) fewer
  have fits : (commitFrom p.cfg.issueWidth cycle 0 p.stations).1 < 2^32 := Nat.lt_of_le_of_lt small (by decide)
  change (BitVec.ofNat 32 (commitFrom p.cfg.issueWidth cycle 0 p.stations).1).toNat = _
  rw [BitVec.toNat_ofNat,Nat.mod_eq_of_lt fits,count,Nat.zero_add]
  rfl

end Pipeline

inductive PipelineCall where
  | tryIssue (instr : Instruction) (cycle : DWord)
  | commit (cycle : DWord)
  | updatePredictor (pc : Word) (taken mispredicted : Bool)
  | configure (cfg : PipelineConfig)
  | reset

-- What has become of the instructions handed to the stations: those a station took, with
-- the cycle of their issue; those that left by a commit, with its cycle; those a reset
-- threw away; how many found no station since the last reset; and the sum of the answers
-- of `commit`.
structure StationLog where
  accepted : List (Instruction × DWord)
  retired : List ((Instruction × DWord) × DWord)
  dropped : List (Instruction × DWord)
  refused : Nat
  committed : Nat

namespace Pipeline

def call (s : Pipeline × StationLog) : PipelineCall → Pipeline × StationLog
  | .tryIssue instr cycle =>
    let answer := s.1.tryIssue instr cycle
    (answer.1,if answer.2 ≠ 0 then {s.2 with refused := s.2.refused+1}
      else if s.1.cfg.outOfOrder then {s.2 with accepted := s.2.accepted ++ [(instr,cycle)]} else s.2)
  | .commit cycle =>
    let answer := s.1.commit cycle
    let left := Slots.taken (slotsOf s.1.stations) (slotsOf answer.1.stations)
    (answer.1,{s.2 with retired := s.2.retired ++ left.map (·,cycle),committed := s.2.committed+answer.2.toNat})
  | .updatePredictor pc taken mispredicted => (s.1.updatePredictor pc taken mispredicted,s.2)
  | .configure cfg => (s.1.configure cfg,s.2)
  | .reset => (s.1.reset,{s.2 with dropped := s.2.dropped ++ s.1.resident,refused := 0})

def run (cfg : PipelineConfig) (calls : List PipelineCall) : Pipeline × StationLog :=
  calls.foldl call (configured cfg,⟨[],[],[],0,0⟩)

structure Conserves (p : Pipeline) (log : StationLog) : Prop where
  entries : log.accepted.Perm (log.retired.map Prod.fst ++ log.dropped ++ p.resident)
  timely : ∀ r ∈ log.retired, due r.2 r.1 = true
  counted : log.committed = log.retired.length
  stalls : p.stalls = BitVec.ofNat 64 log.refused

theorem resident_replicate (n : Nat) : (slotsOf (List.replicate n .empty)).reduceOption = [] := by
  induction n with
  | zero => rfl
  | succ n ih => exact ih

theorem Conserves.call {p : Pipeline} {log : StationLog} (conserves : Conserves p log) (c : PipelineCall) :
    Conserves (Pipeline.call (p,log) c).1 (Pipeline.call (p,log) c).2 := by
  obtain ⟨entries,timely,counted,stalls⟩ := conserves
  cases c with
  | tryIssue instr cycle =>
    have issued := p.tryIssue_issued instr cycle
    unfold Pipeline.call
    dsimp only
    generalize p.tryIssue instr cycle = answer at issued ⊢
    cases issued with
    | inOrder order =>
      rw [if_neg (by simp),order]
      exact ⟨entries,timely,counted,stalls⟩
    | taken filled sized order _ placed =>
      rw [if_neg (by simp),order,if_pos rfl]
      refine ⟨?_,timely,counted,stalls⟩
      have perm := (Slots.place_contents placed).1
      refine (List.perm_append_singleton _ _).trans ((entries.cons _).trans ?_)
      refine List.perm_middle.symm.trans (List.Perm.append_left _ ?_)
      exact perm.symm
    | refused order full =>
      rw [if_pos (by simp)]
      refine ⟨entries,timely,counted,?_⟩
      change p.stalls+1 = BitVec.ofNat 64 (log.refused+1)
      rw [stalls,BitVec.ofNat_add]
      rfl
  | commit cycle =>
    obtain ⟨slots,count⟩ := p.commit_releases cycle
    have left := Slots.release_taken (due cycle) p.throughput (slotsOf p.stations)
    have perm := Slots.release_contents (due cycle) p.throughput (slotsOf p.stations)
    unfold Pipeline.call
    dsimp only
    rw [slots]
    refine ⟨?_,?_,?_,stalls⟩
    · have resident : (p.commit cycle).1.resident = (Slots.release (due cycle) p.throughput (slotsOf p.stations)).reduceOption := by
        unfold resident
        rw [slots]
      have firsts (entries : List (Instruction × DWord)) : (entries.map (·,cycle)).map Prod.fst = entries := by
        rw [List.map_map]
        exact List.map_id entries
      rw [resident,List.map_append,firsts,List.append_assoc,List.append_assoc]
      rw [List.append_assoc] at entries
      refine entries.trans (List.Perm.append_left _ ?_)
      exact (List.Perm.append_left _ perm.symm).trans (List.perm_append_comm_assoc ..)
    · intro r member
      rcases List.mem_append.mp member with before | now
      · exact timely r before
      · obtain ⟨entry,listed,rfl⟩ := List.mem_map.mp now
        rw [left] at listed
        exact (List.mem_filter.mp (List.mem_of_mem_take listed)).2
    · rw [count,counted,List.length_append,List.length_map,left,List.length_take,← List.countP_eq_length_filter]
      rfl
  | updatePredictor pc taken mispredicted => exact ⟨entries,timely,counted,stalls⟩
  | configure cfg => exact ⟨entries,timely,counted,stalls⟩
  | reset =>
    refine ⟨?_,timely,counted,rfl⟩
    have emptied : p.reset.resident = [] := resident_replicate kRSSize
    change log.accepted.Perm (log.retired.map Prod.fst ++ (log.dropped ++ p.resident) ++ p.reset.resident)
    rw [emptied,List.append_nil,← List.append_assoc]
    exact entries

theorem run_conserves (cfg : PipelineConfig) (calls : List PipelineCall) : Conserves (run cfg calls).1 (run cfg calls).2 := by
  induction calls using List.reverseRecOn with
  | nil =>
    have empty : (configured cfg).resident = [] := resident_replicate kRSSize
    refine ⟨?_,fun r member => absurd member List.not_mem_nil,rfl,rfl⟩
    change List.Perm [] ([] ++ [] ++ (configured cfg).resident)
    rw [empty]
    exact .refl _
  | append_singleton calls last ih =>
    have split : run cfg (calls ++ [last]) = call (run cfg calls) last := List.foldl_concat ..
    rw [split]
    exact ih.call last

theorem stations_conserve (cfg : PipelineConfig) (calls : List PipelineCall) :
    (run cfg calls).2.accepted.Perm ((run cfg calls).2.retired.map Prod.fst ++ (run cfg calls).2.dropped ++ (run cfg calls).1.resident) ∧
      (∀ r ∈ (run cfg calls).2.retired, due r.2 r.1 = true) ∧
      (run cfg calls).2.committed = (run cfg calls).2.retired.length ∧
      (run cfg calls).1.resident.length ≤ kRSSize ∧
      (run cfg calls).1.stalls = BitVec.ofNat 64 (run cfg calls).2.refused ∧
      ∀ instr cycle, ((run cfg calls).1.tryIssue instr cycle).2 = 1 ↔
        (run cfg calls).1.cfg.outOfOrder = true ∧ (run cfg calls).1.resident.length = kRSSize := by
  obtain ⟨entries,timely,counted,stalls⟩ := run_conserves cfg calls
  refine ⟨entries,timely,counted,resident_le _,stalls,?_⟩
  intro instr cycle
  have issued := (run cfg calls).1.tryIssue_issued instr cycle
  generalize (run cfg calls).1.tryIssue instr cycle = answer at issued ⊢
  cases issued with
  | inOrder order => simp [order]
  | taken filled sized order room _ => simp [Nat.ne_of_lt room]
  | refused order full => simp [order,full]

def commits (p : Pipeline) (cycles : List DWord) : Pipeline := cycles.foldl (fun p cycle => (p.commit cycle).1) p

def rounds (p : Pipeline) (sequence : List (Instruction × DWord × DWord)) : Pipeline :=
  sequence.foldl (fun p r => ((p.tryIssue r.1 r.2.1).1.commit r.2.2).1) p

theorem commits_resident (p : Pipeline) (cycles : List DWord) (late : ∀ cycle ∈ cycles, ∀ entry ∈ p.resident, due cycle entry = true) :
    (p.commits cycles).resident = p.resident.drop (cycles.length*p.throughput) := by
  induction cycles generalizing p with
  | nil => simp [commits]
  | cons cycle rest ih =>
    have slots := (p.commit_releases cycle).1
    have dropped : (p.commit cycle).1.resident = p.resident.drop p.throughput := by
      unfold resident
      rw [slots]
      exact Slots.release_all _ (late cycle (.head _))
    have later := ih (p.commit cycle).1 fun next member entry held =>
      late next (.tail _ member) entry (List.mem_of_mem_drop (dropped ▸ held))
    have same : (p.commit cycle).1.throughput = p.throughput := rfl
    change ((p.commit cycle).1.commits rest).resident = _
    rw [later,dropped,List.drop_drop,same,List.length_cons,Nat.succ_mul,Nat.add_comm]

theorem tryIssue_cfg (p : Pipeline) (instr : Instruction) (cycle : DWord) : (p.tryIssue instr cycle).1.cfg = p.cfg := by
  have issued := p.tryIssue_issued instr cycle
  generalize p.tryIssue instr cycle = answer at issued ⊢
  cases issued <;> rfl

-- The first station is free, so it takes the next instruction and gives it up again before
-- any other is looked at.
theorem round_first {p : Pipeline} {first : ReservationStation} {rest : List ReservationStation} {r : Instruction × DWord × DWord}
    (outOfOrder : p.cfg.outOfOrder = true) (narrow : p.cfg.issueWidth ≤ 1) (stations : p.stations = first :: rest)
    (free : first.occupied = false) (late : due r.2.2 (r.1,r.2.1) = true) :
    ((p.tryIssue r.1 r.2.1).1.commit r.2.2).1.stations = ⟨false,r.1,r.2.1⟩ :: rest := by
  have issued : issueInto r.1 r.2.1 p.stations = some (⟨true,r.1,r.2.1⟩ :: rest) := by
    rw [stations]
    unfold issueInto
    rw [free]
    rfl
  have taken : (p.tryIssue r.1 r.2.1).1.stations = ⟨true,r.1,r.2.1⟩ :: rest := by
    unfold tryIssue
    rw [outOfOrder,if_neg (by simp)]
    split
    · rename_i filled found
      rw [issued] at found
      exact (Option.some.inj found).symm
    · rename_i found
      rw [issued] at found
      cases found
  change (commitFrom (p.tryIssue r.1 r.2.1).1.cfg.issueWidth r.2.2 0 (p.tryIssue r.1 r.2.1).1.stations).2 = _
  rw [taken,tryIssue_cfg]
  unfold commitFrom
  rw [if_pos (by simpa [due] using late),if_pos (by omega)]

theorem rounds_first {p : Pipeline} {first : ReservationStation} {rest : List ReservationStation}
    (outOfOrder : p.cfg.outOfOrder = true) (narrow : p.cfg.issueWidth ≤ 1) (stations : p.stations = first :: rest)
    (free : first.occupied = false) (sequence : List (Instruction × DWord × DWord))
    (late : ∀ r ∈ sequence, due r.2.2 (r.1,r.2.1) = true) :
    ∃ last, last.occupied = false ∧ (p.rounds sequence).stations = last :: rest := by
  induction sequence generalizing p first with
  | nil => exact ⟨first,free,stations⟩
  | cons r later ih =>
    have cfg : ((p.tryIssue r.1 r.2.1).1.commit r.2.2).1.cfg = p.cfg := p.tryIssue_cfg r.1 r.2.1
    have now := round_first outOfOrder narrow stations free (late r (.head _))
    exact ih (cfg ▸ outOfOrder) (cfg ▸ narrow) now rfl fun r member => late r (.tail _ member)

-- Commits alone empty the stations from the front, as many at a time as the width says. With
-- a width of at most one and a free first station they may never get further: an instruction
-- that is due when its round commits is let out before those that were waiting.
theorem commit_order (p : Pipeline) :
    (∀ cycles : List DWord, (∀ cycle ∈ cycles, ∀ entry ∈ p.resident, due cycle entry = true) →
      (p.commits cycles).resident = p.resident.drop (cycles.length*p.throughput)) ∧
    (p.cfg.outOfOrder = true → p.cfg.issueWidth ≤ 1 → (∀ first, p.stations[0]? = some first → first.occupied = false) →
      ∀ sequence : List (Instruction × DWord × DWord), (∀ r ∈ sequence, due r.2.2 (r.1,r.2.1) = true) →
        (p.rounds sequence).resident = p.resident) := by
  refine ⟨p.commits_resident,?_⟩
  intro outOfOrder narrow free sequence late
  cases shape : p.stations with
  | nil =>
    have sized := p.sized
    rw [shape] at sized
    cases sized
  | cons first rest =>
    have unoccupied := free first (by rw [shape]; rfl)
    obtain ⟨last,empty,after⟩ := rounds_first outOfOrder narrow shape unoccupied sequence late
    unfold resident
    rw [after,shape]
    simp [slotsOf,ReservationStation.holds,empty,unoccupied]

def haltWaiting : Pipeline :=
  (((configured ⟨true,true,0⟩).tryIssue ⟨Enc.nop⟩ 0).1.tryIssue ⟨Enc.halt⟩ 1).1.commit 1 |>.1

theorem commit_order_waiting : haltWaiting.resident = [(⟨Enc.halt⟩,1)] ∧ (haltWaiting.commits [2]).resident = [] ∧
    (haltWaiting.rounds [(⟨Enc.nop⟩,5,6),(⟨Enc.nop⟩,7,8)]).resident = [(⟨Enc.halt⟩,1)] := by
  have held : haltWaiting.resident = [(⟨Enc.halt⟩,1)] := by decide +kernel
  have late : ∀ cycle ∈ [(2 : DWord)], ∀ entry ∈ haltWaiting.resident, due cycle entry = true := by
    simp [held,due]
  have free : ∀ first, haltWaiting.stations[0]? = some first → first.occupied = false := by
    have first : haltWaiting.stations[0]?.map ReservationStation.occupied = some false := by decide +kernel
    intro found here
    rw [here] at first
    exact Option.some.inj first
  obtain ⟨drain,starve⟩ := commit_order haltWaiting
  refine ⟨held,?_,?_⟩
  · have width : haltWaiting.cfg.issueWidth = 0 := by decide +kernel
    rw [drain [2] late,held,throughput,width]
    decide
  · have narrow : haltWaiting.cfg.issueWidth ≤ 1 := by decide +kernel
    rw [starve (by decide +kernel) narrow free _ (by simp [due]),held]

-- A branch as the predictor is used on it: predicted, carried out, learnt.
def branch (p : Pipeline) (b : Word × Bool) : Pipeline := p.updatePredictor b.1 b.2 (p.predictTaken b.1 != b.2)

def branches (p : Pipeline) (trace : List (Word × Bool)) : Pipeline := trace.foldl branch p

def outcomesAt (k : Fin 256) (trace : List (Word × Bool)) : List Bool :=
  (trace.filter fun b => entryOf b.1 = k).map Prod.snd

def missed (p : Pipeline) (trace : List (Word × Bool)) : Nat :=
  if p.cfg.branchPrediction then ∑ k, Saturation.wrong 2 3 (p.bpred k).toNat (outcomesAt k trace) else trace.countP (·.2)

theorem missed_cons (p : Pipeline) (b : Word × Bool) (rest : List (Word × Bool)) :
    p.missed (b :: rest) = (if p.predictTaken b.1 != b.2 then 1 else 0)+(p.branch b).missed rest := by
  have kept : (p.branch b).cfg = p.cfg := rfl
  unfold missed
  rw [kept]
  cases on : p.cfg.branchPrediction with
  | false =>
    have never : p.predictTaken b.1 = false := by
      unfold predictTaken
      rw [on]
      rfl
    rw [never,List.countP_cons]
    cases b.2 <;> simp [Nat.add_comm]
  | true =>
    have each (k : Fin 256) : Saturation.wrong 2 3 (p.bpred k).toNat (outcomesAt k (b :: rest)) =
        (if k = entryOf b.1 then (if p.predictTaken b.1 != b.2 then 1 else 0) else 0)+
          Saturation.wrong 2 3 ((p.branch b).bpred k).toNat (outcomesAt k rest) := by
      by_cases here : k = entryOf b.1
      · subst here
        obtain ⟨_,bumped,predicted⟩ := counter_cases b.2 _ (p.saturated (entryOf b.1))
        have learnt : (p.branch b).bpred (entryOf b.1) = bumpCounter b.2 (p.bpred (entryOf b.1)) := Function.update_self ..
        have first : outcomesAt (entryOf b.1) (b :: rest) = b.2 :: outcomesAt (entryOf b.1) rest := by
          simp [outcomesAt]
        rw [if_pos rfl,learnt,bumped,first,Saturation.wrong]
        unfold predictTaken
        rw [on,Bool.true_and,predicted]
        simp
      · have other : outcomesAt k (b :: rest) = outcomesAt k rest := by
          have differ : ¬ entryOf b.1 = k := fun same => here same.symm
          simp [outcomesAt,differ]
        have untouched : (p.branch b).bpred k = p.bpred k := Function.update_of_ne here ..
        rw [if_neg here,other,untouched,Nat.zero_add]
    rw [if_pos rfl,if_pos rfl,Finset.sum_congr rfl fun k _ => each k,Finset.sum_add_distrib,Finset.sum_ite_eq']
    rw [if_pos (Finset.mem_univ _)]

theorem missed_counted (p : Pipeline) (trace : List (Word × Bool)) :
    (p.branches trace).mispredicts = p.mispredicts+BitVec.ofNat 64 (p.missed trace) := by
  induction trace generalizing p with
  | nil =>
    have none : p.missed [] = 0 := by
      unfold missed
      split
      · exact Finset.sum_eq_zero fun _ _ => rfl
      · rfl
    rw [none]
    exact (BitVec.add_zero _).symm
  | cons b rest ih =>
    have counted : (p.branch b).mispredicts = p.mispredicts+BitVec.ofNat 64 (if p.predictTaken b.1 != b.2 then 1 else 0) := by
      change (if p.predictTaken b.1 != b.2 then p.mispredicts+1 else p.mispredicts) = _
      split
      · rfl
      · exact (BitVec.add_zero _).symm
    change ((p.branch b).branches rest).mispredicts = _
    rw [ih,counted,missed_cons,BitVec.ofNat_add,BitVec.add_assoc]

-- The mispredictions counted along a trace of branches are those of each counter on the
-- branches that share it; switched on, a counter pays at most twice for each stretch of equal
-- outcomes, and switched off, every taken branch is one.
theorem mispredictions (p : Pipeline) (trace : List (Word × Bool)) :
    (p.branches trace).mispredicts = p.mispredicts+BitVec.ofNat 64 (p.missed trace) ∧
      if p.cfg.branchPrediction then p.missed trace ≤ ∑ k, 2*Saturation.stretches (outcomesAt k trace)
      else p.missed trace = trace.countP (·.2) := by
  refine ⟨p.missed_counted trace,?_⟩
  unfold missed
  split
  · refine Finset.sum_le_sum fun k _ => ?_
    exact Saturation.wrong_le (by decide) (by decide) (p.saturated k) _
  · rfl

end Pipeline
end Novium
