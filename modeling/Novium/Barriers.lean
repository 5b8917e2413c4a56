import Mathlib.Algebra.BigOperators.Fin
import Novium.Cluster
import Novium.Timekeeping

namespace Novium

structure EngineTick where
  coreId : Word
  cycles : DWord

namespace DeterministicEngine

def reset (e : DeterministicEngine) : DeterministicEngine := {e with globalClock := 0,seq := 0,clocks := fun _ => 0}

def run (e : DeterministicEngine) (ticks : List EngineTick) : Option DeterministicEngine :=
  ticks.foldlM (fun e t => (e.tick t.coreId t.cycles).map Prod.snd) e

-- A barrier is signalled when the clock enters another quantum, at every call of a
-- sequence.
def FiresOnce (e : DeterministicEngine) : List EngineTick → Prop
  | [] => True
  | t :: rest => ∃ due e', e.tick t.coreId t.cycles = some (due,e') ∧
      (due = true ↔ e.globalClock.toNat/e.quantum.toNat < e'.globalClock.toNat/e.quantum.toNat) ∧ e'.FiresOnce rest

-- Every call stays short of the next multiple of the quantum or lands on one, and one
-- that starts on a multiple moves the clock.
def Lands (quantum total : Nat) : List EngineTick → Prop
  | [] => True
  | t :: rest => (0 < total % quantum+t.cycles.toNat ∧
      (total % quantum+t.cycles.toNat < quantum ∨ quantum ∣ total % quantum+t.cycles.toNat)) ∧
      Lands quantum (total+t.cycles.toNat) rest

def duration (ticks : List EngineTick) : Nat := (ticks.map fun t => t.cycles.toNat).sum

theorem duration_cons (t : EngineTick) (ticks : List EngineTick) : duration (t :: ticks) = t.cycles.toNat+duration ticks := rfl

structure Reads (e : DeterministicEngine) (total : Nat) : Prop where
  positive : 0 < e.quantum.toNat
  clock : e.globalClock.toNat = total
  cores : ∑ core, (e.clocks core).toNat = total

theorem sum_update (clocks : Fin maxCores → DWord) (core : Fin maxCores) (value : DWord) :
    (∑ k, (Function.update clocks core value k).toNat)+(clocks core).toNat = value.toNat+∑ k, (clocks k).toNat := by
  have updated : (fun k => (Function.update clocks core value k).toNat) =
      Function.update (fun k => (clocks k).toNat) core value.toNat := by
    funext k
    exact Function.apply_update (fun _ => BitVec.toNat) clocks core value k
  rw [updated,Finset.sum_update_of_mem (Finset.mem_univ core)]
  have parts := Finset.sum_erase_add Finset.univ (fun k => (clocks k).toNat) (Finset.mem_univ core)
  rw [Finset.sdiff_singleton_eq_erase,Nat.add_assoc,parts]

variable {e : DeterministicEngine} {total : Nat}

theorem Reads.tick (reads : Reads e total) (t : EngineTick) (room : total+t.cycles.toNat < 2^64) :
    ∃ due e', e.tick t.coreId t.cycles = some (due,e') ∧ Reads e' (total+t.cycles.toNat) ∧ e'.quantum = e.quantum ∧
      (due = true ↔ (total+t.cycles.toNat) % e.quantum.toNat = 0) := by
  obtain ⟨positive,clock,cores⟩ := reads
  have some_quantum : e.quantum ≠ 0 := by
    intro none
    rw [none] at positive
    exact absurd positive (by decide)
  have moved : (e.globalClock+t.cycles).toNat = total+t.cycles.toNat := by
    rw [BitVec.toNat_add_of_lt (by rw [clock]; exact room),clock]
  unfold DeterministicEngine.tick
  dsimp only
  rw [if_neg some_quantum]
  refine ⟨_,_,rfl,⟨positive,moved,?_⟩,rfl,?_⟩
  · dsimp only
    generalize (⟨t.coreId.toNat % maxCores,_⟩ : Fin maxCores) = core
    have parts := Finset.sum_erase_add Finset.univ (fun k => (e.clocks k).toNat) (Finset.mem_univ core)
    have own : (e.clocks core+t.cycles).toNat = (e.clocks core).toNat+t.cycles.toNat :=
      BitVec.toNat_add_of_lt (by omega)
    have sum := sum_update e.clocks core (e.clocks core+t.cycles)
    rw [own,cores] at sum
    omega
  · rw [beq_iff_eq,← BitVec.toNat_inj,BitVec.toNat_umod,moved]
    rfl

-- The remainder of the clock by the quantum says less than where the clock has been.
theorem lands_iff {quantum : Nat} (positive : 0 < quantum) (total cycles : Nat) :
    ((total+cycles) % quantum = 0 ↔ total/quantum < (total+cycles)/quantum) ↔
      0 < total % quantum+cycles ∧ (total % quantum+cycles < quantum ∨ quantum ∣ total % quantum+cycles) := by
  have remainder : (total+cycles) % quantum = (total % quantum+cycles) % quantum := (Nat.mod_add_mod _ _ _).symm
  rw [multiple_reached positive,remainder,← Nat.dvd_iff_mod_eq_zero]
  generalize total % quantum+cycles = ahead
  constructor
  · intro agree
    by_cases reached : quantum ≤ ahead
    · exact ⟨by omega,.inr (agree.mpr reached)⟩
    · refine ⟨Nat.pos_of_ne_zero ?_,.inl (Nat.not_le.mp reached)⟩
      intro zero
      exact reached (agree.mp (zero ▸ Nat.dvd_zero quantum))
  · rintro ⟨moves,short | multiple⟩
    · exact ⟨fun divides => absurd (Nat.le_of_dvd moves divides) (Nat.not_le.mpr short),fun reached => absurd short (Nat.not_lt.mpr reached)⟩
    · exact ⟨fun _ => Nat.le_of_dvd moves multiple,fun _ => multiple⟩

theorem Reads.firesOnce_iff (reads : Reads e total) (ticks : List EngineTick) (room : total+duration ticks < 2^64) :
    e.FiresOnce ticks ↔ Lands e.quantum.toNat total ticks := by
  induction ticks generalizing e total with
  | nil => exact Iff.rfl
  | cons t rest ih =>
    rw [duration_cons] at room
    obtain ⟨due,e',ticked,reads',quantum,answer⟩ := reads.tick t (by omega)
    have later := ih reads' (by omega)
    rw [quantum] at later
    unfold FiresOnce Lands
    rw [← lands_iff reads.positive,← later,← answer]
    constructor
    · rintro ⟨due',next,same,fires,goes⟩
      cases Option.some.inj (ticked.symm.trans same)
      rw [reads.clock,reads'.clock] at fires
      exact ⟨fires,goes⟩
    · rintro ⟨fires,goes⟩
      refine ⟨due,e',ticked,?_,goes⟩
      rw [reads.clock,reads'.clock]
      exact fires

theorem Reads.run (reads : Reads e total) (ticks : List EngineTick) (room : total+duration ticks < 2^64) :
    ∃ e', e.run ticks = some e' ∧ Reads e' (total+duration ticks) := by
  induction ticks generalizing e total with
  | nil => exact ⟨e,rfl,reads⟩
  | cons t rest ih =>
    rw [duration_cons] at room ⊢
    obtain ⟨due,e',ticked,reads',_,_⟩ := reads.tick t (by omega)
    obtain ⟨last,ran,final⟩ := ih reads' (by omega)
    refine ⟨last,?_,by rw [← Nat.add_assoc]; exact final⟩
    unfold DeterministicEngine.run at ran ⊢
    rw [List.foldlM_cons,ticked]
    exact ran

end DeterministicEngine

-- The clocks always add up; a barrier is due on the multiples themselves.
theorem barriers_fire_once_iff (e : DeterministicEngine) (ticks : List EngineTick) (positive : 1 ≤ e.quantum)
    (room : DeterministicEngine.duration ticks < 2^64) :
    (e.reset.FiresOnce ticks ↔ DeterministicEngine.Lands e.quantum.toNat 0 ticks) ∧
    ∃ e', e.reset.run ticks = some e' ∧ e'.globalClock.toNat = ∑ core, (e'.clocks core).toNat := by
  have some_quantum : 0 < e.reset.quantum.toNat := BitVec.le_def.mp positive
  have start : e.reset.Reads 0 := ⟨some_quantum,rfl,Finset.sum_eq_zero fun _ _ => rfl⟩
  have fits : 0+DeterministicEngine.duration ticks < 2^64 := by rw [Nat.zero_add]; exact room
  refine ⟨start.firesOnce_iff ticks fits,?_⟩
  obtain ⟨e',ran,reads⟩ := start.run ticks fits
  exact ⟨e',ran,reads.clock.trans reads.cores.symm⟩

theorem barriers_fire_once_thirds : ((DeterministicEngine.initial 1000).reset).FiresOnce [⟨0,300⟩,⟨1,700⟩,⟨17,2000⟩] :=
  (barriers_fire_once_iff (.initial 1000) [⟨0,300⟩,⟨1,700⟩,⟨17,2000⟩] (by decide) (by decide)).1.mpr
    ⟨⟨by decide,.inl (by decide)⟩,⟨by decide,.inr (by decide)⟩,⟨by decide,.inr (by decide)⟩,trivial⟩

-- One call of one and a half quanta.
theorem barrier_jumped : ¬ ∀ (e : DeterministicEngine) (ticks : List EngineTick), 1 ≤ e.quantum →
    DeterministicEngine.duration ticks < 2^64 → e.reset.FiresOnce ticks := by
  intro fires
  obtain ⟨due,e',ticked,signalled,_⟩ := fires (.initial 1000) [⟨0,1500⟩] (by decide) (by decide)
  cases ticked
  exact absurd signalled (by decide)

end Novium
