import Mathlib.Tactic.Ring
import Novium.PricedPrograms
import Novium.TileKernel

namespace Novium
open Storage Effects StateTransition

-- The scalar loop of the integration program, over its limit.
def countedLoop (n : Nat) : List Word :=
  [Enc.movi 1 0,Enc.movi 2 (BitVec.ofNat 16 n),Enc.movi 4 1,Enc.movi 3 0,Enc.add 1 1 4,Enc.add 3 3 1,Enc.bne 1 2 (-12),Enc.halt]

structure Counted (n : Nat) (m : Machine) : Prop where
  sum : m.regs.readGpr 3 = some (BitVec.ofNat 32 (n*(n+1)/2))
  counter : m.regs.readGpr 1 = some (BitVec.ofNat 32 n)
  pc : m.regs.pc = 0x20
  halted : m.regs.halt = true
  instructions : m.profiler.instrCount = BitVec.ofNat 64 (3*n+5)
  cycles : m.profiler.cycleCount = BitVec.ofNat 64 (5*n+3)

namespace CountedLoop

structure Turned (n k : Nat) (gpr : Fin numGpr → Word) : Prop where
  counter : gpr 1 = BitVec.ofNat 32 k
  limit : gpr 2 = BitVec.ofNat 32 n
  sum : gpr 3 = BitVec.ofNat 32 (k*(k+1)/2)
  one : gpr 4 = 1

variable {h : Host} {n k : Nat} {gpr : Fin numGpr → Word}

theorem prologue (most : n ≤ 65535) : Triple h (countedLoop n) 0 (fun _ => True) 4 4 4 (Turned n 0) := by
  have limit : (BitVec.ofNat 16 n).zeroExtend 32 = BitVec.ofNat 32 n := by
    apply BitVec.eq_of_toNat_eq
    rw [BitVec.toNat_setWidth,BitVec.toNat_ofNat,BitVec.toNat_ofNat]
    omega
  have last : Triple h (countedLoop n) 3 _ 1 1 4 (Turned n 0) := Triple.movi (d := 3) rfl
  have third : Triple h (countedLoop n) 2 _ 2 2 4 (Turned n 0) := Triple.seq (Triple.movi (d := 4) rfl) last
  have second : Triple h (countedLoop n) 1 _ 3 3 4 (Turned n 0) := Triple.seq (Triple.movi (d := 2) rfl) third
  have first : Triple h (countedLoop n) 0 _ 4 4 4 (Turned n 0) := Triple.seq (Triple.movi (d := 1) rfl) second
  apply first.pre
  intro gpr _
  exact ⟨rfl,limit,rfl,rfl⟩

theorem turned (turned : Turned n k gpr) :
    Turned n (k+1) (assign (assign gpr 1 (gpr 1+gpr 4)) 3 (assign gpr 1 (gpr 1+gpr 4) 3+assign gpr 1 (gpr 1+gpr 4) 1)) := by
  have next : gpr 1+gpr 4 = BitVec.ofNat 32 (k+1) := by
    rw [turned.counter,turned.one,BitVec.ofNat_add]
    rfl
  have triangle : (k+1)*(k+1+1)/2 = k*(k+1)/2+(k+1) := by
    rw [show (k+1)*(k+1+1) = k*(k+1)+2*(k+1) by ring,Nat.add_mul_div_left _ _ (by decide)]
  refine ⟨next,turned.limit,?_,turned.one⟩
  change gpr 3+(gpr 1+gpr 4) = _
  rw [next,turned.sum,triangle,BitVec.ofNat_add (k*(k+1)/2)]

theorem additions {Q : (Fin numGpr → Word) → Prop} : Triple h (countedLoop n) 4
    (fun g => Q (assign (assign g 1 (g 1+g 4)) 3 (assign g 1 (g 1+g 4) 3+assign g 1 (g 1+g 4) 1))) 2 2 6 Q :=
  (Triple.add (d := 1) (a := 1) (b := 4) rfl).seq (Triple.add (d := 3) (a := 3) (b := 1) rfl)

-- A turn before the last goes back to the first addition.
theorem turn (most : n ≤ 65535) (before : k+1 < n) : Triple h (countedLoop n) 4 (Turned n k) 3 5 4 (Turned n (k+1)) := by
  have back : Triple h (countedLoop n) 6 _ 1 3 4 (Turned n (k+1)) := Triple.bneTaken (a := 1) (b := 2) rfl (by decide)
  refine (additions.seq back).pre ?_
  intro gpr here
  have next := turned here
  refine ⟨?_,next⟩
  rw [next.counter,next.limit]
  intro same
  have equal := congrArg BitVec.toNat same
  rw [BitVec.toNat_ofNat,BitVec.toNat_ofNat] at equal
  omega

theorem lastTurn (last : k+1 = n) : Triple h (countedLoop n) 4 (Turned n k) 3 4 7 (Turned n n) := by
  have falls : Triple h (countedLoop n) 6 _ 1 2 7 (Turned n n) := Triple.bneFalls (a := 1) (b := 2) rfl
  refine (additions.seq falls).pre ?_
  intro gpr here
  have next := turned here
  rw [last] at next
  refine ⟨?_,next⟩
  rw [next.counter,next.limit]

-- The induction is on the turns after this one.
theorem turns (most : n ≤ 65535) (left : Nat) : ∀ k, k+left+1 = n →
    Triple h (countedLoop n) 4 (Turned n k) (3*(left+1)) (5*left+4) 7 (Turned n n) := by
  induction left with
  | zero => exact fun k last => lastTurn last
  | succ left ih =>
    intro k total
    have rest := (turn (h := h) most (show k+1 < n by omega)).seq (ih (k+1) (by omega))
    rw [show 3+3*(left+1) = 3*(left+1+1) by omega,show 5+(5*left+4) = 5*(left+1)+4 by omega] at rest
    exact rest

theorem program (least : 1 ≤ n) (most : n ≤ 65535) :
    Triple h (countedLoop n) 0 (fun _ => True) (3*n+4) (5*n+3) 7 (Turned n n) := by
  have whole := (prologue (h := h) most).seq (turns most (n-1) 0 (by omega))
  rw [show 4+3*(n-1+1) = 3*n+4 by omega,show 4+(5*(n-1)+4) = 5*n+3 by omega] at whole
  exact whole

theorem counted {m m' : Machine} (fresh : m.profiler = .initial) (halted : Halted (3*n+4+1) (5*n+3) (7+1) (Turned n n) m m') : Counted n m' where
  sum := (m'.regs.readGpr_get 3).trans (congrArg some halted.regs.sum)
  counter := (m'.regs.readGpr_get 1).trans (congrArg some halted.regs.counter)
  pc := halted.pc
  halted := halted.halted
  instructions := by
    rw [halted.billed.instructions,fresh]
    exact BitVec.zero_add _
  cycles := by
    rw [halted.billed.cycles,fresh]
    exact BitVec.zero_add _

end CountedLoop

-- From a fresh emulator both loops halt with the sum, at the cost of the turns.
theorem counted_loop_sums (h : Host) (n : Nat) (least : 1 ≤ n) (most : n ≤ 65535) :
    ∃ e, (Emulator.initial scratchpadSize mainRamSize).loadProgram ((countedLoop n).flatMap wordBytes) = .ok e ∧
      (∃ m, Reaches (runNext h) (.loop e.core) (.done m) ∧ Counted n m) ∧
      ∃ e', Reaches (fastNext h) (.loop e) (.done e') ∧ Counted n e'.core := by
  obtain ⟨e,launched,ready,empty,fresh,_⟩ := launched_ready (show 4*(countedLoop n).length ≤ textSize by change 32 ≤ textSize; decide)
    (zeroStore mainRamSize)
  have faithful : Faithful (countedLoop n) e.blockCache := by
    intro pc blk found
    rw [empty] at found
    cases found
  obtain ⟨⟨m,ran,slow⟩,e',replayed,fast⟩ := (CountedLoop.program (h := h) least most).halts rfl e ready faithful trivial
  exact ⟨e,launched,⟨m,ran,CountedLoop.counted fresh slow⟩,e',replayed,CountedLoop.counted fresh fast⟩

theorem counted_loop_sums_five :
    ∃ e, (Emulator.initial scratchpadSize mainRamSize).loadProgram ((countedLoop 5).flatMap wordBytes) = .ok e ∧
      (∃ m, Reaches (runNext (.ieee .scalar)) (.loop e.core) (.done m) ∧ Counted 5 m) ∧
      ∃ e', Reaches (fastNext (.ieee .scalar)) (.loop e) (.done e') ∧ Counted 5 e'.core :=
  counted_loop_sums (.ieee .scalar) 5 (by decide) (by decide)

end Novium
