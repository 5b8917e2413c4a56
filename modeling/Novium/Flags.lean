import Novium.Retirement

namespace Novium
open Effects
variable {h : Host} {i : Instruction} {m : Machine}

def Fits (exact : Int) : Prop := -2^31 ≤ exact ∧ exact < 2^31

instance (exact : Int) : Decidable (Fits exact) := inferInstanceAs (Decidable (-2^31 ≤ exact ∧ exact < 2^31))

-- What the flags after ADD and SUB are for.
structure TellsOf (exact : Int) (result : Word) (status : StatusFlags) : Prop where
  zero : status.zero = true ↔ result = 0
  negative : status.negative = true ↔ result.msb = true
  overflow : status.overflow = true ↔ ¬ Fits exact

theorem updateFlags_negative (r : RegisterFile) (result : Word) : (r.updateFlagsU32 result).status.negative = result.msb := by
  have top : (result >>> 31) &&& 1 = (BitVec.ofBool result.msb).setWidth 32 := by
    rw [BitVec.msb_eq_getLsbD_last]
    ext k inside
    by_cases low : k = 0
    · subst low
      simp
    · simp [low]
  unfold RegisterFile.updateFlagsU32
  dsimp only
  rw [top]
  cases result.msb <;> rfl

-- The helper runs last and clears the overflow bit the handler has just set.
theorem updateFlags_tells (r : RegisterFile) (exact : Int) (result : Word) :
    TellsOf exact result (r.updateFlagsU32 result).status ↔ Fits exact := by
  have zero : (r.updateFlagsU32 result).status.zero = true ↔ result = 0 := beq_iff_eq
  have cleared : (r.updateFlagsU32 result).status.overflow = false := rfl
  have negative := updateFlags_negative r result
  constructor
  · intro tells
    by_contra large
    have set := tells.overflow.mpr large
    rw [cleared] at set
    cases set
  · intro fits
    refine ⟨zero,by rw [negative],?_⟩
    rw [cleared]
    exact ⟨fun set => (by cases set),fun large => absurd fits large⟩

section Arithmetic
variable {d a b : Fin numGpr} (rd : i.rd.toNat = d.val) (ra : i.ra.toNat = a.val) (rb : i.rb.toNat = b.val)
include rd ra rb

theorem arith_status {op : Opcode} {f : Word → Word → Word} {overflow : Word → Word → Word → Bool} (opcode : i.opcode = some op)
    (dispatched : handler h op i = onRegs (Handlers.arith op f overflow i)) : ∃ cycles m' r, execute h i m = .ok cycles m' ∧
      m'.regs = RegisterFile.updateFlagsU32 r (f (m.regs.get a) (m.regs.get b)) := by
  obtain ⟨cycles,m',ran,core⟩ := takes_arith opcode dispatched rd ra rb m rfl
  exact ⟨cycles,m',_,ran,congrArg Core.regs core⟩

theorem overflow_flag_iff (h : Host) (m : Machine) :
    (i.opcode = some .add → ∃ cycles m', execute h i m = .ok cycles m' ∧
      (TellsOf ((m.regs.get a).toInt+(m.regs.get b).toInt) (m.regs.get a+m.regs.get b) m'.regs.status ↔
        Fits ((m.regs.get a).toInt+(m.regs.get b).toInt))) ∧
    (i.opcode = some .sub → ∃ cycles m', execute h i m = .ok cycles m' ∧
      (TellsOf ((m.regs.get a).toInt-(m.regs.get b).toInt) (m.regs.get a-m.regs.get b) m'.regs.status ↔
        Fits ((m.regs.get a).toInt-(m.regs.get b).toInt))) := by
  refine ⟨?_,?_⟩
  · intro opcode
    obtain ⟨cycles,m',r,ran,regs⟩ := arith_status (h := h) (m := m) rd ra rb opcode rfl
    refine ⟨cycles,m',ran,?_⟩
    rw [regs]
    exact updateFlags_tells ..
  · intro opcode
    obtain ⟨cycles,m',r,ran,regs⟩ := arith_status (h := h) (m := m) rd ra rb opcode rfl
    refine ⟨cycles,m',ran,?_⟩
    rw [regs]
    exact updateFlags_tells ..

end Arithmetic

def adding : Instruction := ⟨Enc.add 3 1 2⟩
def subtracting : Instruction := ⟨Enc.sub 3 1 2⟩

def operands (x y : Word) : Machine :=
  {Machine.initial 512 256 with
    regs := {RegisterFile.initial with gpr := Function.update (Function.update (fun _ => 0) 1 x) 2 y}}

theorem overflow_flag_small : (∃ cycles m', execute (.ieee .scalar) adding (operands 5 7) = .ok cycles m' ∧
      TellsOf 12 12 m'.regs.status) ∧
    ∃ cycles m', execute (.ieee .scalar) subtracting (operands 5 7) = .ok cycles m' ∧ TellsOf (-2) (-2) m'.regs.status := by
  obtain ⟨cycles,m',ran,tells⟩ := (overflow_flag_iff (i := adding) (d := 3) (a := 1) (b := 2) (by decide) (by decide) (by decide)
    (.ieee .scalar) (operands 5 7)).1 (by decide)
  obtain ⟨cycles',m'',ran',tells'⟩ := (overflow_flag_iff (i := subtracting) (d := 3) (a := 1) (b := 2) (by decide) (by decide)
    (by decide) (.ieee .scalar) (operands 5 7)).2 (by decide)
  exact ⟨⟨cycles,m',ran,tells.mpr (by decide)⟩,cycles',m'',ran',tells'.mpr (by decide)⟩

-- 0x7FFFFFFF+1 wraps and leaves the flag clear.
theorem overflow_flag_lost : ¬ ∀ (h : Host) (i : Instruction) (m : Machine) (d a b : Fin numGpr),
    i.rd.toNat = d.val → i.ra.toNat = a.val → i.rb.toNat = b.val → i.opcode = some .add →
    ∃ cycles m', execute h i m = .ok cycles m' ∧
      TellsOf ((m.regs.get a).toInt+(m.regs.get b).toInt) (m.regs.get a+m.regs.get b) m'.regs.status := by
  intro right
  obtain ⟨cycles,m',ran,tells⟩ := right (.ieee .scalar) adding (operands 0x7FFFFFFF 1) 3 1 2 (by decide) (by decide) (by decide)
    (by decide)
  have opcode : adding.opcode = some .add := by decide
  obtain ⟨cycles',m'',r,ran',regs⟩ := arith_status (h := .ieee .scalar) (m := operands 0x7FFFFFFF 1) (d := 3) (a := 1) (b := 2)
    (by decide) (by decide) (by decide) opcode rfl
  cases ran.symm.trans ran'
  rw [regs] at tells
  exact absurd ((updateFlags_tells ..).mp tells) (by decide)

end Novium
