import Novium.Lockstep

namespace Novium
open Storage Effects

def Machine.setAcceleration (m : Machine) (on : Bool) : Machine := {m with accel := on}

inductive SameButAccel (m : Machine) : Machine → Prop where
  | flag (on : Bool) : SameButAccel m (m.setAcceleration on)

theorem SameButAccel.overlaid : SameButAccel = Overlaid fun _ a b => b.2 = a.2 := by
  funext m n
  refine propext ⟨?_,?_⟩
  · intro same
    cases same with
    | flag on => exact .overlay on m.shared rfl
  · intro related
    cases related with
    | overlay on ram same =>
      cases same
      exact .flag on

theorem SameButAccel.lockstep : Lockstep true (fun _ => True) (fun _ => True) SameButAccel := by
  rw [SameButAccel.overlaid]
  exact Overlaid.lockstep ⟨fun same _ => same,fun same _ => same,fun _ same _ => .of_shared same,fun _ same _ => .of_shared same,
    fun _ _ _ _ _ => rfl⟩

-- With the same host arithmetic behind every lane, switching acceleration changes
-- nothing: call by call of `step`, pass by pass of `run`, and inside `run_fast`.
theorem acceleration_invisible (h : Host) (e : Emulator) (n : Nat) :
    RunAlike h SameButAccel ⟨e.core.setAcceleration true,e.blockCache⟩ ⟨e.core.setAcceleration false,e.blockCache⟩ n := by
  apply SameButAccel.lockstep.runs h
  · exact .flag false
  · rfl

end Novium
