import Mathlib.Data.List.Rotate

namespace RoundRobin
variable {α : Type} {ready : α → Bool} {ring : List α} {served waiting : α}

-- A ring is listed from the one whose turn it is. The first that is ready is served and
-- goes to the end with all that were passed by.
def turn (ready : α → Bool) (ring : List α) : List α := ring.rotate (ring.findIdx ready+1)

theorem turn_split (found : ring.find? ready = some served) :
    ∃ passed rest, ring = passed ++ served :: rest ∧ (∀ a ∈ passed, ready a = false) ∧ ready served = true ∧
      turn ready ring = rest ++ (passed ++ [served]) := by
  obtain ⟨chosen,passed,rest,rfl,idle⟩ := List.find?_eq_some_iff_append.mp found
  have unready : ∀ a ∈ passed, ready a = false := by
    intro a member
    simpa using idle a member
  refine ⟨passed,rest,rfl,unready,chosen,?_⟩
  have index : (passed ++ served :: rest).findIdx ready = passed.length := by
    rw [List.findIdx_append,List.findIdx_cons,chosen]
    simp [List.findIdx_eq_length.mpr unready]
  have regrouped : passed ++ served :: rest = (passed ++ [served]) ++ rest := by rw [List.append_assoc]; rfl
  rw [turn,index,regrouped]
  have whole : passed.length+1 = (passed ++ [served]).length := by rw [List.length_append]; rfl
  rw [whole]
  exact List.rotate_append_length_eq _ _

theorem turn_waiting [DecidableEq α] (found : ring.find? ready = some served) (member : waiting ∈ ring)
    (waits : ready waiting = true) : served = waiting ∨ (turn ready ring).idxOf waiting < ring.idxOf waiting := by
  obtain ⟨passed,rest,rfl,idle,_,turned⟩ := turn_split found
  by_cases same : served = waiting
  · exact .inl same
  · have ahead : waiting ∉ passed := by
      intro earlier
      rw [idle waiting earlier] at waits
      cases waits
    have behind : waiting ∈ rest := by
      rcases List.mem_append.mp member with earlier | later
      · exact absurd earlier ahead
      · rcases List.mem_cons.mp later with equal | later
        · exact absurd equal.symm same
        · exact later
    refine .inr ?_
    rw [turned,List.idxOf_append_of_mem behind,List.idxOf_append_of_notMem ahead,List.idxOf_cons_ne _ same]
    omega

-- Those that are ready keep their order, the one served going last.
theorem turn_filter (found : ring.find? ready = some served) : ∃ rest, ring.filter ready = served :: rest ∧
    (turn ready ring).filter ready = rest ++ [served] := by
  obtain ⟨passed,rest,rfl,idle,chosen,turned⟩ := turn_split found
  have none : passed.filter ready = [] := by
    rw [List.filter_eq_nil_iff]
    intro a member
    rw [idle a member]
    decide
  refine ⟨rest.filter ready,?_,?_⟩
  · rw [List.filter_append,none,List.nil_append,List.filter_cons_of_pos chosen]
  · rw [turned,List.filter_append,List.filter_append,none,List.nil_append,List.filter_cons_of_pos chosen,List.filter_nil]

end RoundRobin
