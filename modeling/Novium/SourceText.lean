import Novium.Decoder
import Novium.Text
import Mathlib.Data.List.TakeWhile

namespace Novium
open Storage
namespace TranslationEngine
open Text

-- The loaders read their source line by line; what they do with a line that was put
-- together from its parts.

theorem getLines_line {line rest : List Byte} (oneLine : (0x0A : Byte) ∉ line) :
    getLines (line ++ 0x0A :: rest) = line :: getLines rest := by
  induction line with
  | nil => rfl
  | cons b line ih =>
      have other : b ≠ 0x0A := fun same => oneLine (same ▸ List.mem_cons_self)
      have tail := ih fun member => oneLine (List.mem_cons_of_mem _ member)
      rw [List.cons_append,getLines,if_neg other,tail]

theorem getLines_last {line : List Byte} (oneLine : (0x0A : Byte) ∉ line) (some : line ≠ []) :
    getLines line = [line] := by
  induction line with
  | nil => exact absurd rfl some
  | cons b line ih =>
      have other : b ≠ 0x0A := fun same => oneLine (same ▸ List.mem_cons_self)
      rw [getLines,if_neg other]
      cases line with
      | nil => rfl
      | cons c line =>
          rw [ih (fun member => oneLine (List.mem_cons_of_mem _ member)) (by simp)]

-- Whether the text ends in a newline makes no difference to what takes nothing from an
-- empty line.
theorem getLines_flatMap {α : Type} (f : List Byte → List α) (empty : f [] = []) {lines : List (List Byte)}
    (oneLine : ∀ line ∈ lines, (0x0A : Byte) ∉ line) :
    (getLines ([0x0A].intercalate lines)).flatMap f = lines.flatMap f := by
  induction lines with
  | nil => rfl
  | cons line lines ih =>
      have here := oneLine line List.mem_cons_self
      cases lines with
      | nil =>
          rw [List.intercalate_singleton]
          by_cases none : line = []
          · rw [none,List.flatMap_singleton,empty]
            rfl
          · rw [getLines_last here none]
      | cons next lines =>
          have rest := ih fun line member => oneLine line (List.mem_cons_of_mem _ member)
          rw [List.intercalate_cons_cons,List.append_assoc,List.singleton_append,getLines_line here,
            List.flatMap_cons,rest,←List.flatMap_cons]

theorem stripComment_append {s rest : List Byte} (plain : (0x2F : Byte) ∉ s) :
    stripComment (s ++ rest) = s ++ stripComment rest := by
  induction s with
  | nil => rfl
  | cons b s ih =>
      have other : b ≠ 0x2F := fun same => plain (same ▸ List.mem_cons_self)
      rw [List.cons_append,stripComment,ih fun member => plain (List.mem_cons_of_mem _ member),List.cons_append]
      intro _ same
      exact absurd same other

def Blanks (s : List Byte) : Prop := ∀ b ∈ s, isBlank b = true ∧ b ≠ 0x0A

theorem Blanks.nil : Blanks [] := List.forall_mem_nil _

theorem not_mem_blanks {s : List Byte} {b : Byte} (blanks : ∀ b ∈ s, isBlank b = true) (other : isBlank b = false) : b ∉ s := by
  intro member
  rw [blanks b member] at other
  cases other

theorem trim_core {left core right : List Byte} (before : ∀ b ∈ left, isBlank b = true)
    (after : ∀ b ∈ right, isBlank b = true) (starts : Stops isBlank core) (ends : Stops isBlank core.reverse) : trim (left ++ core ++ right) = core := by
  have reversed : (core ++ right).reverse.dropWhile isBlank = core.reverse := by
    rw [List.reverse_append]
    exact ends.dropped fun b member => after b (List.mem_reverse.mp member)
  unfold trim
  cases core with
  | nil =>
      have all : ∀ b ∈ left ++ [] ++ right, isBlank b = true := by
        intro b member
        rw [List.append_nil] at member
        rcases List.mem_append.mp member with first | second
        · exact before b first
        · exact after b second
      rw [List.dropWhile_eq_nil_iff.mpr all]
      rfl
  | cons b core =>
      have kept : Stops isBlank (b :: core ++ right) := fun c first => starts c first
      rw [List.append_assoc,kept.dropped before,reversed,List.reverse_reverse]

end TranslationEngine
end Novium
