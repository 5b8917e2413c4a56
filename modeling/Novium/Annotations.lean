import Novium.Frontend
import Novium.SourceText

namespace Novium
open Storage TranslationEngine Text

-- The annotations with operands that a C++ source may carry.
inductive AnnotatedOp where
  | vecAdd (d a b : Fin 8)
  | matmulTile (d a b : Fin 8) (n : BitVec 8)
  | dmaLoad (d a : Fin 16) (n : BitVec 16)
  | dmaStore (d a : Fin 16) (n : BitVec 16)
  deriving DecidableEq, Repr

namespace AnnotatedOp

def word : AnnotatedOp → Word
  | vecAdd d a b => Enc.vecAdd (BitVec.ofNat 8 d) (BitVec.ofNat 8 a) (BitVec.ofNat 8 b)
  | matmulTile d a b n => Enc.matmulTile (BitVec.ofNat 8 d) (BitVec.ofNat 8 a) (BitVec.ofNat 8 b) n
  | dmaLoad d a n => Enc.dmaLoad (BitVec.ofNat 8 d) (BitVec.ofNat 8 a) n
  | dmaStore d a n => Enc.dmaStore (BitVec.ofNat 8 d) (BitVec.ofNat 8 a) n

def mnemonic : AnnotatedOp → List Byte
  | vecAdd _ _ _ => ascii "vec_add"
  | matmulTile _ _ _ _ => ascii "matmul_tile"
  | dmaLoad _ _ _ => ascii "dma_load"
  | dmaStore _ _ _ => ascii "dma_store"

def operands : AnnotatedOp → List Byte
  | vecAdd d a b => ascii " v" ++ shown d ++ ascii ", v" ++ shown a ++ ascii ", v" ++ shown b
  | matmulTile d a b n =>
    ascii " v" ++ shown d ++ ascii ", v" ++ shown a ++ ascii ", v" ++ shown b ++ ascii ", N=" ++ shown n.toNat
  | dmaLoad d a n | dmaStore d a n => ascii " r" ++ shown d ++ ascii ", r" ++ shown a ++ ascii ", " ++ shown n.toNat

def text (a : AnnotatedOp) : List Byte := a.mnemonic ++ a.operands

-- The operands the loader writes whatever the annotation says; a DMA length is read
-- modulo the field it is put in.
def Fixed : AnnotatedOp → Prop
  | vecAdd d a b => d = 2 ∧ a = 0 ∧ b = 1
  | matmulTile d a b n => d = 3 ∧ a = 0 ∧ b = 1 ∧ n = 4
  | dmaLoad d a n => d = 5 ∧ a = 7 ∧ n.toNat % 2048 = 64
  | dmaStore d a n => d = 9 ∧ a = 5 ∧ n.toNat % 2048 = 64

def emitted : AnnotatedOp → Word
  | vecAdd _ _ _ => Enc.vecAdd 2 0 1
  | matmulTile _ _ _ _ => Enc.matmulTile 3 0 1 4
  | dmaLoad _ _ _ => Enc.dmaLoad 5 7 64
  | dmaStore _ _ _ => Enc.dmaStore 9 5 64

end AnnotatedOp

-- A line of a C++ source: without an annotation, or with one after code that no comment
-- starts in.
inductive CppLine where
  | plain (text : List Byte) (oneLine : (0x0A : Byte) ∉ text) (unannotated : Pattern.novium.regex.search text = none)
  | annotated (code : List Byte) (op : AnnotatedOp) (padding : List Byte)
      (oneLine : (0x0A : Byte) ∉ code) (uncommented : ¬ascii "//" <:+: code) (padded : Blanks padding)

namespace CppLine

def text : CppLine → List Byte
  | plain text _ _ => text
  | annotated code op padding _ _ _ => code ++ (ascii "// novium: " ++ (op.text ++ padding))

def op : CppLine → Option AnnotatedOp
  | plain _ _ _ => none
  | annotated _ op _ _ _ _ => some op

end CppLine

def cppSource (lines : List CppLine) : List Byte := [0x0A].intercalate (lines.map CppLine.text)

def annotations (lines : List CppLine) : List AnnotatedOp := lines.filterMap CppLine.op

namespace Pattern

def inLine (b : Byte) : Bool := b != 0x0A && b != 0x0D

def marker : Regex := joined [spaces,litIcase "novium:",spaces,.group (.plus inLine)]

abbrev found (_ : List Byte) (groups : List (List Byte)) : Option (List (List Byte)) := some groups

theorem slash_icase : ∀ b : Byte, (toLower b == toLower 0x2F) = true → b = 0x2F := by decide +kernel

-- No match starts at a text that does not start with two slashes.
theorem novium_refused {s : List Byte} (other : ¬ascii "//" <+: s) : novium.regex.run found s [] = none := by
  match s with
  | [] => rfl
  | [b] =>
      change (if (toLower b == toLower 0x2F) = true then none else none) = none
      exact ite_self none
  | b :: c :: s =>
      change (if (toLower b == toLower 0x2F) = true then
        (if (toLower c == toLower 0x2F) = true then marker.run found s [] else none) else none) = none
      split
      · rename_i first
        apply if_neg
        intro second
        apply other
        rw [slash_icase b first,slash_icase c second]
        exact ⟨s,rfl⟩
      · rfl

section Annotated
variable {c : Byte} {body : List Byte}

theorem marker_found (unspaced : isSpace c = false) (accepted : inLine c = true) :
    marker.run found (ascii " novium: " ++ c :: body) [] = some [(c :: body).takeWhile inLine] := by
  have command : Regex.greedy isSpace (fun s => (joined [.group (.plus inLine)]).run found s []) ([0x20] ++ c :: body) =
      some [(c :: body).takeWhile inLine] := by
    apply Regex.greedy_append (by decide) unspaced
    exact Regex.run_group_plus accepted
  have spaced : Regex.greedy isSpace (fun s => (joined [litIcase "novium:",spaces,.group (.plus inLine)]).run found s [])
      ([0x20] ++ 0x6E :: (ascii "ovium: " ++ c :: body)) = some [(c :: body).takeWhile inLine] := by
    apply Regex.greedy_append (by decide) rfl
    exact command
  exact spaced

theorem novium_search {code : List Byte} (uncommented : ¬ascii "//" <:+: code) (unspaced : isSpace c = false)
    (accepted : inLine c = true) :
    novium.regex.search (code ++ (ascii "// novium: " ++ c :: body)) = some [(c :: body).takeWhile inLine] := by
  rw [Regex.search_append]
  · apply Regex.search_found
    exact marker_found unspaced accepted
  · intro b rest suffix
    by_cases slashes : ascii "//" <+: b :: rest ++ (ascii "// novium: " ++ c :: body)
    · cases rest with
      | nil =>
          -- A third slash: the marker does not follow the first two.
          have first : b = 0x2F := (List.cons_prefix_cons.mp slashes).1.symm
          rw [first]
          rfl
      | cons d rest =>
          have inside : ascii "//" <+: b :: d :: rest := List.prefix_of_prefix_length_le slashes
            (List.prefix_append _ _) (by simp [ascii])
          exact absurd (inside.isInfix.trans suffix.isInfix) uncommented
    · exact novium_refused slashes

end Annotated

end Pattern

namespace Frontend

theorem not_occurs {needle s : List Byte} (b : Byte) (needed : b ∈ needle) (missing : b ∉ s) :
    ¬occurs needle s = true := by
  intro found
  exact missing ((occurs_iff.mp found).subset needed)

theorem occurs_head (needle s : List Byte) : occurs needle (needle ++ s) = true :=
  occurs_iff.mpr (List.prefix_append needle s).isInfix

theorem operands_bytes (a : AnnotatedOp) : ∀ b ∈ a.operands, isDigit b = true ∨ b ∈ ascii " ,vrN=" := by
  have digits (n : Nat) : ∀ b ∈ shown n, isDigit b = true ∨ b ∈ ascii " ,vrN=" :=
    fun _ member => .inl (shown_digits member)
  cases a <;>
    simp only [AnnotatedOp.operands,List.forall_mem_append] <;>
    and_intros <;>
    first | exact digits _ | simp [ascii]

theorem lowered_bytes (a : AnnotatedOp) : ∀ b ∈ a.operands.map toLower, isDigit b = true ∨ b ∈ ascii " ,vrn=" := by
  have unchanged : ∀ b : Byte, isDigit b = true → isDigit (toLower b) = true := by decide +kernel
  have lower : ∀ b ∈ ascii " ,vrN=", toLower b ∈ ascii " ,vrn=" := by decide
  intro b member
  obtain ⟨c,printed,rfl⟩ := List.mem_map.mp member
  rcases operands_bytes a c printed with digit | sign
  · exact .inl (unchanged c digit)
  · exact .inr (lower c sign)

theorem letter_missing (a : AnnotatedOp) {b : Byte} {blanks : List Byte} (letter : b ∈ ascii "cul") (other : b ∉ a.mnemonic)
    (blank : ∀ b ∈ blanks, isBlank b = true) : b ∉ a.mnemonic ++ (a.operands.map toLower ++ blanks) := by
  have apart : ∀ b ∈ ascii "cul", isDigit b = false ∧ b ∉ ascii " ,vrn=" ∧ isBlank b = false := by decide
  obtain ⟨undigit,unprinted,unblank⟩ := apart b letter
  intro member
  rcases List.mem_append.mp member with first | rest
  · exact other first
  · rcases List.mem_append.mp rest with second | last
    · rcases lowered_bytes a b second with digit | printed
      · rw [digit] at undigit
        cases undigit
      · exact unprinted printed
    · exact not_mem_blanks blank unblank last

theorem annotationWord_text (a : AnnotatedOp) {blanks : List Byte} (blank : ∀ b ∈ blanks, isBlank b = true) :
    annotationWord (a.mnemonic ++ (a.operands.map toLower ++ blanks)) = some a.emitted := by
  have absent (needle : List Byte) (b : Byte) (letter : b ∈ ascii "cul") (needed : b ∈ needle) (other : b ∉ a.mnemonic) :=
    not_occurs b needed (letter_missing a letter other blank)
  unfold annotationWord
  cases a with
  | vecAdd d a b => exact if_pos (occurs_head _ _)
  | matmulTile d a b n =>
      rw [if_neg (absent _ 0x63 (by decide) (by decide) (by simp [AnnotatedOp.mnemonic,ascii]))]
      exact if_pos (occurs_head (ascii "matmul") (ascii "_tile" ++ _))
  | dmaLoad d a n =>
      rw [if_neg (absent _ 0x63 (by decide) (by decide) (by simp [AnnotatedOp.mnemonic,ascii])),
        if_neg (absent _ 0x75 (by decide) (by decide) (by simp [AnnotatedOp.mnemonic,ascii]))]
      exact if_pos (occurs_head _ _)
  | dmaStore d a n =>
      rw [if_neg (absent _ 0x63 (by decide) (by decide) (by simp [AnnotatedOp.mnemonic,ascii])),
        if_neg (absent _ 0x75 (by decide) (by decide) (by simp [AnnotatedOp.mnemonic,ascii])),
        if_neg (absent _ 0x6C (by decide) (by decide) (by simp [AnnotatedOp.mnemonic,ascii]))]
      exact if_pos (occurs_head _ _)

def lineWord (line : List Byte) : Option Word := do
  let groups ← Pattern.novium.regex.search line
  let cmd ← groups[0]?
  annotationWord (cmd.map toLower)

theorem annotation_inLine (a : AnnotatedOp) : ∀ b ∈ a.text, Pattern.inLine b = true := by
  have digits : ∀ b : Byte, isDigit b = true → Pattern.inLine b = true := by decide +kernel
  have signs : ∀ b ∈ ascii " ,vrN=", Pattern.inLine b = true := by decide
  have letters : ∀ b ∈ a.mnemonic, Pattern.inLine b = true := by
    cases a <;> simp [AnnotatedOp.mnemonic,ascii,Pattern.inLine]
  intro b member
  rcases List.mem_append.mp member with first | second
  · exact letters b first
  · rcases operands_bytes a b second with digit | sign
    · exact digits b digit
    · exact signs b sign

theorem lineWord_text (line : CppLine) : lineWord line.text = line.op.map AnnotatedOp.emitted := by
  cases line with
  | plain text oneLine unannotated =>
      unfold lineWord CppLine.text
      rw [unannotated]
      rfl
  | annotated code op padding oneLine uncommented padded =>
      obtain ⟨c,body,whole,unspaced,accepted⟩ : ∃ c body, op.text = c :: body ∧ isSpace c = false ∧
          Pattern.inLine c = true := by
        cases op <;> exact ⟨_,_,rfl,rfl,rfl⟩
      have found : Pattern.novium.regex.search (code ++ (ascii "// novium: " ++ c :: (body ++ padding))) =
          some [(c :: (body ++ padding)).takeWhile Pattern.inLine] :=
        Pattern.novium_search uncommented unspaced accepted
      rw [←List.cons_append,←whole,List.takeWhile_append_of_pos (annotation_inLine op)] at found
      have lowered : (op.text ++ padding.takeWhile Pattern.inLine).map toLower = op.mnemonic ++
          (op.operands.map toLower ++ (padding.takeWhile Pattern.inLine).map toLower) := by
        have lower : op.mnemonic.map toLower = op.mnemonic := by cases op <;> rfl
        rw [AnnotatedOp.text,List.map_append,List.map_append,lower,List.append_assoc]
      have blank : ∀ b ∈ (padding.takeWhile Pattern.inLine).map toLower, isBlank b = true := by
        have unchanged : ∀ b : Byte, isBlank b = true → isBlank (toLower b) = true := by decide +kernel
        intro b member
        obtain ⟨d,taken,rfl⟩ := List.mem_map.mp member
        exact unchanged d (padded d ((List.takeWhile_sublist _).subset taken)).1
      unfold lineWord CppLine.text
      rw [found]
      change annotationWord _ = _
      rw [lowered,annotationWord_text op blank]
      rfl

theorem lowerLine_standard (acc : List Word × Bool) (line : List Byte) :
    lowerLine .standard acc line = .ok (acc.1 ++ (lineWord line).toList,acc.2 || (lineWord line).isSome) := by
  have searched : lineWord line = ((Pattern.novium.regex.search line).bind fun groups => groups[0]?).bind fun cmd =>
      annotationWord (cmd.map toLower) := by
    unfold lineWord
    cases Pattern.novium.regex.search line <;> rfl
  have unchanged : (acc.1 ++ [],acc.2 || false) = acc := by simp
  have returned : Library.standard.search .novium line =
      .ok ((Pattern.novium.regex.search line).bind fun groups => groups[0]?) := rfl
  unfold lowerLine
  rw [searched,returned]
  dsimp only [bind,Except.bind]
  cases (Pattern.novium.regex.search line).bind fun groups => groups[0]? with
  | none => exact congrArg Except.ok unchanged.symm
  | some cmd =>
      rw [Option.bind_some]
      cases lowered : annotationWord (cmd.map toLower) with
      | none =>
          simp only [lowered]
          exact congrArg Except.ok unchanged.symm
      | some w =>
          simp only [lowered,Option.toList_some,Option.isSome_some,Bool.or_true]
          rfl

theorem lowerLines_standard (acc : List Word × Bool) (lines : List (List Byte)) :
    lines.foldlM (lowerLine .standard) acc =
      .ok (acc.1 ++ lines.flatMap fun line => (lineWord line).toList,
        acc.2 || !(lines.flatMap fun line => (lineWord line).toList).isEmpty) := by
  induction lines generalizing acc with
  | nil =>
      change Except.ok acc = _
      simp
  | cons line lines ih =>
      rw [List.foldlM_cons,lowerLine_standard]
      change lines.foldlM (lowerLine .standard) _ = _
      rw [ih]
      cases word : lineWord line <;> simp [word]

theorem cpp_oneLine (line : CppLine) : (0x0A : Byte) ∉ line.text := by
  cases line with
  | plain text oneLine unannotated => exact oneLine
  | annotated code op padding oneLine uncommented padded =>
      simp only [CppLine.text,List.mem_append,not_or]
      refine ⟨oneLine,by decide,?_,?_⟩
      · intro member
        exact absurd (annotation_inLine op _ member) (by decide)
      · intro member
        exact (padded _ member).2 rfl

theorem source_words (lines : List CppLine) :
    ((getLines (cppSource lines)).flatMap fun line => (lineWord line).toList) =
      (annotations lines).map AnnotatedOp.emitted := by
  have oneLine : ∀ line ∈ lines.map CppLine.text, (0x0A : Byte) ∉ line := by
    intro line member
    obtain ⟨whole,_,rfl⟩ := List.mem_map.mp member
    exact cpp_oneLine whole
  rw [cppSource,getLines_flatMap _ rfl oneLine,List.flatMap_map,annotations,List.map_filterMap,
    List.filterMap_eq_flatMap_toList]
  simp only [lineWord_text]

theorem emitted_opcode (a : AnnotatedOp) : (⟨a.emitted⟩ : Instruction).opcode ≠ some .halt := by
  cases a <;> simp [AnnotatedOp.emitted,Enc.vecAdd,Enc.matmulTile,Enc.dmaLoad,Enc.dmaStore]

theorem haltTerminated_emitted (as : List AnnotatedOp) :
    haltTerminated (as.map AnnotatedOp.emitted) = as.map AnnotatedOp.emitted ++ [Enc.halt] := by
  unfold haltTerminated
  rw [List.getLast?_map]
  cases as.getLast? with
  | none => rfl
  | some a => exact if_neg fun shifted => emitted_opcode a (shifted_opcode shifted)

theorem vector_field : ∀ x y : Fin 8, (BitVec.ofNat 8 y).truncate 5 = (BitVec.ofNat 8 x).truncate 5 ↔ x = y := by decide

theorem scalar_field : ∀ x y : Fin 16, (BitVec.ofNat 8 y).truncate 5 = (BitVec.ofNat 8 x).truncate 5 ↔ x = y := by
  decide +kernel

theorem tile_field (n : BitVec 8) : ((4 : BitVec 8).zeroExtend 16).truncate 11 = (n.zeroExtend 16).truncate 11 ↔ n = 4 := by
  rw [←BitVec.toNat_inj,←BitVec.toNat_inj]
  have small := n.isLt
  have four : (4 : BitVec 8).toNat = 4 := rfl
  simp only [BitVec.truncate_eq_setWidth,BitVec.toNat_setWidth,four]
  omega

theorem length_field (n : BitVec 16) : (64 : BitVec 16).truncate 11 = n.truncate 11 ↔ n.toNat % 2048 = 64 := by
  rw [←BitVec.toNat_inj]
  have fixed : (64 : BitVec 16).toNat = 64 := rfl
  simp only [BitVec.truncate_eq_setWidth,BitVec.toNat_setWidth,fixed]
  omega

theorem emitted_iff (a : AnnotatedOp) : a.emitted = a.word ↔ a.Fixed := by
  cases a with
  | vecAdd d a b =>
      refine Enc.rtype_eq_iff.trans ?_
      exact and_congr (vector_field d 2) (and_congr (vector_field a 0) ((and_iff_left rfl).trans (vector_field b 1)))
  | matmulTile d a b n =>
      refine Enc.rtype_eq_iff.trans ?_
      exact and_congr (vector_field d 3) (and_congr (vector_field a 0) (and_congr (vector_field b 1) (tile_field n)))
  | dmaLoad d a n =>
      refine Enc.rtype_eq_iff.trans ?_
      exact and_congr (scalar_field d 5) (and_congr (scalar_field a 7) ((and_iff_right rfl).trans (length_field n)))
  | dmaStore d a n =>
      refine Enc.rtype_eq_iff.trans ?_
      exact and_congr (scalar_field d 9) (and_congr (scalar_field a 5) ((and_iff_right rfl).trans (length_field n)))

theorem loadCpp_folded {lib : Library} {src : List Byte} {program : List Word} {found : Bool} (name : String)
    (folded : (getLines src).foldlM (lowerLine lib) ([],false) = .ok (program,found)) :
    ∃ r, loadCpp lib src name = .ok r ∧ (found = true → r.program = haltTerminated program) ∧
      (found = false → r.program ∈ [kernelProgram,demoProgram]) := by
  unfold loadCpp
  rw [folded]
  dsimp only [bind,Except.bind]
  cases found with
  | true =>
      rw [if_neg (by simp),if_pos rfl]
      exact ⟨_,rfl,fun _ => rfl,fun absent => by cases absent⟩
  | false =>
      split
      · exact ⟨_,rfl,fun absent => (by cases absent),fun _ => List.mem_cons_self⟩
      · exact ⟨_,rfl,fun absent => (by cases absent),fun _ => List.mem_cons_of_mem _ List.mem_cons_self⟩

theorem annotations_lowered_iff (lines : List CppLine) (name : String) :
    ∃ r, loadCpp .standard (cppSource lines) name = .ok r ∧
      (r.program = (annotations lines).map AnnotatedOp.word ++ [Enc.halt] ↔
        annotations lines ≠ [] ∧ ∀ a ∈ annotations lines, a.Fixed) := by
  have folded := lowerLines_standard ([],false) (getLines (cppSource lines))
  rw [source_words,List.nil_append,Bool.false_or] at folded
  obtain ⟨r,returned,annotated,otherwise⟩ := loadCpp_folded name folded
  refine ⟨r,returned,?_⟩
  by_cases none : annotations lines = []
  · have fixed := otherwise (by rw [none]; rfl)
    rw [none]
    constructor
    · intro halts
      rw [halts] at fixed
      exact absurd fixed (by decide)
    · rintro ⟨some,_⟩
      exact absurd rfl some
  · have program := annotated (by simpa using none)
    rw [haltTerminated_emitted] at program
    rw [program,List.append_left_inj,List.map_inj_left]
    simp only [emitted_iff]
    exact (and_iff_right none).symm

def vecAddLine : CppLine :=
  .annotated [] (.vecAdd 1 2 3) [] List.not_mem_nil (by decide) .nil

-- One line, `// novium: vec_add v1, v2, v3`: the registers of the program are others.
theorem operands_ignored : cppSource [vecAddLine] = ascii "// novium: vec_add v1, v2, v3" ∧
    (loadCpp .standard (cppSource [vecAddLine]) "k.cpp").toOption.map LoadResult.program =
      some [Enc.vecAdd 2 0 1,Enc.halt] ∧
    [Enc.vecAdd 2 0 1,Enc.halt] ≠ (annotations [vecAddLine]).map AnnotatedOp.word ++ [Enc.halt] := by
  decide +kernel

end Frontend
end Novium
