import Novium.Frontend
import Novium.SourceText

namespace Novium
open Storage TranslationEngine Text

-- The instructions of the guest assembly that carry their operands.
inductive AsmInstr where
  | halt
  | nop
  | movi (rd : Fin 16) (imm : BitVec 16)
  | vecAdd (d a b : Fin 8)
  deriving DecidableEq, Repr

namespace AsmInstr

def word : AsmInstr → Word
  | halt => Enc.halt
  | nop => Enc.nop
  | movi rd imm => Enc.movi (BitVec.ofNat 8 rd) imm
  | vecAdd d a b => Enc.vecAdd (BitVec.ofNat 8 d) (BitVec.ofNat 8 a) (BitVec.ofNat 8 b)

def op : AsmInstr → Opcode
  | halt => .halt
  | nop => .nop
  | movi _ _ => .movi
  | vecAdd _ _ _ => .vecAdd

def text : AsmInstr → List Byte
  | halt => ascii "halt"
  | nop => ascii "nop"
  | movi rd imm => ascii "movi r" ++ shown rd ++ ascii ", #" ++ shown imm.toNat
  | vecAdd d a b => ascii "vec_add v" ++ shown d ++ ascii " , v" ++ shown a ++ ascii " , v" ++ shown b

def isMovi : AsmInstr → Bool
  | movi _ _ => true
  | _ => false

-- What the loader has of the line when it reads the operands: the immediate went with
-- its '#'.
def kept : AsmInstr → List Byte
  | movi rd _ => ascii "movi r" ++ shown rd ++ ascii ","
  | i => i.text

end AsmInstr

-- A line of a listing: at most one instruction, blanks around it, and a comment.
structure AsmLine where
  indent : List Byte := []
  instr : Option AsmInstr := none
  padding : List Byte := []
  comment : Option (List Byte) := none
  indented : Blanks indent
  padded : Blanks padding
  oneLine : ∀ c ∈ comment, (0x0A : Byte) ∉ c

namespace AsmLine

def text (line : AsmLine) : List Byte :=
  line.indent ++ line.instr.elim [] AsmInstr.text ++ line.padding ++
    line.comment.elim [] fun c => 0x2F :: 0x2F :: c

end AsmLine

-- The lines with newlines between them; a last line without text ends the source in one.
def listing (lines : List AsmLine) : List Byte := [0x0A].intercalate (lines.map AsmLine.text)

def instructions (lines : List AsmLine) : List AsmInstr := lines.filterMap AsmLine.instr

def encodings (instrs : List AsmInstr) : List Word :=
  instrs.map AsmInstr.word ++ if instrs.getLast? = some .halt then [] else [Enc.halt]

namespace Frontend

theorem instr_bytes (i : AsmInstr) : (0x2F : Byte) ∉ i.text ∧ (0x0A : Byte) ∉ i.text := by
  cases i <;> simp [AsmInstr.text,ascii,not_mem_shown,isDigit]

theorem kept_starts (i : AsmInstr) : Stops isBlank i.kept := by
  intro b first
  cases i <;> cases first <;> rfl

theorem kept_ends (i : AsmInstr) : Stops isBlank i.kept.reverse := by
  cases i with
  | halt | nop => exact fun b last => by cases last; rfl
  | movi rd imm =>
      intro b last
      simp only [AsmInstr.kept,List.reverse_append] at last
      cases last
      rfl
  | vecAdd d a b =>
      have unblank : ∀ b : Byte, isDigit b = true → isBlank b = false := by decide +kernel
      simp only [AsmInstr.kept,AsmInstr.text,List.reverse_append]
      exact stops_digits _ (by simpa using shown_ne_nil b) (fun _ member => shown_digits (List.mem_reverse.mp member))
        unblank

theorem kept_marker (i : AsmInstr) : (0x23 : Byte) ∉ i.kept := by
  cases i <;> simp [AsmInstr.kept,AsmInstr.text,ascii,not_mem_shown,isDigit]

theorem unequal_of_not_mem {s : List Byte} {x : Byte} (absent : x ∉ s) : ∀ b ∈ s, decide (b ≠ x) = true :=
  fun _ member => decide_eq_true fun same => absent (same ▸ member)

-- What is left of a line without its comment, up to the blanks around it.
theorem line_cut {indent padding : List Byte} (instr : Option AsmInstr) (indented : ∀ b ∈ indent, isBlank b = true)
    (padded : ∀ b ∈ padding, isBlank b = true) :
    ∃ right, (indent ++ instr.elim [] AsmInstr.text ++ padding).takeWhile (· ≠ 0x23) =
      indent ++ instr.elim [] AsmInstr.kept ++ right ∧ ∀ b ∈ right, isBlank b = true := by
  have plain : ∀ right, (∀ b ∈ right, isBlank b = true) → (0x23 : Byte) ∉ indent ++ instr.elim [] AsmInstr.kept ++ right := by
    intro right blanks
    simp only [List.mem_append,not_or]
    refine ⟨⟨not_mem_blanks indented rfl,?_⟩,not_mem_blanks blanks rfl⟩
    cases instr with
    | none => exact List.not_mem_nil
    | some i => exact kept_marker i
  have unmarked (same : instr.elim [] AsmInstr.text = instr.elim [] AsmInstr.kept) :
      (indent ++ instr.elim [] AsmInstr.text ++ padding).takeWhile (· ≠ 0x23) =
        indent ++ instr.elim [] AsmInstr.kept ++ padding := by
    rw [same]
    exact List.takeWhile_eq_self_iff.mpr (unequal_of_not_mem (plain padding padded))
  cases instr with
  | none => exact ⟨padding,unmarked rfl,padded⟩
  | some i =>
      cases i with
      | halt | nop | vecAdd => exact ⟨padding,unmarked rfl,padded⟩
      | movi rd imm =>
          refine ⟨[0x20],?_,by decide⟩
          have split : indent ++ (AsmInstr.movi rd imm).text ++ padding =
              (indent ++ (AsmInstr.movi rd imm).kept ++ [0x20]) ++ (0x23 :: shown imm.toNat ++ padding) := by
            simp [AsmInstr.text,AsmInstr.kept,ascii]
          rw [Option.elim_some,split]
          have marked : Stops (· ≠ 0x23) (0x23 :: shown imm.toNat ++ padding) := fun b first => by cases first; rfl
          exact marked.taken (unequal_of_not_mem (plain _ (by decide)))

theorem asmLine_text (line : AsmLine) : asmLine line.text = line.instr.elim [] AsmInstr.kept := by
  obtain ⟨indent,instr,padding,comment,indented,padded,oneLine⟩ := line
  have before : ∀ b ∈ indent, isBlank b = true := fun b member => (indented b member).1
  have after : ∀ b ∈ padding, isBlank b = true := fun b member => (padded b member).1
  have uncommented : stripComment (AsmLine.mk indent instr padding comment indented padded oneLine).text =
      indent ++ instr.elim [] AsmInstr.text ++ padding := by
    have body : (0x2F : Byte) ∉ indent ++ instr.elim [] AsmInstr.text ++ padding := by
      simp only [List.mem_append,not_or]
      refine ⟨⟨not_mem_blanks before rfl,?_⟩,not_mem_blanks after rfl⟩
      cases instr with
      | none => exact List.not_mem_nil
      | some i => exact (instr_bytes i).1
    unfold AsmLine.text
    rw [stripComment_append body]
    cases comment <;> exact List.append_nil _
  obtain ⟨right,cut,blanks⟩ := line_cut instr before after
  unfold asmLine
  rw [uncommented,cut]
  apply trim_core before blanks
  · cases instr with
    | none => exact fun b first => by cases first
    | some i => exact kept_starts i
  · cases instr with
    | none => exact fun b first => by cases first
    | some i => exact kept_ends i

theorem starts_head {s : String} {head rest : List Byte} (short : (ascii s).length ≤ head.length) :
    (ascii s).isPrefixOf ((head ++ rest).map toLower) = (ascii s).isPrefixOf (head.map toLower) := by
  rw [Bool.eq_iff_iff,List.isPrefixOf_iff_prefix,List.isPrefixOf_iff_prefix,List.map_append]
  constructor
  · intro starts
    exact List.prefix_of_prefix_length_le starts (List.prefix_append _ _) (by rwa [List.length_map])
  · intro starts
    exact starts.trans (List.prefix_append _ _)

theorem unterminated {line : List Byte} (plain : (0 : Byte) ∉ line) : line.takeWhile (· ≠ 0) = line :=
  List.takeWhile_eq_self_iff.mpr (unequal_of_not_mem plain)

theorem sscanf_vecAdd (lib : Library) (d a b : Fin 8) :
    sscanf lib (AsmInstr.vecAdd d a b).kept "vec_add v%d , v%d , v%d" =
      [BitVec.ofNat 32 d,BitVec.ofNat 32 a,BitVec.ofNat 32 b] := by
  have format : directives (ascii "vec_add v%d , v%d , v%d") = directives (ascii "vec_add v") ++
      .int :: (directives (ascii " , v") ++ .int :: (directives (ascii " , v") ++ [.int])) := by decide
  have plain : (0 : Byte) ∉ (AsmInstr.vecAdd d a b).kept := by
    simp [AsmInstr.kept,AsmInstr.text,ascii,not_mem_shown,isDigit]
  have read : scan (directives (ascii "vec_add v%d , v%d , v%d")) (AsmInstr.vecAdd d a b).kept =
      [(d.val : Int),(a.val : Int),(b.val : Int)] := by
    have stops : ∀ s, Stops isDigit (ascii " , v" ++ s) := fun s c first => by cases first; rfl
    have last : Stops isDigit [] := fun c first => by cases first
    simp only [AsmInstr.kept,AsmInstr.text,List.append_assoc]
    rw [format,scan_field d _ (by decide) (stops _),scan_field a _ (by decide) (stops _),
      ←List.append_nil (shown b.val),scan_field b _ (by decide) last,scan]
  have small : ∀ r : Fin 8, isInt r.val ∧ BitVec.ofInt 32 (r.val : Int) = BitVec.ofNat 32 r := by decide
  unfold sscanf
  rw [unterminated plain,read]
  simp only [List.map_cons,List.map_nil,if_pos (small _).1,(small _).2]

theorem sscanf_movi (lib : Library) (rd : Fin 16) (imm : BitVec 16) :
    (∃ w, sscanf lib (AsmInstr.movi rd imm).kept "movi r%d , #%d" = [w]) ∧
      ∃ w, sscanf lib (AsmInstr.movi rd imm).kept "movi r%d, #%d" = [w] := by
  have plain : (0 : Byte) ∉ (AsmInstr.movi rd imm).kept := by
    simp [AsmInstr.kept,ascii,not_mem_shown,isDigit]
  have read (rest : List Directive) (comma : scan rest (ascii ",") = []) :
      scan (directives (ascii "movi r") ++ .int :: rest) (AsmInstr.movi rd imm).kept = [(rd.val : Int)] := by
    have stops : Stops isDigit (ascii ",") := fun c first => by cases first; rfl
    simp only [AsmInstr.kept,List.append_assoc]
    rw [scan_field rd _ (by decide) stops,comma]
  have spaced : directives (ascii "movi r%d , #%d") =
      directives (ascii "movi r") ++ .int :: directives (ascii " , #%d") := by decide
  have close : directives (ascii "movi r%d, #%d") =
      directives (ascii "movi r") ++ .int :: directives (ascii ", #%d") := by decide
  unfold sscanf
  rw [unterminated plain,spaced,close,read _ (by decide),read _ (by decide)]
  exact ⟨⟨_,rfl⟩,_,rfl⟩

theorem asmWord_kept (lib : Library) (i : AsmInstr) : asmWord lib i.kept = if i.isMovi then none else some i.word := by
  cases i with
  | halt | nop => rfl
  | movi rd imm =>
      have starts (s : String) (short : (ascii s).length ≤ (ascii "movi r").length) :
          (ascii s).isPrefixOf ((AsmInstr.movi rd imm).kept.map toLower) =
            (ascii s).isPrefixOf ((ascii "movi r").map toLower) := by
        simp only [AsmInstr.kept,List.append_assoc]
        exact starts_head short
      obtain ⟨⟨w,spaced⟩,v,close⟩ := sscanf_movi lib rd imm
      unfold asmWord
      dsimp only
      rw [if_neg (by rw [starts _ (by decide)]; decide),if_neg (by rw [starts _ (by decide)]; decide),
        if_pos (by rw [starts _ (by decide)]; decide),spaced,close]
      rfl
  | vecAdd d a b =>
      have starts (s : String) (short : (ascii s).length ≤ (ascii "vec_add v").length) :
          (ascii s).isPrefixOf ((AsmInstr.vecAdd d a b).kept.map toLower) =
            (ascii s).isPrefixOf ((ascii "vec_add v").map toLower) := by
        simp only [AsmInstr.kept,AsmInstr.text,List.append_assoc]
        exact starts_head short
      have narrowed : ∀ r : Fin 8, (BitVec.ofNat 32 r).truncate 8 = BitVec.ofNat 8 r := by decide
      unfold asmWord
      dsimp only
      rw [if_neg (by rw [starts _ (by decide)]; decide),if_neg (by rw [starts _ (by decide)]; decide),
        if_neg (by rw [starts _ (by decide)]; decide),if_pos (by rw [starts _ (by decide)]; decide),sscanf_vecAdd]
      simp only [narrowed]
      rfl

theorem text_oneLine (line : AsmLine) : (0x0A : Byte) ∉ line.text := by
  have blanks : ∀ {s : List Byte}, Blanks s → (0x0A : Byte) ∉ s := fun blank member => (blank _ member).2 rfl
  obtain ⟨indent,instr,padding,comment,indented,padded,oneLine⟩ := line
  simp only [AsmLine.text,List.mem_append,not_or]
  refine ⟨⟨⟨blanks indented,?_⟩,blanks padded⟩,?_⟩
  · cases instr with
    | none => exact List.not_mem_nil
    | some i => exact (instr_bytes i).2
  · cases comment with
    | none => exact List.not_mem_nil
    | some c =>
        have inside := oneLine c rfl
        simpa using inside

theorem asmProgram_listing (lib : Library) (lines : List AsmLine) :
    asmProgram lib (listing lines) = ((instructions lines).filter (!·.isMovi)).map AsmInstr.word := by
  have oneLine : ∀ line ∈ lines.map AsmLine.text, (0x0A : Byte) ∉ line := by
    intro line member
    obtain ⟨whole,_,rfl⟩ := List.mem_map.mp member
    exact text_oneLine whole
  rw [asmProgram_flatMap,listing,getLines_flatMap _ rfl oneLine,List.flatMap_map]
  induction lines with
  | nil => rfl
  | cons line lines ih =>
      have rest := ih fun line member => oneLine line (List.mem_cons_of_mem _ member)
      rw [List.flatMap_cons,rest,asmLine_text]
      unfold instructions
      cases here : line.instr with
      | none => rw [List.filterMap_cons_none here]; rfl
      | some i =>
          have present : i.kept.isEmpty = false := by cases i <;> rfl
          rw [List.filterMap_cons_some here,Option.elim_some,present,asmWord_kept]
          cases moved : i.isMovi with
          | true => simp [moved]
          | false => simp [moved]

theorem word_opcode (i : AsmInstr) : (⟨i.word⟩ : Instruction).opcode = some i.op := by
  cases i with
  | halt => exact Enc.make_opcode .halt
  | nop => exact Enc.make_opcode .nop
  | movi rd imm => exact Enc.itype_opcode ..
  | vecAdd d a b => exact Enc.rtype_opcode ..

theorem haltTerminated_words (instrs : List AsmInstr) : haltTerminated (instrs.map AsmInstr.word) = encodings instrs := by
  unfold haltTerminated encodings
  rw [List.getLast?_map]
  cases last : instrs.getLast? with
  | none => rfl
  | some i =>
      by_cases halts : i = .halt
      · subst halts
        rw [if_pos rfl,List.append_nil]
        exact if_pos (by decide)
      · rw [if_neg (by simpa using halts)]
        apply if_neg
        intro shifted
        have op := (word_opcode i).symm.trans (shifted_opcode shifted)
        cases i <;> first | exact halts rfl | cases op

theorem isMovi_iff (i : AsmInstr) : i.isMovi = true ↔ i.op = .movi := by
  cases i <;> simp [AsmInstr.isMovi,AsmInstr.op]

-- A MOVI that was dropped is missed: no other instruction has its opcode.
theorem encodings_filter {instrs : List AsmInstr} (same : encodings (instrs.filter (!·.isMovi)) = encodings instrs) :
    ∀ i ∈ instrs, i.isMovi = false := by
  intro i member
  have listed : i.word ∈ encodings instrs := List.mem_append_left _ (List.mem_map_of_mem member)
  rw [←same] at listed
  apply Bool.eq_false_iff.mpr
  intro moved
  have op := word_opcode i
  rw [(isMovi_iff i).mp moved] at op
  rcases List.mem_append.mp listed with kept | halting
  · obtain ⟨j,remains,word⟩ := List.mem_map.mp kept
    rw [←word,word_opcode] at op
    have other : j.isMovi = true := (isMovi_iff j).mpr (Option.some.inj op)
    have filtered := (List.mem_filter.mp remains).2
    rw [other] at filtered
    cases filtered
  · have word : i.word = Enc.halt := by
      split at halting
      · cases halting
      · exact List.mem_singleton.mp halting
    rw [word,halt_opcode] at op
    cases op

theorem guest_asm_round_trip_iff (lib : Library) (lines : List AsmLine) (name : String) :
    ((loadGuestAsm lib (listing lines) name).ok = true ∧
        (loadGuestAsm lib (listing lines) name).program = encodings (instructions lines)) ↔
      ∀ i ∈ instructions lines, i.isMovi = false := by
  have program : (loadGuestAsm lib (listing lines) name).program =
      encodings ((instructions lines).filter (!·.isMovi)) := by
    unfold loadGuestAsm
    rw [asmProgram_listing,haltTerminated_words]
  rw [program]
  constructor
  · rintro ⟨_,same⟩
    exact encodings_filter same
  · intro unmoved
    rw [List.filter_eq_self.mpr fun i member => by rw [unmoved i member]; rfl]
    exact ⟨rfl,rfl⟩

def moviLine : AsmLine := {
  instr := some (.movi 1 5)
  indented := .nil
  padded := .nil
  oneLine := fun _ member => absurd member (Option.not_mem_none _)}

-- One line, `movi r1, #5`: the program is HALT alone.
theorem movi_dropped : listing [moviLine] = ascii "movi r1, #5" ∧
    (loadGuestAsm .standard (listing [moviLine]) "a.asm").program = [Enc.halt] ∧
    encodings (instructions [moviLine]) = [Enc.movi 1 5,Enc.halt] ∧
    ¬((loadGuestAsm .standard (listing [moviLine]) "a.asm").ok = true ∧
      (loadGuestAsm .standard (listing [moviLine]) "a.asm").program = encodings (instructions [moviLine])) := by
  decide +kernel

end Frontend
end Novium
