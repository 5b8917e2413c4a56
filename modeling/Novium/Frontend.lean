import Novium.Encoding
import Novium.Handlers
import Novium.Decoder
import Novium.Text

namespace Novium
open Storage

inductive SourceKind where
  | unknown | cpp | systemVerilog | chisel | guestAsm
  deriving DecidableEq, Repr

structure LoadResult where
  program : List Word := []
  target : TargetProfile := makeAsicProfile
  diag : String := ""
  kind : SourceKind := .unknown
  ok : Bool := false

-- The exceptions that leave the loaders: of the searches, and of stoi.
inductive LoadFault where
  | regexError | invalidArgument | outOfRange
  deriving DecidableEq, Repr

inductive Pattern where
  | novium
  | svTile | svLanes | svBw | svModule
  | chiselClass | chiselTile | chiselLanes
  deriving DecidableEq, Repr

-- The run-time library below the loaders: what the group that is read of each search
-- holds, and what %d stores for a number no int holds, which C leaves open.
structure Library where
  search : Pattern → List Byte → Except LoadFault (Option (List Byte))
  overflow : Int → Word

namespace Frontend
open TranslationEngine Text

def isInt (n : Int) : Prop := -2^31 ≤ n ∧ n < 2^31

instance (n : Int) : Decidable (isInt n) := inferInstanceAs (Decidable (_ ∧ _))

def stoi (s : List Byte) : Except LoadFault Word :=
  match readInt s with
  | none => .error .invalidArgument
  | some (n,_) => if isInt n then .ok (BitVec.ofInt 32 n) else .error .outOfRange

-- The line is passed as a C string, so a null byte ends it.
def sscanf (lib : Library) (line : List Byte) (format : String) : List Word :=
  (scan (directives (ascii format)) (line.takeWhile (· ≠ 0))).map fun n =>
    if isInt n then BitVec.ofInt 32 n else lib.overflow n

def latin1 (s : List Byte) : String := String.ofList (s.map fun b => Char.ofNat b.toNat)

def haltTerminated (program : List Word) : List Word :=
  match program.getLast? with
  | some w => if w >>> 26 = Opcode.halt.bits.zeroExtend 32 then program else program ++ [Enc.halt]
  | none => program ++ [Enc.halt]

def annotationWord (low : List Byte) : Option Word :=
  if occurs (ascii "vec_add") low then some (Enc.vecAdd 2 0 1)
  else if occurs (ascii "matmul") low then some (Enc.matmulTile 3 0 1 4)
  else if occurs (ascii "dma_load") low then some (Enc.dmaLoad 5 7 64)
  else if occurs (ascii "dma_store") low then some (Enc.dmaStore 9 5 64)
  else if occurs (ascii "halt") low then some Enc.halt
  else none

def lowerLine (lib : Library) (acc : List Word × Bool) (line : List Byte) : Except LoadFault (List Word × Bool) := do
  match ← lib.search .novium line with
  | none => return acc
  | some cmd =>
    match annotationWord (cmd.map toLower) with
    | none => return acc
    | some w => return (acc.1 ++ [w],true)

def kernelProgram : List Word :=
  [Enc.loadVr 0 5 0,Enc.loadVr 1 6 0,Enc.vecAdd 2 0 1,Enc.matmulTile 3 0 1 4,Enc.storeVr 3 5 0,Enc.halt]

def demoProgram : List Word :=
  [Enc.movi 1 0,Enc.movi 2 5,Enc.movi 4 1,Enc.movi 3 0,
    Enc.add 1 1 4,Enc.add 3 3 1,Enc.bne 1 2 (-12),
    Enc.movi 5 0x1000,Enc.movi 6 0x1040,Enc.movi 7 0,Enc.movi 8 64,
    Enc.dmaLoad 5 7 64,Enc.dmaLoad 6 8 64,
    Enc.loadVr 0 5 0,Enc.loadVr 1 6 0,Enc.vecAdd 2 0 1,Enc.matmulTile 3 0 1 4,Enc.storeVr 3 5 0,
    Enc.halt]

def instrs (program : List Word) : String := " (" ++ toString program.length ++ " instrs)"

def loadCpp (lib : Library) (src : List Byte) (name : String) : Except LoadFault LoadResult := do
  let (program,found) ← (getLines src).foldlM (lowerLine lib) ([],false)
  let r : LoadResult := {target := {makeCpuProfile with name := "cpp->cpu"},kind := .cpp,ok := true}
  if (occurs (ascii "novium::kernel") src || occurs (ascii "novium kernel") src) && !found then
    return {r with program := kernelProgram,diag := name ++ ": C++ kernel pragma → vec_add+matmul lowered"}
  else if found then
    let program := haltTerminated program
    return {r with program := program,diag := name ++ ": C++ novium: annotations lowered" ++ instrs program}
  else
    return {r with program := demoProgram,diag := name ++ ": C++ (no novium: annotations) → demo program emitted"}

-- TILE is read for the diagnostic only; a number too large for an int is thrown all the same.
def svTarget (lib : Library) (src : List Byte) : Except LoadFault (TargetProfile × String) := do
  let mut target := {makeAsicProfile with name := "sv->asic"}
  let mut diag := ""
  if let some tile ← lib.search .svTile src then
    let _ ← stoi tile
    diag := diag ++ " TILE=" ++ latin1 tile
  if let some lanes ← lib.search .svLanes src then
    target := {target with vectorLanes := ← stoi lanes}
    diag := diag ++ " LANES=" ++ latin1 lanes
  if let some bw ← lib.search .svBw src then
    target := {target with dmaBandwidth := ← stoi bw}
    diag := diag ++ " BW=" ++ latin1 bw
  if let some mod ← lib.search .svModule src then
    target := {target with name := "sv:" ++ latin1 mod}
  return (target,diag)

def svProgram : List Word :=
  [Enc.movi 5 0x1000,Enc.movi 7 0,Enc.dmaLoad 5 7 64,
    Enc.loadVr 0 5 0,Enc.loadVr 1 5 0,Enc.vecAdd 2 0 1,
    Enc.matmulTile 3 0 1 4,Enc.storeVr 3 5 0,Enc.halt]

-- The annotations of the C++ loader, or the default when they come to HALT alone.
def cppLikeOr (cppLike default : List Word) : List Word :=
  if !cppLike.isEmpty && 1 < cppLike.length then cppLike else default

def loadSystemverilog (lib : Library) (src : List Byte) (name : String) : Except LoadFault LoadResult := do
  let (target,diag) ← svTarget lib src
  let cppLike ← loadCpp lib src name
  let program := cppLikeOr cppLike.program svProgram
  return {
    program := program
    target := target
    diag := name ++ ": SystemVerilog → " ++ target.name ++ diag ++ instrs program
    kind := .systemVerilog
    ok := true}

def chiselTarget (lib : Library) (src : List Byte) : Except LoadFault (TargetProfile × String) := do
  let mut target := {makeAsicProfile with name := "chisel->asic"}
  let mut diag := ""
  if let some cls ← lib.search .chiselClass src then
    target := {target with name := "chisel:" ++ latin1 cls}
  if let some tile ← lib.search .chiselTile src then
    diag := diag ++ " tile=" ++ latin1 tile
  if let some lanes ← lib.search .chiselLanes src then
    target := {target with vectorLanes := ← stoi lanes}
    diag := diag ++ " lanes=" ++ latin1 lanes
  return (target,diag)

def chiselProgram : List Word := [Enc.loadVr 0 5 0,Enc.loadVr 1 6 0,Enc.matmulTile 3 0 1 4,Enc.halt]

def loadChisel (lib : Library) (src : List Byte) (name : String) : Except LoadFault LoadResult := do
  let (target,diag) ← chiselTarget lib src
  let cppLike ← loadCpp lib src name
  let program := cppLikeOr cppLike.program chiselProgram
  return {
    program := program
    target := target
    diag := name ++ ": Chisel → " ++ target.name ++ diag ++ instrs program
    kind := .chisel
    ok := true}

-- Comments are cut before the operands are read, at a '#' too.
def asmLine (line : List Byte) : List Byte := trim ((stripComment line).takeWhile (· ≠ 0x23))

def asmWord (lib : Library) (line : List Byte) : Option Word :=
  let low := line.map toLower
  let starts := fun s => (ascii s).isPrefixOf low
  if starts "halt" then some Enc.halt
  else if starts "nop" then some Enc.nop
  else if starts "movi" then
    match sscanf lib line "movi r%d , #%d",sscanf lib line "movi r%d, #%d" with
    | [rd,imm],_ => some (Enc.movi (rd.truncate 8) (imm.truncate 16))
    | _,[rd,imm] => some (Enc.movi (rd.truncate 8) (imm.truncate 16))
    | _,_ => none
  else if starts "vec_add" then
    match sscanf lib line "vec_add v%d , v%d , v%d" with
    | [d,a,b] => some (Enc.vecAdd (d.truncate 8) (a.truncate 8) (b.truncate 8))
    | _ => none
  else if starts "matmul" then some (Enc.matmulTile 3 0 1 4)
  else none

def asmProgram (lib : Library) (src : List Byte) : List Word :=
  ((getLines src).map asmLine).foldl
    (fun program line => if line.isEmpty then program else program ++ (asmWord lib line).toList) []

def loadGuestAsm (lib : Library) (src : List Byte) (name : String) : LoadResult :=
  let program := haltTerminated (asmProgram lib src)
  {program := program,diag := name ++ ": guest asm" ++ instrs program,kind := .guestAsm,ok := true}

def loadString (lib : Library) (src : List Byte) (kind : SourceKind) (name : String) : Except LoadFault LoadResult :=
  match kind with
  | .cpp => loadCpp lib src name
  | .systemVerilog => loadSystemverilog lib src name
  | .chisel => loadChisel lib src name
  | .guestAsm => .ok (loadGuestAsm lib src name)
  | .unknown => .ok {diag := name ++ ": unknown extension, expected .cpp/.sv/.scala/.asm"}

end Frontend

namespace Pattern
open TranslationEngine Text

def lit (s : String) : Regex := (ascii s).foldr (fun c => .seq (.one (· == c))) .empty
-- The literal under the icase flag.
def litIcase (s : String) : Regex := (ascii s).foldr (fun c => .seq (.one (toLower · == toLower c))) .empty

def joined (parts : List Regex) : Regex := parts.foldr .seq .empty

def spaces : Regex := .star isSpace
def someSpaces : Regex := .plus isSpace
def digits : Regex := .group (.plus isDigit)
def identifier : Regex := .group (.plus isWord)

def svParameter (s : String) : Regex :=
  joined [litIcase "parameter",someSpaces,litIcase s,spaces,litIcase "=",spaces,digits]

def chiselParameter (s t : String) : Regex := joined [.group (.alt (lit s) (lit t)),spaces,lit "=",spaces,digits]

def regex : Pattern → Regex
  | novium => joined [litIcase "//",spaces,litIcase "novium:",spaces,.group (.plus fun b => b != 0x0A && b != 0x0D)]
  | svTile => svParameter "TILE"
  | svLanes => svParameter "LANES"
  | svBw => svParameter "BW"
  | svModule => joined [lit "module",someSpaces,identifier]
  | chiselClass => joined [lit "class",someSpaces,identifier,someSpaces,lit "extends",someSpaces,lit "Module"]
  | chiselTile => chiselParameter "tileSize" "TILE"
  | chiselLanes => chiselParameter "lanes" "LANES"

-- Which group of the match the loader reads, from zero.
def wanted : Pattern → Nat
  | chiselTile | chiselLanes => 1
  | _ => 0

end Pattern

-- The searches as ECMAScript defines them; %d goes through a long that saturates.
def Library.standard : Library where
  search p s := .ok ((p.regex.search s).bind fun groups => groups[p.wanted]?)
  overflow n := BitVec.ofInt 32 (max (-2^63) (min n (2^63-1)))

namespace Frontend
open TranslationEngine Text

def Handled (w : Word) : Prop := ∃ op, (⟨w⟩ : Instruction).opcode = some op

structure EndsInHalt (program : List Word) : Prop where
  last : ∃ w, program.getLast? = some w ∧ (⟨w⟩ : Instruction).opcode = some .halt
  handled : ∀ w ∈ program, Handled w

theorem halt_opcode : (⟨Enc.halt⟩ : Instruction).opcode = some .halt := Enc.make_opcode .halt

theorem appended_handled {program : List Word} {w : Word} (handled : ∀ v ∈ program, Handled v) (new : Handled w) :
    ∀ v ∈ program ++ [w], Handled v := by
  intro v member
  rcases List.mem_append.mp member with old | last
  · exact handled v old
  · rw [List.mem_singleton.mp last]
    exact new

theorem halt_appended {program : List Word} (handled : ∀ w ∈ program, Handled w) : EndsInHalt (program ++ [Enc.halt]) :=
  ⟨⟨Enc.halt,by simp,halt_opcode⟩,appended_handled handled ⟨.halt,halt_opcode⟩⟩

theorem shifted_opcode {w : Word} {op : Opcode} (shifted : w >>> 26 = op.bits.zeroExtend 32) :
    (⟨w⟩ : Instruction).opcode = some op := by
  apply Enc.opcode_placed
  have field : (w >>> 26).truncate 6 = op.bits := by
    rw [shifted]
    simp
  rw [←field]
  unfold Instruction.opcodeBits
  ext k inside
  simp

theorem haltTerminated_ends {program : List Word} (handled : ∀ w ∈ program, Handled w) :
    EndsInHalt (haltTerminated program) := by
  unfold haltTerminated
  cases last : program.getLast? with
  | none => exact halt_appended handled
  | some w =>
      dsimp only
      split
      · rename_i shifted
        exact ⟨⟨w,last,shifted_opcode shifted⟩,handled⟩
      · exact halt_appended handled

section Handled
variable (op : Opcode) (rd ra rb : BitVec 8) (func imm : BitVec 16)

@[simp] theorem handled_rtype : Handled (Enc.rtype op rd ra rb func) := ⟨op,Enc.rtype_opcode ..⟩
@[simp] theorem handled_itype : Handled (Enc.itype op rd ra imm) := ⟨op,Enc.itype_opcode ..⟩
@[simp] theorem handled_btype : Handled (Enc.btype op rd ra imm) := ⟨op,Enc.btype_opcode ..⟩
@[simp] theorem handled_make : Handled (Enc.make op) := ⟨op,Enc.make_opcode op⟩

end Handled

theorem fixed_ends {program : List Word} (fixed : program ∈ [kernelProgram,demoProgram,svProgram,chiselProgram]) :
    EndsInHalt program := by
  have last : program.getLast? = some Enc.halt := by
    simp only [List.mem_cons,List.not_mem_nil,or_false] at fixed
    rcases fixed with rfl | rfl | rfl | rfl <;> rfl
  have handled : ∀ w ∈ program, Handled w := by
    simp only [List.mem_cons,List.not_mem_nil,or_false] at fixed
    rcases fixed with rfl | rfl | rfl | rfl <;>
      simp [kernelProgram,demoProgram,svProgram,chiselProgram,Enc.movi,Enc.add,Enc.bne,Enc.dmaLoad,Enc.loadVr,
        Enc.vecAdd,Enc.matmulTile,Enc.storeVr,Enc.halt]
  exact ⟨⟨Enc.halt,last,halt_opcode⟩,handled⟩

theorem annotationWord_handled {low : List Byte} {w : Word} (lowered : annotationWord low = some w) : Handled w := by
  unfold annotationWord at lowered
  split at lowered
  · cases lowered
    exact handled_rtype ..
  · split at lowered
    · cases lowered
      exact handled_rtype ..
    · split at lowered
      · cases lowered
        exact handled_rtype ..
      · split at lowered
        · cases lowered
          exact handled_rtype ..
        · split at lowered
          · cases lowered
            exact handled_make .halt
          · cases lowered

theorem asmWord_handled {lib : Library} {line : List Byte} {w : Word} (lowered : asmWord lib line = some w) :
    Handled w := by
  unfold asmWord at lowered
  dsimp only at lowered
  split at lowered
  · cases lowered
    exact handled_make .halt
  · split at lowered
    · cases lowered
      exact handled_make .nop
    · split at lowered
      · split at lowered
        · cases lowered
          exact handled_itype ..
        · cases lowered
          exact handled_itype ..
        · cases lowered
      · split at lowered
        · split at lowered
          · cases lowered
            exact handled_rtype ..
          · cases lowered
        · split at lowered
          · cases lowered
            exact handled_rtype ..
          · cases lowered

theorem returned_bind {α β : Type} {x : Except LoadFault α} {f : α → Except LoadFault β} {b : β}
    (returned : x >>= f = .ok b) : ∃ a, x = .ok a ∧ f a = .ok b := by
  cases x with
  | error fault => cases returned
  | ok a => exact ⟨a,rfl,returned⟩

theorem lowerLine_handled {lib : Library} {acc next : List Word × Bool} {line : List Byte}
    (handled : ∀ w ∈ acc.1, Handled w) (returned : lowerLine lib acc line = .ok next) : ∀ w ∈ next.1, Handled w := by
  obtain ⟨found,_,rest⟩ := returned_bind returned
  cases found with
  | none =>
      cases rest
      exact handled
  | some cmd =>
      dsimp only at rest
      split at rest
      · cases rest
        exact handled
      · rename_i lowered
        cases rest
        exact appended_handled handled (annotationWord_handled lowered)

theorem lowerLines_handled {lib : Library} {lines : List (List Byte)} {acc next : List Word × Bool}
    (handled : ∀ w ∈ acc.1, Handled w) (returned : lines.foldlM (lowerLine lib) acc = .ok next) :
    ∀ w ∈ next.1, Handled w := by
  induction lines generalizing acc with
  | nil =>
      cases returned
      exact handled
  | cons line lines ih =>
      rw [List.foldlM_cons] at returned
      obtain ⟨middle,first,rest⟩ := returned_bind returned
      exact ih (lowerLine_handled handled first) rest

theorem loadCpp_ends {lib : Library} {src : List Byte} {name : String} {r : LoadResult}
    (returned : loadCpp lib src name = .ok r) : r.ok = true ∧ EndsInHalt r.program := by
  obtain ⟨⟨program,found⟩,lines,rest⟩ := returned_bind returned
  have handled : ∀ w ∈ program, Handled w := lowerLines_handled (fun _ member => by cases member) lines
  dsimp only at rest
  split at rest
  · cases rest
    exact ⟨rfl,fixed_ends (by simp)⟩
  · split at rest
    · cases rest
      exact ⟨rfl,haltTerminated_ends handled⟩
    · cases rest
      exact ⟨rfl,fixed_ends (by simp)⟩

theorem cppLikeOr_ends {cppLike default : List Word} (lowered : EndsInHalt cppLike) (otherwise : EndsInHalt default) :
    EndsInHalt (cppLikeOr cppLike default) := by
  unfold cppLikeOr
  split
  · exact lowered
  · exact otherwise

theorem loadSystemverilog_ends {lib : Library} {src : List Byte} {name : String} {r : LoadResult}
    (returned : loadSystemverilog lib src name = .ok r) : r.ok = true ∧ EndsInHalt r.program := by
  obtain ⟨target,_,lowering⟩ := returned_bind returned
  obtain ⟨cppLike,lowered,rest⟩ := returned_bind lowering
  cases rest
  exact ⟨rfl,cppLikeOr_ends (loadCpp_ends lowered).2 (fixed_ends (by simp))⟩

theorem loadChisel_ends {lib : Library} {src : List Byte} {name : String} {r : LoadResult}
    (returned : loadChisel lib src name = .ok r) : r.ok = true ∧ EndsInHalt r.program := by
  obtain ⟨target,_,lowering⟩ := returned_bind returned
  obtain ⟨cppLike,lowered,rest⟩ := returned_bind lowering
  cases rest
  exact ⟨rfl,cppLikeOr_ends (loadCpp_ends lowered).2 (fixed_ends (by simp))⟩

theorem asmProgram_flatMap (lib : Library) (src : List Byte) :
    asmProgram lib src = (getLines src).flatMap fun line =>
      if (asmLine line).isEmpty then [] else (asmWord lib (asmLine line)).toList := by
  have step (program : List Word) (lines : List (List Byte)) :
      lines.foldl (fun program line => if line.isEmpty then program else program ++ (asmWord lib line).toList) program =
        program ++ lines.flatMap fun line => if line.isEmpty then [] else (asmWord lib line).toList := by
    induction lines generalizing program with
    | nil => exact (List.append_nil program).symm
    | cons line lines ih =>
        rw [List.foldl_cons,ih,List.flatMap_cons,←List.append_assoc]
        congr 1
        split
        · exact (List.append_nil program).symm
        · rfl
  unfold asmProgram
  rw [step,List.nil_append,List.flatMap_map]

theorem asmProgram_handled (lib : Library) (src : List Byte) : ∀ w ∈ asmProgram lib src, Handled w := by
  intro w member
  rw [asmProgram_flatMap] at member
  obtain ⟨line,_,listed⟩ := List.mem_flatMap.mp member
  split at listed
  · cases listed
  · exact asmWord_handled (Option.mem_toList.mp listed)

theorem loadGuestAsm_ends (lib : Library) (src : List Byte) (name : String) :
    (loadGuestAsm lib src name).ok = true ∧ EndsInHalt (loadGuestAsm lib src name).program :=
  ⟨rfl,haltTerminated_ends (asmProgram_handled lib src)⟩

theorem frontend_programs_halt (lib : Library) (src : List Byte) (kind : SourceKind) (name : String) (r : LoadResult)
    (known : kind ≠ .unknown) (returned : loadString lib src kind name = .ok r) :
    r.ok = true ∧ r.program ≠ [] ∧ (∃ w, r.program.getLast? = some w ∧ (⟨w⟩ : Instruction).opcode = some .halt) ∧
      ∀ w ∈ r.program, ∃ op, (⟨w⟩ : Instruction).opcode = some op := by
  have ends : r.ok = true ∧ EndsInHalt r.program := by
    cases kind with
    | unknown => exact absurd rfl known
    | cpp => exact loadCpp_ends returned
    | systemVerilog => exact loadSystemverilog_ends returned
    | chisel => exact loadChisel_ends returned
    | guestAsm =>
        cases returned
        exact loadGuestAsm_ends lib src name
  obtain ⟨ok,⟨w,last,halts⟩,handled⟩ := ends
  refine ⟨ok,?_,⟨w,last,halts⟩,handled⟩
  intro none
  rw [none] at last
  cases last

-- A module with a parameter and one annotation, under the searches of the standard.
theorem frontend_programs_halt_module :
    ∃ r, loadString .standard (ascii "module mac #(parameter LANES=8);\n// novium: VEC_ADD v2, v0, v1\n") .systemVerilog
        "mac.sv" = .ok r ∧
      r.ok = true ∧ r.program ≠ [] ∧ (∃ w, r.program.getLast? = some w ∧ (⟨w⟩ : Instruction).opcode = some .halt) ∧
      ∀ w ∈ r.program, ∃ op, (⟨w⟩ : Instruction).opcode = some op := by
  have returns : (loadString .standard (ascii "module mac #(parameter LANES=8);\n// novium: VEC_ADD v2, v0, v1\n")
      .systemVerilog "mac.sv").isOk = true := by decide +kernel
  cases returned : loadString .standard (ascii "module mac #(parameter LANES=8);\n// novium: VEC_ADD v2, v0, v1\n")
      .systemVerilog "mac.sv" with
  | error fault =>
      rw [returned] at returns
      cases returns
  | ok r => exact ⟨r,rfl,frontend_programs_halt _ _ _ _ r (by decide) returned⟩

end Frontend

end Novium
