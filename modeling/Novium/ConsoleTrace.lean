import Novium.Cycle
import Novium.Listings

namespace Novium
open Storage Effects Printf Text TranslationEngine

def stepHead : List Field := [.text (ascii "[0x"),.digits 16 8,.text (ascii "] 0x"),.digits 16 8,.text (ascii "  ")]
def stepCost : List Field := [.text (ascii " "),.number,.text (ascii " cy")]
def stepChange : List Field := [.text (ascii "  r"),.number,.text (ascii "=0x"),.digits 16 8]
def stepJump : List Field := [.text (ascii "  ->PC=0x"),.digits 16 8]
def stepDma : List Field := [.text (ascii "  DMA="),.number,.text (ascii "B")]
def stepFlags : List Field :=
  [.text (ascii "  [Z="),.number,.text (ascii " N="),.number,.text (ascii " V="),.number,.text (ascii "]")]

-- "%-32s"
def leftJustified (s : List Byte) : List Byte := s ++ List.replicate (32-s.length) 0x20

def flagBit (b : Bool) : Int := if b then 1 else 0

namespace StepLine

-- What goes through the buffer of `log_step`; the rest is printed piece by piece.
def buffered (line : StepLine) : List Byte :=
  print stepHead [(line.pc.toNat : Int),line.instr.raw.toNat] ++ leftJustified (disassemble line.instr) ++
    print stepCost [(line.cycles.toNat : Int)]

def changes (line : StepLine) : List Byte :=
  (line.changed.map fun c => print stepChange [(c.1.val : Int),c.2.toNat]).flatten

def tail (line : StepLine) : List Byte :=
  ((line.newPc.map fun pc => print stepJump [(pc.toNat : Int)]).getD []) ++
    (((line.dma.map fun n => print stepDma [(n.toNat : Int)]).getD []) ++
      print stepFlags [flagBit line.status.zero,flagBit line.status.negative,flagBit line.status.overflow])

-- Without the newline at its end.
def text (line : StepLine) : List Byte := snprintf 256 line.buffered ++ (line.changes ++ line.tail)

end StepLine

def Output.text : Output → List Byte
  | .uartTx payload => ascii "[UART TX] " ++ payload ++ [0x0A]
  | .logStep line => line.text ++ [0x0A]

def console (out : List Output) : List Byte := (out.map Output.text).flatten

def Output.logged : Output → Option StepLine
  | .uartTx _ => none
  | .logStep line => some line

-- A reader of the trace: it takes the lines that begin as those of `log_step` do.
def readChanges : Nat → List Byte → List (List Int) × List Byte
  | 0,s => ([],s)
  | n+1,s => match read stepChange s with
    | some (args,rest) => (args :: (readChanges n rest).1,(readChanges n rest).2)
    | none => ([],s)

def shownWord (args : List Int) (k : Nat) : Word := BitVec.ofInt 32 (args.getD k 0)
def shownFlag (args : List Int) (k : Nat) : Bool := args.getD k 0 == 1

def readStep (s : List Byte) : Option StepLine := do
  let (head,rest) ← read stepHead s
  let instr : Instruction := ⟨shownWord head 1⟩
  let (cost,rest) ← read stepCost (rest.drop (leftJustified (disassemble instr)).length)
  let changes := readChanges numGpr rest
  let jump := readPiece stepJump changes.2
  let dma := readPiece stepDma jump.2
  let (flags,_) ← read stepFlags dma.2
  return {
    pc := shownWord head 0
    instr := instr
    cycles := shownWord cost 0
    changed := changes.1.map fun args => (Fin.ofNat 16 (args.getD 0 0).toNat,shownWord args 1)
    newPc := jump.1.map fun args => shownWord args 0
    dma := dma.1.map fun args => BitVec.ofInt 11 (args.getD 0 0)
    status := ⟨shownFlag flags 0,shownFlag flags 1,shownFlag flags 2⟩}

def readTrace (text : List Byte) : Option (List StepLine) :=
  ((getLines text).filter (ascii "[0x").isPrefixOf).mapM readStep

-- What the emulator prints: at most one change for a register, and a payload that only ends in a newline.
def Output.OneLine : Output → Prop
  | .uartTx payload => (0x0A : Byte) ∉ payload.dropLast
  | .logStep line => line.changed.length ≤ numGpr

section Text

theorem shownWord_toNat (w : Word) (before after : List Int) :
    shownWord (before ++ (w.toNat : Int) :: after) before.length = w := by
  simp [shownWord,BitVec.ofInt_natCast]

theorem flagBit_shown (b : Bool) : (flagBit b == 1) = b := by
  cases b <;> rfl

theorem change_suits (k : Fin numGpr) (w : Word) : Suits stepChange [(k.val : Int),w.toNat] :=
  digits_fit w (by decide) rfl

theorem head_suits (a raw : Word) : Suits stepHead [(a.toNat : Int),raw.toNat] :=
  digits_fit a (by decide) (digits_fit raw (by decide) rfl)

theorem jump_suits (w : Word) : Suits stepJump [(w.toNat : Int)] := digits_fit w (by decide) rfl

theorem change_stops (k : Fin numGpr) (w : Word) (s : List Byte) :
    Stops isDigit (print stepChange [(k.val : Int),w.toNat] ++ s) := by
  intro b here
  cases here
  rfl

theorem readChanges_print {n : Nat} {changed : List (Fin numGpr × Word)} (few : changed.length ≤ n) {s : List Byte}
    (other : (ascii "  r").isPrefixOf s = false) (stops : Stops isDigit s) :
    readChanges n ((changed.map fun c => print stepChange [(c.1.val : Int),c.2.toNat]).flatten ++ s) =
      (changed.map fun c => [(c.1.val : Int),c.2.toNat],s) := by
  induction changed generalizing n with
  | nil =>
    cases n with
    | zero => rfl
    | succ n => simp [readChanges,stepChange,read_other other]
  | cons c changed ih =>
    obtain ⟨n,rfl⟩ := Nat.exists_eq_succ_of_ne_zero (Nat.ne_of_gt (Nat.lt_of_lt_of_le (Nat.succ_pos _) few))
    have later := ih (Nat.le_of_succ_le_succ few)
    have ends : Stops isDigit ((changed.map fun c => print stepChange [(c.1.val : Int),c.2.toNat]).flatten ++ s) := by
      cases changed with
      | nil => exact stops
      | cons d changed =>
        simp only [List.map_cons,List.flatten_cons,List.append_assoc]
        exact change_stops d.1 d.2 _
    have first := read_print (change_suits c.1 c.2) rfl ends
    simp only [List.map_cons,List.flatten_cons,List.append_assoc,readChanges,first,later]

theorem tail_other (line : StepLine) : (ascii "  r").isPrefixOf line.tail = false ∧ Stops isDigit line.tail := by
  obtain ⟨pc,instr,cycles,changed,newPc,dma,status⟩ := line
  unfold StepLine.tail
  cases newPc with
  | some pc =>
    refine ⟨rfl,fun b here => ?_⟩
    cases here
    rfl
  | none =>
    cases dma with
    | some n =>
      refine ⟨rfl,fun b here => ?_⟩
      cases here
      rfl
    | none =>
      refine ⟨rfl,fun b here => ?_⟩
      cases here
      rfl

theorem buffered_room (line : StepLine) : line.buffered.length < 256 := by
  have head := @print_length 11 stepHead [(line.pc.toNat : Int),line.instr.raw.toNat]
    fun a member => by
      simp only [List.mem_cons,List.not_mem_nil,or_false] at member
      rcases member with rfl | rfl <;> exact word_short _
  have cost := @print_length 11 stepCost [(line.cycles.toNat : Int)]
    fun a member => by
      cases List.mem_singleton.mp member
      exact word_short _
  have known := disassemble_short line.instr
  have headRoom : room 11 stepHead = 25 := by rfl
  have costRoom : room 11 stepCost = 15 := by rfl
  simp only [StepLine.buffered,leftJustified,List.length_append,List.length_replicate]
  omega

theorem flags_suit (status : StatusFlags) : Suits stepFlags [flagBit status.zero,flagBit status.negative,flagBit status.overflow] := rfl

theorem tail_read (line : StepLine) : ∃ afterJump afterDma rest,
    readPiece stepJump line.tail = (line.newPc.map fun pc => [(pc.toNat : Int)],afterJump) ∧
      readPiece stepDma afterJump = (line.dma.map fun n => [(n.toNat : Int)],afterDma) ∧
      read stepFlags afterDma = some ([flagBit line.status.zero,flagBit line.status.negative,flagBit line.status.overflow],rest) := by
  obtain ⟨pc,instr,cycles,changed,newPc,dma,status⟩ := line
  have none : Stops isDigit [] := fun b here => by cases here
  have flags := read_print (flags_suit status) rfl none
  rw [List.append_nil] at flags
  have flagsStop : Stops isDigit (print stepFlags [flagBit status.zero,flagBit status.negative,flagBit status.overflow]) := by
    intro b here
    cases here
    rfl
  have numbers : ∃ afterDma, readPiece stepDma (((dma.map fun n => print stepDma [(n.toNat : Int)]).getD []) ++
      print stepFlags [flagBit status.zero,flagBit status.negative,flagBit status.overflow]) =
        (dma.map fun n => [(n.toNat : Int)],afterDma) ∧ read stepFlags afterDma = some
          ([flagBit status.zero,flagBit status.negative,flagBit status.overflow],[]) := by
    cases dma with
    | none => exact ⟨_,readPiece_other rfl,flags⟩
    | some n =>
      have suits : Suits stepDma [(n.toNat : Int)] := rfl
      exact ⟨_,readPiece_print suits rfl flagsStop,flags⟩
  obtain ⟨afterDma,dmaRead,flagsRead⟩ := numbers
  cases newPc with
  | some pc =>
    have stops : Stops isDigit (((dma.map fun n => print stepDma [(n.toNat : Int)]).getD []) ++
        print stepFlags [flagBit status.zero,flagBit status.negative,flagBit status.overflow]) := by
      cases dma with
      | none => exact flagsStop
      | some n =>
        intro b here
        cases here
        rfl
    exact ⟨_,_,_,readPiece_print (jump_suits pc) rfl stops,dmaRead,flagsRead⟩
  | none =>
    refine ⟨_,_,_,readPiece_other ?_,dmaRead,flagsRead⟩
    cases dma <;> rfl

theorem readStep_text {line : StepLine} (few : line.changed.length ≤ numGpr) : readStep line.text = some line := by
  obtain ⟨other,stops⟩ := tail_other line
  have changes := readChanges_print few other stops
  have costSuits : Suits stepCost [(line.cycles.toNat : Int)] := rfl
  have ends : Stops isDigit (line.changes ++ line.tail) := by
    unfold StepLine.changes
    cases line.changed with
    | nil => exact stops
    | cons c changed =>
      simp only [List.map_cons,List.flatten_cons,List.append_assoc]
      exact change_stops c.1 c.2 _
  have cost := read_print costSuits rfl ends
  have costStops : Stops isDigit (leftJustified (disassemble line.instr) ++ (print stepCost [(line.cycles.toNat : Int)] ++
      (line.changes ++ line.tail))) := by
    refine stops_append (stops_append (disassemble_stops line.instr) ?_) ?_
    · intro b here
      cases List.eq_of_mem_replicate (List.mem_of_head? here)
      rfl
    · intro b here
      cases here
      rfl
  have head := read_print (head_suits line.pc line.instr.raw) rfl costStops
  have whole : line.text = print stepHead [(line.pc.toNat : Int),line.instr.raw.toNat] ++ (leftJustified (disassemble line.instr) ++
      (print stepCost [(line.cycles.toNat : Int)] ++ (line.changes ++ line.tail))) := by
    unfold StepLine.text
    rw [snprintf_fits (buffered_room line)]
    simp only [StepLine.buffered,List.append_assoc]
  obtain ⟨afterJump,afterDma,rest,jumpRead,dmaRead,flagsRead⟩ := tail_read line
  have instr : (⟨shownWord [(line.pc.toNat : Int),line.instr.raw.toNat] 1⟩ : Instruction) = line.instr :=
    congrArg Instruction.mk (shownWord_toNat line.instr.raw [(line.pc.toNat : Int)] [])
  unfold readStep
  rw [whole,head]
  simp only [Option.bind_eq_bind,Option.bind_some,instr,List.drop_left,cost]
  unfold StepLine.changes
  rw [changes]
  simp only [jumpRead,dmaRead,flagsRead,Option.bind_some]
  have pc : shownWord [(line.pc.toNat : Int),line.instr.raw.toNat] 0 = line.pc := shownWord_toNat line.pc [] _
  have cycles : shownWord [(line.cycles.toNat : Int)] 0 = line.cycles := shownWord_toNat line.cycles [] []
  have changed : (line.changed.map fun c => [(c.1.val : Int),c.2.toNat]).map (fun args =>
      ((Fin.ofNat 16 (args.getD 0 0).toNat,shownWord args 1) : Fin numGpr × Word)) = line.changed := by
    rw [List.map_map]
    conv_rhs => rw [← List.map_id line.changed]
    apply List.map_congr_left
    intro c _
    exact Prod.ext (Fin.ext (Nat.mod_eq_of_lt c.1.isLt)) (shownWord_toNat c.2 [(c.1.val : Int)] [])
  have jump : (line.newPc.map fun pc => [(pc.toNat : Int)]).map (fun args => shownWord args 0) = line.newPc := by
    cases line.newPc with
    | none => rfl
    | some pc => exact congrArg some (shownWord_toNat pc [] [])
  have dma : (line.dma.map fun n => [(n.toNat : Int)]).map (fun args => BitVec.ofInt 11 (args.getD 0 0)) = line.dma := by
    cases line.dma with
    | none => rfl
    | some n => simp [BitVec.ofInt_natCast]
  rw [pc,cycles,changed,jump,dma]
  simp only [shownFlag,List.getD_cons_zero,List.getD_cons_succ,flagBit_shown]
  rfl

def Output.lines : Output → List (List Byte)
  | .uartTx payload => if payload.getLast? = some 0x0A then [ascii "[UART TX] " ++ payload.dropLast,[]] else [ascii "[UART TX] " ++ payload]
  | .logStep line => [line.text]

theorem dropLast_newline {payload : List Byte} (ended : payload.getLast? = some 0x0A) : payload = payload.dropLast ++ [0x0A] := by
  obtain ⟨front,rfl⟩ := List.getLast?_eq_some_iff.mp ended
  simp

theorem text_lines (o : Output) : o.text = (o.lines.map (· ++ [0x0A])).flatten := by
  cases o with
  | logStep line => simp [Output.text,Output.lines]
  | uartTx payload =>
    by_cases ended : payload.getLast? = some 0x0A
    · simp only [Output.text,Output.lines,if_pos ended]
      conv_lhs => rw [dropLast_newline ended]
      simp
    · simp only [Output.text,Output.lines,if_neg ended]
      simp

theorem piece_oneLine {piece : List Field} {args : List Int} (suits : Suits piece args) (avoided : avoids 0x0A piece = true) :
    (0x0A : Byte) ∉ print piece args := not_mem_print suits avoided (by decide) (by decide) newline_plain

theorem text_oneLine (line : StepLine) : (0x0A : Byte) ∉ line.text := by
  have head := piece_oneLine (head_suits line.pc line.instr.raw) (by decide)
  have shown : (0x0A : Byte) ∉ leftJustified (disassemble line.instr) := by
    simp only [leftJustified,List.mem_append,not_or]
    refine ⟨disassemble_oneLine line.instr,?_⟩
    intro member
    cases List.eq_of_mem_replicate member
  have cost : (0x0A : Byte) ∉ print stepCost [(line.cycles.toNat : Int)] := piece_oneLine rfl (by decide)
  have changes : (0x0A : Byte) ∉ line.changes := by
    intro member
    obtain ⟨piece,listed,inside⟩ := List.mem_flatten.mp member
    obtain ⟨c,_,rfl⟩ := List.mem_map.mp listed
    exact piece_oneLine (change_suits c.1 c.2) (by decide) inside
  have jump : (0x0A : Byte) ∉ (line.newPc.map fun pc => print stepJump [(pc.toNat : Int)]).getD [] := by
    cases line.newPc with
    | none => exact List.not_mem_nil
    | some pc => exact piece_oneLine (jump_suits pc) (by decide)
  have dma : (0x0A : Byte) ∉ (line.dma.map fun n => print stepDma [(n.toNat : Int)]).getD [] := by
    cases line.dma with
    | none => exact List.not_mem_nil
    | some n =>
      have suits : Suits stepDma [(n.toNat : Int)] := rfl
      exact piece_oneLine suits (by decide)
  have flags := piece_oneLine (flags_suit line.status) (by decide)
  unfold StepLine.text
  rw [snprintf_fits (buffered_room line)]
  simp only [StepLine.buffered,StepLine.tail,List.mem_append,not_or]
  exact ⟨⟨⟨head,shown⟩,cost⟩,changes,jump,dma,flags⟩

theorem lines_oneLine {o : Output} (oneLine : o.OneLine) : ∀ line ∈ o.lines, (0x0A : Byte) ∉ line := by
  cases o with
  | logStep line =>
    intro shown member
    cases List.mem_singleton.mp member
    exact text_oneLine line
  | uartTx payload =>
    have front : (0x0A : Byte) ∉ ascii "[UART TX] " := by decide
    have body : (0x0A : Byte) ∉ payload.dropLast := oneLine
    intro line member
    by_cases ended : payload.getLast? = some 0x0A
    · simp only [Output.lines,if_pos ended,List.mem_cons,List.not_mem_nil,or_false] at member
      rcases member with rfl | rfl
      · simp only [List.mem_append,not_or]
        exact ⟨front,body⟩
      · exact List.not_mem_nil
    · simp only [Output.lines,if_neg ended,List.mem_singleton] at member
      subst member
      have whole : (0x0A : Byte) ∉ payload := by
        intro inside
        rcases List.eq_nil_or_concat payload with rfl | ⟨before,last,rfl⟩
        · cases inside
        · rw [List.concat_eq_append] at inside body ended
          simp only [List.dropLast_concat,List.mem_append,List.mem_singleton,List.getLast?_append,List.getLast?_singleton] at inside body ended
          rcases inside with earlier | here
          · exact body earlier
          · exact ended (by simp [here])
      simp only [List.mem_append,not_or]
      exact ⟨front,whole⟩

theorem lines_traced (o : Output) :
    o.lines.filter (ascii "[0x").isPrefixOf = (o.logged.map StepLine.text).toList := by
  cases o with
  | uartTx payload =>
    by_cases ended : payload.getLast? = some 0x0A
    · simp only [Output.lines,if_pos ended,Output.logged]
      rfl
    · simp only [Output.lines,if_neg ended,Output.logged]
      rfl
  | logStep line =>
    have begins : (ascii "[0x").isPrefixOf line.text = true := by
      unfold StepLine.text
      rw [snprintf_fits (buffered_room line)]
      rfl
    simp [Output.lines,Output.logged,begins]

theorem outputs_traced (out : List Output) :
    (out.flatMap Output.lines).filter (ascii "[0x").isPrefixOf = (out.filterMap Output.logged).map StepLine.text := by
  induction out with
  | nil => rfl
  | cons o out ih =>
    rw [List.flatMap_cons,List.filter_append,lines_traced,ih]
    cases logged : o.logged with
    | none => simp [logged]
    | some line => simp [logged]

theorem console_lines {out : List Output} (oneLine : ∀ o ∈ out, o.OneLine) :
    (getLines (console out)).filter (ascii "[0x").isPrefixOf = (out.filterMap Output.logged).map StepLine.text := by
  have shown : console out = ((out.flatMap Output.lines).map (· ++ [0x0A])).flatten := by
    unfold console
    rw [List.flatMap,List.map_flatten,List.flatten_flatten,List.map_map,List.map_map]
    exact congrArg List.flatten (List.map_congr_left fun o _ => text_lines o)
  have whole : ∀ line ∈ out.flatMap Output.lines, (0x0A : Byte) ∉ line := by
    intro line member
    obtain ⟨o,listed,inside⟩ := List.mem_flatMap.mp member
    exact lines_oneLine (oneLine o listed) line inside
  rw [shown,getLines_terminated whole,outputs_traced]

theorem readSteps {out : List Output} (oneLine : ∀ o ∈ out, o.OneLine) :
    ((out.filterMap Output.logged).map StepLine.text).mapM readStep = some (out.filterMap Output.logged) := by
  rw [List.mapM_map]
  refine (mapM_pure_of fun line member => ?_).trans (congrArg some (List.map_id _))
  obtain ⟨o,listed,logged⟩ := List.mem_filterMap.mp member
  cases o with
  | uartTx payload => cases logged
  | logStep line =>
    cases logged
    exact readStep_text (oneLine _ listed)

-- No guest can forge a line of the trace: whatever it sends to the UART in between, the reader
-- of the standard output gets the logged lines, all of them and in order.
theorem readTrace_console {out : List Output} (oneLine : ∀ o ∈ out, o.OneLine) :
    readTrace (console out) = some (out.filterMap Output.logged) := by
  unfold readTrace
  rw [console_lines oneLine,readSteps oneLine]

end Text

-- What a guest sends here reads like a line of the trace.
theorem readTrace_console_forged : ∃ line : StepLine,
    readTrace (console [.uartTx (line.text ++ [0x0A]),.logStep {line with cycles := 2}]) = some [{line with cycles := 2}] := by
  let line : StepLine := ⟨0,⟨Enc.nop⟩,1,[(1,5)],none,none,⟨false,false,false⟩⟩
  refine ⟨line,readTrace_console fun o member => ?_⟩
  rcases List.mem_cons.mp member with rfl | later
  · change (0x0A : Byte) ∉ (line.text ++ [0x0A]).dropLast
    rw [List.dropLast_concat]
    exact text_oneLine line
  · cases List.mem_singleton.mp later
    exact (by decide : 1 ≤ numGpr)

end Novium
