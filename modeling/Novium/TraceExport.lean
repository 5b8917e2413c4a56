import Novium.Listings
import Novium.ReverseHistory

namespace Novium
open Storage Printf Text TranslationEngine

-- "%llu,0x%08X,0x%08X,%u,0x%08X", a line of the exported trace.
def csvLine : List Field :=
  [.number,.text (ascii ",0x"),.digits 16 8,.text (ascii ",0x"),.digits 16 8,.text (ascii ","),.number,.text (ascii ",0x"),.digits 16 8]

def TraceEntry.columns (e : TraceEntry) : List Int :=
  [(e.cycle.toNat : Int),e.pc.toNat,e.instr.raw.toNat,e.result.toNat,e.memAddr.toNat]

def TraceEntry.line (e : TraceEntry) : List Byte := print csvLine e.columns

namespace InstructionTrace

def csvHeader : List Byte := ascii "cycle,pc,raw,result,mem_addr"

-- The text of the file; `none` when it cannot be opened.
def exportCsv (opens : Bool) (t : InstructionTrace) : Option (List Byte) :=
  if opens then some ((csvHeader :: t.entries.map TraceEntry.line).map (· ++ [0x0A])).flatten else none

def readCsv (text : List Byte) : Option (List (List Int)) :=
  match getLines text with
  | [] => none
  | header :: rows => if header = csvHeader then rows.mapM fun row => (read csvLine row).map Prod.fst else none

theorem csvLine_fits (e : TraceEntry) : Suits csvLine e.columns :=
  digits_fit e.pc (by decide) (digits_fit e.instr.raw (by decide) (digits_fit e.memAddr (by decide) rfl))

theorem line_oneLine (e : TraceEntry) : (0x0A : Byte) ∉ e.line :=
  not_mem_print (csvLine_fits e) (by decide) (by decide) (by decide) newline_plain

theorem read_line (e : TraceEntry) : (read csvLine e.line).map Prod.fst = some e.columns := by
  have stops : Stops isDigit [] := fun b here => by cases here
  have round := read_print (csvLine_fits e) (by decide) stops
  rw [List.append_nil] at round
  unfold TraceEntry.line
  rw [round]
  rfl

theorem readCsv_export (t : InstructionTrace) :
    (t.exportCsv true).bind readCsv = some (t.entries.map TraceEntry.columns) := by
  have oneLine : ∀ line ∈ csvHeader :: t.entries.map TraceEntry.line, (0x0A : Byte) ∉ line := by
    intro line member
    rcases List.mem_cons.mp member with rfl | row
    · decide
    · obtain ⟨e,_,rfl⟩ := List.mem_map.mp row
      exact line_oneLine e
  have lines := getLines_terminated oneLine
  have rows : (t.entries.map TraceEntry.line).mapM (fun row => (read csvLine row).map Prod.fst) = some (t.entries.map TraceEntry.columns) := by
    rw [List.mapM_map]
    exact mapM_pure_of fun e _ => read_line e
  unfold exportCsv readCsv
  rw [if_pos rfl,Option.bind_some,lines]
  dsimp only
  rw [if_pos rfl,rows]

theorem pushed_entries (limit : Nat) (pushed : List TraceEntry) :
    (pushed.foldl push (initial.setMax limit)).max = limit ∧
      (pushed.foldl push (initial.setMax limit)).entries = pushed.drop (pushed.length-limit) := by
  induction pushed using List.reverseRecOn with
  | nil => exact ⟨rfl,(List.drop_nil).symm⟩
  | append_singleton pushed e ih =>
    obtain ⟨kept,entries⟩ := ih
    have length : (pushed.drop (pushed.length-limit) ++ [e]).length = pushed.length-(pushed.length-limit)+1 := by simp
    rw [List.foldl_concat,push,kept,entries,length,List.length_append,List.length_singleton]
    split
    · rename_i full
      refine ⟨rfl,?_⟩
      change (pushed.drop (pushed.length-limit) ++ [e]).eraseIdx 0 = _
      rw [List.eraseIdx_zero,← List.drop_one,← List.drop_append_of_le_length (by omega),List.drop_drop]
      congr 1
      omega
    · rename_i room
      refine ⟨rfl,?_⟩
      rw [show pushed.length+1-limit = pushed.length-limit by omega]
      exact (List.drop_append_of_le_length (by omega)).symm

-- The exported file reads back as the last entries pushed, as many as the limit keeps, oldest
-- first, and shows everything of them except whether a branch was taken.
theorem csv_round_trip (limit : Nat) (pushed : List TraceEntry) :
    ((pushed.foldl push (initial.setMax limit)).exportCsv true).bind readCsv =
      some ((pushed.drop (pushed.length-limit)).map TraceEntry.columns) := by
  rw [readCsv_export,(pushed_entries limit pushed).2]

end InstructionTrace
-- A stream that was opened while it was open fails, and drops what is written to it until
-- it is opened anew.
structure VCDWriter where
  file : Option (List Byte)
  failed : Bool
  signals : List (List Byte)
  headerWritten : Bool

inductive VCDCall where
  | start (opens : Bool)
  | close
  | header (timescale : List Byte)
  | addSignal (name : List Byte)
  | dump (cycle : DWord) (pc : Word) (instr : Instruction) (gpr0 : Word)

namespace VCDWriter

def closed : VCDWriter := ⟨none,false,[],false⟩

def emit (w : VCDWriter) (lines : List (List Byte)) : VCDWriter :=
  {w with file := w.file.map fun text => if w.failed then text else text ++ (lines.map (· ++ [0x0A])).flatten}

-- `opens` is whether the path can be opened.
def start (w : VCDWriter) (opens : Bool) : VCDWriter :=
  if w.file.isSome then {w with failed := true}
  else if opens then {w with file := some [],failed := false}
  else {w with failed := true}

def varLine (i : Nat) (name : List Byte) : List Byte :=
  print [.text (ascii "$var wire 32 s"),.number,.text (ascii " ")] [(i : Int)] ++ name ++ ascii " $end"

def headerLines (w : VCDWriter) (timescale : List Byte) : List (List Byte) :=
  [ascii "$timescale " ++ timescale ++ ascii " $end",ascii "$scope module novium $end"] ++ w.signals.mapIdx varLine ++
    [ascii "$upscope $end",ascii "$enddefinitions $end"]

def header (w : VCDWriter) (timescale : List Byte) : VCDWriter :=
  if w.file.isSome then {w.emit (w.headerLines timescale) with headerWritten := true} else w

def addSignal (w : VCDWriter) (name : List Byte) : VCDWriter := {w with signals := w.signals ++ [name]}

def cycleLine : List Field := [.text (ascii "#"),.number]
def bitsLine (signal : List Byte) : List Field := [.text (ascii "b"),.digits 2 32,.text signal]

def dumpLines (cycle : DWord) (pc : Word) (instr : Instruction) (gpr0 : Word) : List (List Byte) :=
  [print cycleLine [(cycle.toNat : Int)],print (bitsLine (ascii " s0")) [(pc.toNat : Int)],
    print (bitsLine (ascii " s1")) [(instr.raw.toNat : Int)],print (bitsLine (ascii " s2")) [(gpr0.toNat : Int)]]

def dump (w : VCDWriter) (cycle : DWord) (pc : Word) (instr : Instruction) (gpr0 : Word) : VCDWriter :=
  if w.file.isSome then
    (if w.headerWritten then w else w.header (ascii "1ns")).emit (dumpLines cycle pc instr gpr0)
  else w

end VCDWriter

-- What the caller has been told and has asked for: the texts of the files that were closed,
-- and for each file, the last one first, the values dumped into it while it took them.
structure VCDLog where
  files : List (List Byte)
  dumps : List (List (List Int))

namespace VCDWriter

-- The file the writer has open takes what is written to it.
def takes (w : VCDWriter) : Bool := w.file.isSome && !w.failed

def call (s : VCDWriter × VCDLog) : VCDCall → VCDWriter × VCDLog
  | .start opens => (s.1.start opens,if s.1.file.isNone && opens then {s.2 with dumps := [] :: s.2.dumps} else s.2)
  | .close => ({s.1 with file := none},{s.2 with files := s.1.file.toList ++ s.2.files})
  | .header timescale => (s.1.header timescale,s.2)
  | .addSignal name => (s.1.addSignal name,s.2)
  | .dump cycle pc instr gpr0 => (s.1.dump cycle pc instr gpr0,if s.1.takes then {s.2 with
      dumps := (s.2.dumps.headD [] ++ [[(cycle.toNat : Int),pc.toNat,instr.raw.toNat,gpr0.toNat]]) :: s.2.dumps.tail} else s.2)

def run (calls : List VCDCall) : VCDWriter × VCDLog := calls.foldl call (closed,⟨[],[]⟩)

def texts (s : VCDWriter × VCDLog) : List (List Byte) := s.1.file.toList ++ s.2.files

-- A reader of the dumps of a file: the lines of headers begin with a dollar sign, and a dump
-- is four lines.
def readDumps : List (List Byte) → Option (List (List Int))
  | [] => some []
  | a :: b :: c :: d :: rest => do
    let (cycle,_) ← read cycleLine a
    let (pc,_) ← read (bitsLine (ascii " s0")) b
    let (raw,_) ← read (bitsLine (ascii " s1")) c
    let (gpr0,_) ← read (bitsLine (ascii " s2")) d
    let dumps ← readDumps rest
    return (cycle ++ pc ++ raw ++ gpr0) :: dumps
  | _ => none

def readFile (text : List Byte) : Option (List (List Int)) :=
  readDumps ((getLines text).filter fun line => line.head? != some 0x24)

end VCDWriter

def VCDCall.OneLine : VCDCall → Prop
  | .header timescale => (0x0A : Byte) ∉ timescale
  | .addSignal name => (0x0A : Byte) ∉ name
  | _ => True

namespace VCDWriter

def lastHeaderLine : List Byte := ascii "$enddefinitions $end"
def headers (text : List Byte) : Nat := (getLines text).count lastHeaderLine

-- A text made of lines whose dumps are the given ones.
structure Holds (text : List Byte) (dumps : List (List Int)) : Prop where
  lines : ∃ lines : List (List Byte), (∀ line ∈ lines, (0x0A : Byte) ∉ line) ∧ text = (lines.map (· ++ [0x0A])).flatten ∧
    readDumps (lines.filter fun line => line.head? != some 0x24) = some dumps

theorem Holds.readFile {text : List Byte} {dumps : List (List Int)} (holds : Holds text dumps) : readFile text = some dumps := by
  obtain ⟨lines,oneLine,rfl,read⟩ := holds.lines
  unfold VCDWriter.readFile
  rw [getLines_terminated oneLine]
  exact read

theorem Holds.append {text : List Byte} {dumps more : List (List Int)} {added : List (List Byte)} (holds : Holds text dumps)
    (oneLine : ∀ line ∈ added, (0x0A : Byte) ∉ line)
    (read : ∀ lines, readDumps lines = some dumps → readDumps (lines ++ added.filter fun line => line.head? != some 0x24) = some more) :
    Holds (text ++ (added.map (· ++ [0x0A])).flatten) more ∧
      headers (text ++ (added.map (· ++ [0x0A])).flatten) = headers text+added.count lastHeaderLine := by
  obtain ⟨lines,before,rfl,dumped⟩ := holds.lines
  have all : ∀ line ∈ lines ++ added, (0x0A : Byte) ∉ line := fun line member => (List.mem_append.mp member).elim (before line) (oneLine line)
  have joined : (lines.map (· ++ [0x0A])).flatten ++ (added.map (· ++ [0x0A])).flatten = ((lines ++ added).map (· ++ [0x0A])).flatten := by
    rw [List.map_append,List.flatten_append]
  rw [joined]
  refine ⟨⟨lines ++ added,all,rfl,?_⟩,?_⟩
  · rw [List.filter_append]
    exact read _ dumped
  · unfold headers
    rw [getLines_terminated all,getLines_terminated before,List.count_append]

theorem bits_fit (w : Word) (signal : List Byte) : Suits (bitsLine signal) [(w.toNat : Int)] := by
  have small := w.isLt
  refine ⟨by decide,by decide,Int.natCast_nonneg _,?_,rfl⟩
  exact_mod_cast small

theorem varLine_plain {name : List Byte} (i : Nat) (oneLine : (0x0A : Byte) ∉ name) : (0x0A : Byte) ∉ varLine i name := by
  have front : (0x0A : Byte) ∉ print [.text (ascii "$var wire 32 s"),.number,.text (ascii " ")] [(i : Int)] :=
    not_mem_print (by rfl) (by decide) (by decide) (by decide) newline_plain
  have back : (0x0A : Byte) ∉ ascii " $end" := by decide
  unfold varLine
  simp only [List.mem_append,not_or]
  exact ⟨⟨front,oneLine⟩,back⟩

theorem headerLines_plain {w : VCDWriter} {timescale : List Byte} (signals : ∀ name ∈ w.signals, (0x0A : Byte) ∉ name)
    (oneLine : (0x0A : Byte) ∉ timescale) : (∀ line ∈ w.headerLines timescale, (0x0A : Byte) ∉ line) ∧
      (w.headerLines timescale).filter (fun line => line.head? != some 0x24) = [] ∧
      (w.headerLines timescale).count lastHeaderLine = 1 := by
  have cases : ∀ line ∈ w.headerLines timescale, line = ascii "$timescale " ++ timescale ++ ascii " $end" ∨
      line = ascii "$scope module novium $end" ∨ (∃ i name, name ∈ w.signals ∧ line = varLine i name) ∨
      line = ascii "$upscope $end" ∨ line = lastHeaderLine := by
    intro line member
    simp only [headerLines,List.mem_append,List.mem_cons,List.not_mem_nil,or_false,List.mem_mapIdx] at member
    rcases member with (first | ⟨i,here,rfl⟩) | last
    · exact first.elim .inl fun scope => .inr (.inl scope)
    · exact .inr (.inr (.inl ⟨i,w.signals[i],List.getElem_mem here,rfl⟩))
    · exact last.elim (fun up => .inr (.inr (.inr (.inl up)))) fun done => .inr (.inr (.inr (.inr done)))
  refine ⟨?_,?_,?_⟩
  · intro line member
    rcases cases line member with rfl | rfl | ⟨i,name,listed,rfl⟩ | rfl | rfl
    · have front : (0x0A : Byte) ∉ ascii "$timescale " := by decide
      have back : (0x0A : Byte) ∉ ascii " $end" := by decide
      simp only [List.mem_append,not_or]
      exact ⟨⟨front,oneLine⟩,back⟩
    · decide
    · exact varLine_plain i (signals name listed)
    · decide
    · decide
  · rw [List.filter_eq_nil_iff]
    intro line member
    rcases cases line member with rfl | rfl | ⟨i,name,_,rfl⟩ | rfl | rfl <;> simp [varLine,print,ascii,lastHeaderLine]
  · have vars : (w.signals.mapIdx varLine).count lastHeaderLine = 0 := by
      apply List.count_eq_zero_of_not_mem
      intro member
      obtain ⟨i,here,same⟩ := List.mem_mapIdx.mp member
      have second := congrArg (fun row => row[1]?) same
      simp [varLine,print,ascii,lastHeaderLine] at second
    have scale : ascii "$timescale " ++ timescale ++ ascii " $end" ≠ lastHeaderLine := by
      intro same
      have second := congrArg (fun row => row[1]?) same
      simp [ascii,lastHeaderLine] at second
    unfold headerLines
    rw [List.count_append,List.count_append,vars,List.count_cons_of_ne scale]
    decide

theorem dumpLines_plain (cycle : DWord) (pc : Word) (instr : Instruction) (gpr0 : Word) :
    (∀ line ∈ dumpLines cycle pc instr gpr0, (0x0A : Byte) ∉ line) ∧
      (dumpLines cycle pc instr gpr0).filter (fun line => line.head? != some 0x24) = dumpLines cycle pc instr gpr0 ∧
      (dumpLines cycle pc instr gpr0).count lastHeaderLine = 0 := by
  have starts : ∀ line ∈ dumpLines cycle pc instr gpr0, line.head? ≠ some 0x24 := by
    intro line member
    simp only [dumpLines,List.mem_cons,List.not_mem_nil,or_false] at member
    rcases member with rfl | rfl | rfl | rfl <;> simp [cycleLine,bitsLine,print,ascii]
  refine ⟨?_,?_,?_⟩
  · have bits (w : Word) (signal : List Byte) (plain : avoids 0x0A (bitsLine signal) = true) :
        (0x0A : Byte) ∉ print (bitsLine signal) [(w.toNat : Int)] :=
      not_mem_print (bits_fit w signal) plain (by decide) (by decide) newline_plain
    intro line member
    simp only [dumpLines,List.mem_cons,List.not_mem_nil,or_false] at member
    rcases member with rfl | rfl | rfl | rfl
    · exact not_mem_print (by rfl) (by decide) (by decide) (by decide) newline_plain
    · exact bits pc _ (by decide)
    · exact bits instr.raw _ (by decide)
    · exact bits gpr0 _ (by decide)
  · rw [List.filter_eq_self]
    intro line member
    exact bne_iff_ne.mpr (starts line member)
  · apply List.count_eq_zero_of_not_mem
    intro member
    exact starts _ member (by decide)

theorem read_lines (cycle : DWord) (pc : Word) (instr : Instruction) (gpr0 : Word) :
    read cycleLine (print cycleLine [(cycle.toNat : Int)]) = some ([(cycle.toNat : Int)],[]) ∧
      read (bitsLine (ascii " s0")) (print (bitsLine (ascii " s0")) [(pc.toNat : Int)]) = some ([(pc.toNat : Int)],[]) ∧
      read (bitsLine (ascii " s1")) (print (bitsLine (ascii " s1")) [(instr.raw.toNat : Int)]) = some ([(instr.raw.toNat : Int)],[]) ∧
      read (bitsLine (ascii " s2")) (print (bitsLine (ascii " s2")) [(gpr0.toNat : Int)]) = some ([(gpr0.toNat : Int)],[]) := by
  have stops : Stops isDigit [] := fun b here => by cases here
  have bits (w : Word) (signal : List Byte) :
      read (bitsLine signal) (print (bitsLine signal) [(w.toNat : Int)]) = some ([(w.toNat : Int)],[]) := by
    have round := read_print (bits_fit w signal) rfl stops
    rwa [List.append_nil] at round
  have first := @read_print cycleLine [(cycle.toNat : Int)] [] rfl rfl stops
  rw [List.append_nil] at first
  exact ⟨first,bits pc _,bits instr.raw _,bits gpr0 _⟩

theorem readDumps_append {lines : List (List Byte)} {dumps : List (List Int)} (dumped : readDumps lines = some dumps)
    (cycle : DWord) (pc : Word) (instr : Instruction) (gpr0 : Word) : readDumps (lines ++ dumpLines cycle pc instr gpr0) =
      some (dumps ++ [[(cycle.toNat : Int),pc.toNat,instr.raw.toNat,gpr0.toNat]]) := by
  fun_induction readDumps lines generalizing dumps with
  | case1 =>
    cases dumped
    obtain ⟨first,second,third,fourth⟩ := read_lines cycle pc instr gpr0
    rw [List.nil_append,dumpLines,readDumps,first,second,third,fourth]
    rfl
  | case2 a b c d rest ih =>
    obtain ⟨cycle',first,dumped⟩ := Option.bind_eq_some_iff.mp dumped
    obtain ⟨pc',second,dumped⟩ := Option.bind_eq_some_iff.mp dumped
    obtain ⟨raw',third,dumped⟩ := Option.bind_eq_some_iff.mp dumped
    obtain ⟨gpr',fourth,dumped⟩ := Option.bind_eq_some_iff.mp dumped
    obtain ⟨later,others,last⟩ := Option.bind_eq_some_iff.mp dumped
    cases last
    have more := ih others
    change readDumps (a :: b :: c :: d :: (rest ++ dumpLines cycle pc instr gpr0)) = _
    rw [readDumps,first,second,third,fourth,more]
    rfl
  | case3 => cases dumped

-- What the calls made so far have written: names that keep to their line, files that read back
-- as what was dumped into them, and, as long as no header was asked for, one at the most.
structure Faithful (asked : Prop) (s : VCDWriter × VCDLog) : Prop where
  signals : ∀ name ∈ s.1.signals, (0x0A : Byte) ∉ name
  files : List.Forall₂ Holds (texts s) s.2.dumps
  counted : ¬ asked → ((texts s).map headers).sum ≤ if s.1.headerWritten then 1 else 0

theorem Holds.header {w : VCDWriter} {text timescale : List Byte} {dumps : List (List Int)} (holds : Holds text dumps)
    (signals : ∀ name ∈ w.signals, (0x0A : Byte) ∉ name) (oneLine : (0x0A : Byte) ∉ timescale) :
    Holds (text ++ ((w.headerLines timescale).map (· ++ [0x0A])).flatten) dumps ∧
      headers (text ++ ((w.headerLines timescale).map (· ++ [0x0A])).flatten) = headers text+1 := by
  obtain ⟨lines,skipped,once⟩ := headerLines_plain signals oneLine
  rw [← once]
  refine holds.append lines ?_
  rw [skipped]
  intro before read
  rw [List.append_nil]
  exact read

theorem Holds.dump {text : List Byte} {dumps : List (List Int)} (holds : Holds text dumps)
    (cycle : DWord) (pc : Word) (instr : Instruction) (gpr0 : Word) :
    Holds (text ++ ((dumpLines cycle pc instr gpr0).map (· ++ [0x0A])).flatten)
        (dumps ++ [[(cycle.toNat : Int),pc.toNat,instr.raw.toNat,gpr0.toNat]]) ∧
      headers (text ++ ((dumpLines cycle pc instr gpr0).map (· ++ [0x0A])).flatten) = headers text := by
  obtain ⟨lines,kept,none⟩ := dumpLines_plain cycle pc instr gpr0
  have appended := holds.append lines fun before read => (congrArg (fun added => readDumps (before ++ added)) kept).trans
    (readDumps_append read cycle pc instr gpr0)
  rw [none] at appended
  exact appended

theorem Faithful.call {asked : Prop} {s : VCDWriter × VCDLog} (faithful : Faithful asked s) {c : VCDCall} (oneLine : c.OneLine)
    (ask : ∀ timescale, c = .header timescale → asked) : Faithful asked (call s c) := by
  obtain ⟨⟨file,failed,signals,headerWritten⟩,⟨files,dumps⟩⟩ := s
  obtain ⟨plain,holds,counted⟩ := faithful
  cases c with
  | addSignal name =>
    refine ⟨?_,holds,counted⟩
    intro listed member
    rcases List.mem_append.mp member with before | now
    · exact plain listed before
    · cases List.mem_singleton.mp now
      exact oneLine
  | close => cases file <;> exact ⟨plain,holds,counted⟩
  | start opens =>
    cases file with
    | some text => exact ⟨plain,holds,counted⟩
    | none =>
      cases opens with
      | false => exact ⟨plain,holds,counted⟩
      | true =>
        refine ⟨plain,.cons ⟨[],fun _ member => absurd member List.not_mem_nil,rfl,rfl⟩ holds,fun unasked => ?_⟩
        exact (Nat.zero_add _).trans_le (counted unasked)
  | header timescale =>
    have asks := ask timescale rfl
    cases file with
    | none => exact ⟨plain,holds,counted⟩
    | some text =>
      cases failed with
      | true => exact ⟨plain,holds,fun unasked => absurd asks unasked⟩
      | false =>
        cases holds with
        | cons first rest =>
          have written := first.header (w := ⟨some text,false,signals,headerWritten⟩) plain oneLine
          exact ⟨plain,.cons written.1 rest,fun unasked => absurd asks unasked⟩
  | dump cycle pc instr gpr0 =>
    cases file with
    | none => exact ⟨plain,holds,counted⟩
    | some text =>
      cases failed with
      | true =>
        cases headerWritten with
        | true => exact ⟨plain,holds,counted⟩
        | false => exact ⟨plain,holds,fun unasked => Nat.le_trans (counted unasked) (Nat.zero_le 1)⟩
      | false =>
        cases holds with
        | @cons _ d _ _ first rest =>
          cases headerWritten with
          | true =>
            have written := first.dump cycle pc instr gpr0
            refine ⟨plain,.cons written.1 rest,fun unasked => ?_⟩
            exact (congrArg (·+(files.map headers).sum) written.2).trans_le (counted unasked)
          | false =>
            have header := first.header (w := ⟨some text,false,signals,false⟩) plain (by decide : (0x0A : Byte) ∉ ascii "1ns")
            have written := header.1.dump cycle pc instr gpr0
            refine ⟨plain,.cons written.1 rest,fun unasked => ?_⟩
            have before : headers text+(files.map headers).sum ≤ 0 := counted unasked
            have after : headers text+1+(files.map headers).sum ≤ 1 := by omega
            exact (congrArg (·+(files.map headers).sum) (written.2.trans header.2)).trans_le after

theorem run_faithful (calls : List VCDCall) (oneLine : ∀ c ∈ calls, c.OneLine) :
    Faithful (∃ timescale, .header timescale ∈ calls) (run calls) := by
  have all (asked : Prop) (ask : (∃ timescale, .header timescale ∈ calls) → asked) : Faithful asked (run calls) := by
    induction calls using List.reverseRecOn with
    | nil => exact ⟨fun _ member => absurd member List.not_mem_nil,.nil,fun _ => Nat.le_refl 0⟩
    | append_singleton calls last ih =>
      have before := ih (fun c member => oneLine c (List.mem_append_left _ member))
        fun ⟨timescale,member⟩ => ask ⟨timescale,List.mem_append_left _ member⟩
      have split : run (calls ++ [last]) = call (run calls) last := List.foldl_concat ..
      rw [split]
      have there : last ∈ calls ++ [last] := List.mem_append_right _ List.mem_cons_self
      exact before.call (oneLine last there) fun timescale same => ask ⟨timescale,same ▸ there⟩
  exact all _ id

theorem Faithful.read {asked : Prop} {s : VCDWriter × VCDLog} (faithful : Faithful asked s) :
    (texts s).map readFile = s.2.dumps.map some := by
  have files := faithful.files
  generalize texts s = written at files ⊢
  generalize s.2.dumps = dumps at files ⊢
  induction files with
  | nil => rfl
  | cons first _ ih => rw [List.map_cons,List.map_cons,first.readFile,ih]

-- Over every sequence of calls each file reads back as the values dumped into it while the
-- stream took them, in their order; and the header a dump writes by itself is written for the
-- first dump only, whatever file that was in.
theorem vcd_reads_back (calls : List VCDCall) (oneLine : ∀ c ∈ calls, c.OneLine) :
    (texts (run calls)).map readFile = (run calls).2.dumps.map some ∧
      ((∀ timescale, .header timescale ∉ calls) → ((texts (run calls)).map headers).sum ≤ 1) := by
  have faithful := run_faithful calls oneLine
  refine ⟨faithful.read,?_⟩
  intro unasked
  have most : (if (run calls).1.headerWritten then 1 else 0) ≤ 1 := by split <;> decide
  exact Nat.le_trans (faithful.counted fun ⟨timescale,member⟩ => unasked timescale member) most

def twoFiles : List VCDCall :=
  [.addSignal (ascii "pc"),.start true,.dump 1 0 ⟨Enc.nop⟩ 7,.close,.start true,.dump 2 4 ⟨Enc.halt⟩ 8]

theorem vcd_reads_back_files : (texts (run twoFiles)).map readFile = [some [[2,4,0x04000000,8]],some [[1,0,0,7]]] ∧
    ((texts (run twoFiles)).map headers).sum ≤ 1 := by
  have oneLine : ∀ c ∈ twoFiles, c.OneLine := by
    intro c member
    simp only [twoFiles,List.mem_cons,List.not_mem_nil,or_false] at member
    rcases member with rfl | rfl | rfl | rfl | rfl | rfl
    · change (0x0A : Byte) ∉ ascii "pc"
      decide
    all_goals trivial
  obtain ⟨read,most⟩ := vcd_reads_back twoFiles oneLine
  refine ⟨read.trans (by decide),most ?_⟩
  intro timescale member
  simp [twoFiles] at member

end VCDWriter
end Novium
