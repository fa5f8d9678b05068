/- # A file without `include` lines is compiled like its text

A file is compiled in three moves more than a text: its lines are spliced, joined
and cut again, and a diagnostic is moved to its origin. Where no line is an
`include` line, the splice is the lines themselves, each with its own number, so
the moved diagnostic is the one that was there. Joining and cutting again can
lose one empty line at the end, and nothing else: that line is read to a command
without code, no fault can stand on it, and no comment echoes it.

Key definitions: `Program.withEmptyLine`, `ownSplices`.
Key theorems: `Program.read_append_empty`, `Program.code_withEmptyLine`,
`compiled_append_empty`, `Search.expand_of_plain`, `toOrigin_ownSplices`,
`compileFile_agrees`.
-/
import Micro51.Proofs.Splicing

namespace Micro51

open Outcome

/-! ### Reading one empty line more -/

theorem readMethods_append_empty : ∀ (lines : List Text) (known : List Method) (index : Nat),
    readMethods known index (lines ++ [[]]) = readMethods known index lines
  | [], _, _ => rfl
  | line :: lines, known, index => by
    rw [List.cons_append, readMethods, readMethods, readMethods_append_empty lines known]
    congr 2
    funext m
    exact readMethods_append_empty lines (known ++ [m]) (index + 1)

theorem readBindings_append_empty (methods : List Method) :
    ∀ (lines : List Text) (earlier : List Binding) (index : Nat),
      readBindings methods earlier index (lines ++ [[]]) = readBindings methods earlier index lines
  | [], _, _ => rfl
  | line :: lines, earlier, index => by
    rw [List.cons_append, readBindings, readBindings, readBindings_append_empty methods lines earlier]
    congr 2
    funext b
    exact readBindings_append_empty methods lines (earlier ++ [b]) (index + 1)

theorem Signatures.collect_append_empty (lines : List Text) :
    Signatures.collect (lines ++ [[]]) = Signatures.collect lines := by
  unfold Signatures.collect
  simp only [readMethods_append_empty, readBindings_append_empty]

/-- Reading halts behind the additional line where it halted before it, and a
reading that gets to the end reads it to an empty command. -/
theorem readLines_append_empty (sigs : Signatures) : ∀ (lines : List Text) (index : Nat)
    (st : BodyState),
    (readLines sigs index st (lines ++ [[]])).2 = (readLines sigs index st lines).2 ∧
      ((readLines sigs index st lines).2 = none →
        (readLines sigs index st (lines ++ [[]])).1.map (·.1) =
          (readLines sigs index st lines).1.map (·.1) ++ [.empty])
  | [], _, _ => ⟨rfl, fun _ => rfl⟩
  | line :: lines, index, st => by
    rw [List.cons_append, readLines, readLines]
    cases readLine sigs index line st with
    | error cause st' => exact ⟨rfl, fun complete => by cases complete⟩
    | ok c st' =>
      obtain ⟨halt, commands⟩ := readLines_append_empty sigs lines (index + 1) st'
      exact ⟨halt, fun complete => congrArg (c :: ·) (commands complete)⟩

/-- The program with one empty line more. -/
def Program.withEmptyLine (p : Program) : Program :=
  { p with lines := p.lines ++ [[]], commands := p.commands ++ [.empty] }

/-- An empty line at the end of a program changes neither whether it is read nor
why not. -/
theorem Program.read_append_empty (raw : List Text) (supply : Supply) :
    Program.read (raw ++ [[]]) supply = (Program.read raw supply).map Program.withEmptyLine := by
  have normal : (raw ++ [[]]).map SourceLine.normalize = raw.map SourceLine.normalize ++ [[]] :=
    List.map_append
  simp only [Program.read, Transcript.of, normal, Signatures.collect_append_empty]
  cases Signatures.collect (raw.map SourceLine.normalize) supply with
  | error fault s => rfl
  | ok sigs s =>
    obtain ⟨halt, commands⟩ :=
      readLines_append_empty sigs (raw.map SourceLine.normalize) 0 { supply := s }
    simp only [Transcript.program]
    cases complete : (readLines sigs 0 { supply := s } (raw.map SourceLine.normalize)).2 with
    | some h =>
      rw [complete] at halt
      rw [halt]
      rfl
    | none =>
      rw [complete] at halt
      rw [halt]
      simp only [commands complete]
      rfl

/-! ### The code of one empty line more -/

namespace Program

variable (p : Program)

theorem closing?_withEmptyLine (line : Nat) : p.withEmptyLine.closing? line = p.closing? line := by
  unfold closing? closingIn? withEmptyLine
  rw [List.findSome?_append]
  exact Option.or_none

theorem exitOf_withEmptyLine (line : Nat) : p.withEmptyLine.exitOf line = p.exitOf line := by
  rw [exitOf, closing?_withEmptyLine, exitOf]

theorem otherwiseOf_withEmptyLine (line : Nat) :
    p.withEmptyLine.otherwiseOf line = p.otherwiseOf line := by
  rw [otherwiseOf, closing?_withEmptyLine, otherwiseOf]

theorem declaredNames_withEmptyLine : p.withEmptyLine.declaredNames = p.declaredNames := by
  unfold declaredNames withEmptyLine
  rw [List.filterMap_append]
  exact List.append_nil _

theorem loopRegisters_withEmptyLine : p.withEmptyLine.loopRegisters = p.loopRegisters := by
  unfold loopRegisters withEmptyLine
  rw [List.filterMap_append]
  exact congrArg (fun used => Register.bank.filter (List.contains used)) (List.append_nil _)

theorem isHandler_withEmptyLine (m : Method) : p.withEmptyLine.isHandler m = p.isHandler m := rfl

theorem returnCode_withEmptyLine (method : Option Method) :
    p.withEmptyLine.returnCode method = p.returnCode method := by
  unfold returnCode
  rw [loopRegisters_withEmptyLine]
  rfl

theorem commandCode_withEmptyLine (method : Option Method) (symbol : String) (index : Nat)
    (c : Command) : c.code p.withEmptyLine method symbol index = c.code p method symbol index := by
  cases c <;> simp only [Command.code, exitOf_withEmptyLine, otherwiseOf_withEmptyLine,
    loopRegisters_withEmptyLine, isHandler_withEmptyLine, returnCode_withEmptyLine]

theorem pieces_withEmptyLine (o : Options) : ∀ (cs : List (Command × Text)) (method : Option Method)
    (used : List String) (index : Nat),
    pieces p.withEmptyLine o method used index cs = pieces p o method used index cs
  | [], _, _, _ => rfl
  | (c, source) :: cs, method, used, index => by
    rw [pieces, pieces]
    simp only [commandCode_withEmptyLine, declaredNames_withEmptyLine, pieces_withEmptyLine o cs]
    rfl

/-- The piece of an empty line behind others has no lines, also where comments are
asked for. -/
theorem pieces_append_empty (o : Options) : ∀ (cs : List (Command × Text)) (method : Option Method)
    (used : List String) (index : Nat), ∃ inMethod,
    pieces p o method used index (cs ++ [(.empty, [])]) =
      pieces p o method used index cs ++ [⟨inMethod, []⟩]
  | [], method, _, _ => ⟨method.isSome, by
      simp [pieces, Command.methodHere, Command.code, Command.isStraight, echo, Text.trim,
        Text.trimLeft, Text.trimRight, guarded]⟩
  | (c, source) :: cs, method, used, index => by
    obtain ⟨inMethod, rest⟩ := pieces_append_empty o cs (c.methodAfter (c.methodHere method))
      (c.nextSymbol p.declaredNames used).2 (index + 1)
    exact ⟨inMethod, congrArg (_ :: ·) rest⟩

/-- An empty line at the end of a program has no code. -/
theorem code_withEmptyLine (o : Options) (length : p.commands.length = p.lines.length) :
    p.withEmptyLine.code o = p.code o := by
  obtain ⟨inMethod, last⟩ := p.pieces_append_empty o (p.commands.zip p.lines) none [] 0
  have all : p.withEmptyLine.allPieces o = p.allPieces o ++ [⟨inMethod, []⟩] := by
    rw [allPieces, pieces_withEmptyLine, allPieces, ← last]
    exact congrArg _ (List.zip_append length)
  have silent (part : Piece → Bool) : ([⟨inMethod, []⟩].filter part).flatMap (·.lines) = [] := by
    rw [List.filter_cons]
    split <;> rfl
  simp only [code, all, List.filter_append, List.flatMap_append, silent, List.append_nil]
  rfl

end Program

/-! ### The two ways to compile -/

/-- A fault on one of the lines is reported alike with one empty line more. -/
theorem Fault.stop_append_empty {f : Fault} {raw : List Text} (within : f.line < raw.length)
    (file : String) : f.stop (raw ++ [[]]) file = f.stop raw file := by
  unfold Fault.stop Fault.diagnostic
  rw [List.getElem?_append_left within]

/-- An empty line at the end of a source changes neither its assembly nor its
diagnostic. -/
theorem compiled_append_empty (o : Options) (raw : List Text) (file : String) :
    (compiled o (raw ++ [[]]) file (Program.read (raw ++ [[]]))).map (·.assembly) =
      (compiled o raw file (Program.read raw)).map (·.assembly) := by
  have appended := Program.read_append_empty raw {}
  cases read : Program.read raw with
  | error fault =>
    rw [read] at appended
    rw [appended]
    obtain ⟨line, here, -⟩ := Program.read_onLine read
    have within : fault.line < raw.length := by
      rw [← List.length_map SourceLine.normalize]
      exact (List.getElem?_eq_some_iff.mp here).1
    exact congrArg Except.error (Fault.stop_append_empty within file)
  | ok p =>
    rw [read] at appended
    obtain ⟨sigs, s, st', -, run, -, -, hlines, -⟩ := Program.exists_run read
    have length : p.commands.length = p.lines.length := by
      rw [hlines, ← run.length_eq, List.length_map]
    have appended : Program.read (raw ++ [[]]) = .ok p.withEmptyLine := appended
    simp only [appended, compiled, Program.assemble_of_fresh o read,
      Program.assemble_of_fresh o appended, p.code_withEmptyLine o length]
    rfl

/-- Joining lines and cutting them again changes neither the assembly nor the
diagnostic. -/
theorem compileSource_joinLines (o : Options) {ls : List Text} (unbroken : ∀ l ∈ ls, Text.Unbroken l)
    (file : String) :
    (compileSource o (Text.joinLines ls) file).result.map (·.assembly) =
      (compiled o ls file (Program.read ls)).map (·.assembly) := by
  show (compiled o (Text.lines (Text.joinLines ls)) file
    (Program.read (Text.lines (Text.joinLines ls)))).map (·.assembly) = _
  rw [Text.lines_joinLines unbroken]
  split
  · next last =>
    have lost : ls = ls.dropLast ++ [[]] := (List.dropLast_append_getLast? [] last).symm
    conv => rhs; rw [lost]
    exact (compiled_append_empty o ls.dropLast file).symm
  · rfl

/-- Lines that stand for themselves, from line `index` of a file on. -/
def ownSplices (file : String) (index : Nat) (lines : List Text) : List Splice :=
  (lines.zipIdx index).map fun x => ⟨x.1, ⟨file, x.2 + 1, 0⟩⟩

theorem line_ownSplices (file : String) (index : Nat) (lines : List Text) :
    (ownSplices file index lines).map (·.line) = lines := by
  rw [ownSplices, List.map_map]
  exact List.zipIdx_map_fst index lines

namespace Search

/-- Without `include` lines there is nothing to splice. -/
theorem spliceFrom_of_plain (s : Search) (idle : List String) (file : String)
    (events : List Event) : ∀ (lines : List Text) (index : Nat),
    (∀ line ∈ lines, includeName? line = none) →
      s.spliceFrom idle file index lines events = .ok (ownSplices file index lines) events
  | [], _, _ => rfl
  | line :: lines, index, plain => by
    obtain ⟨first, rest⟩ := List.forall_mem_cons.mp plain
    have own : s.spliceLine idle file index line events =
        .ok [⟨line, ⟨file, index + 1, 0⟩⟩] events := by
      rw [spliceLine, inclusion?_eq_none.mpr first]
      rfl
    rw [spliceFrom, bind_of_ok own, bind_of_ok (spliceFrom_of_plain s idle file events lines
      (index + 1) rest)]
    rfl

theorem expand_of_plain (s : Search) {source : Text} (file : String) (events : List Event)
    (plain : ∀ line ∈ Text.lines source, includeName? line = none) :
    s.expand source file events = .ok (ownSplices file 0 (Text.lines source)) events := by
  rw [expand, splice_eq]
  exact s.spliceFrom_of_plain _ file events _ 0 plain

end Search

/-- A diagnostic of a file whose lines stand for themselves is moved to where it
is. -/
theorem toOrigin_ownSplices {d : Diagnostic} {file : String} {i : Nat}
    (location : d.location = some ⟨file, i + 1, 0⟩) (lines : List Text) :
    toOrigin (ownSplices file 0 lines) d = d := by
  simp only [toOrigin, Diagnostic.lineIndex_eq location, Int.not_ofNat_neg, ↓reduceIte,
    Int.toNat_natCast, ownSplices, List.getElem?_map, List.getElem?_zipIdx]
  cases lines[i]? with
  | none => rfl
  | some line =>
    simp only [Option.map_some, Nat.zero_add, Placed.relocate, ← location]
    rfl

/-- **The two ways to compile agree.** A file none of whose lines is an `include`
line is compiled as its text is: both give the same assembly, or both are refused
with the same diagnostic. -/
theorem compileFile_agrees (s : Search) (o : Options) (file : String)
    (plain : ∀ line ∈ Text.lines (readSource s.disk file).2, includeName? line = none) :
    (compileFile s o file).result.map (·.assembly) =
      (compileSource o (readSource s.disk file).2 file).result.map (·.assembly) := by
  generalize hsource : (readSource s.disk file).2 = source at plain ⊢
  have unbroken : ∀ l ∈ Text.lines source, Text.Unbroken l := fun l => Text.unbroken_of_mem_lines
  have text : splicedText (ownSplices file 0 (Text.lines source)) =
      Text.joinLines (Text.lines source) := by
    rw [splicedText, line_ownSplices]
  have same := compileSource_joinLines o unbroken file
  have result : (compileFile s o file).result =
      (compileSource o (Text.joinLines (Text.lines source)) file).result.mapError
        (Stop.toOrigin (ownSplices file 0 (Text.lines source))) := by
    simp only [compileFile, hsource, s.expand_of_plain file _ plain, text]
  rw [result, show (compileSource o source file).result.map (·.assembly) = _ from same.symm]
  cases compiles : (compileSource o (Text.joinLines (Text.lines source)) file).result with
  | ok c => rfl
  | error stop =>
    rcases compileSource_stop compiles with ⟨d, i, line, rfl, -, -, location, -⟩ | ⟨n, rfl, -⟩
    · simp only [Except.mapError, Except.map, Stop.toOrigin, toOrigin_ownSplices location]
    · rfl

/-- A file with six kinds of line ends, four of them one behind the other at its end. -/
def oddEnds : Disk where
  entries := [(["w", "odd.tc"],
    .file (Utf8.encode "int n := 3\x0bif [n > 2] ; open\u2028n++\r\n\x85\n\u2029".toList))]
  workDir := ["w"]

/-- The file has six lines and is compiled as five. Both ways refuse it at its second
line, for the block that is never closed. -/
theorem compileFile_agrees_oddEnds :
    (Text.lines (readSource oddEnds "odd.tc").2).length = 6 ∧
      (Text.lines (compileFile ⟨oddEnds, []⟩ {} "odd.tc").source).length = 5 ∧
      (compileFile ⟨oddEnds, []⟩ {} "odd.tc").result.map (·.assembly) = .error (.refused
        ⟨.blockNeverClosed "if", some ⟨"odd.tc", 2, 0⟩, some "if [n > 2] ; open"⟩) ∧
      (compileSource {} (readSource oddEnds "odd.tc").2 "odd.tc").result.map (·.assembly) =
        .error (.refused
        ⟨.blockNeverClosed "if", some ⟨"odd.tc", 2, 0⟩, some "if [n > 2] ; open"⟩) := by
  have plain : ((Text.lines (readSource oddEnds "odd.tc").2).all fun line =>
      (includeName? line).isNone) = true := by decide +kernel
  have agree := compileFile_agrees ⟨oddEnds, []⟩ {} "odd.tc" fun line hl =>
    Option.isNone_iff_eq_none.mp (List.all_eq_true.mp plain line hl)
  have refused : (compileFile ⟨oddEnds, []⟩ {} "odd.tc").result.map (·.assembly) = .error (.refused
      ⟨.blockNeverClosed "if", some ⟨"odd.tc", 2, 0⟩, some "if [n > 2] ; open"⟩) := by
    decide +kernel
  exact ⟨by decide +kernel, by decide +kernel, refused, agree.symm.trans refused⟩

end Micro51
