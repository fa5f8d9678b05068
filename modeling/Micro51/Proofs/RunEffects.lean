/- # A run changes at most its output file

A run of the command ends in one of four ways: the arguments make no request,
the input is not compiled, the assembly is not written, or it is. Only the last
changes the disk, and only at the trail of the output.

A request that is refused says so on the error stream and nothing else, unless
it is verbose: what the compilation reports on the way is no warning. The one
warning there is, about a main file that cannot be read, comes with an empty
source, and that compiles. The console shows a diagnostic as it is if its text has
no terminal escapes.

Key definitions: `Event.Silent`, `CommandLine.outcome`.
Key theorems: `Utf8.encode_toList`, `Search.silent_of_expand`,
`compileFile_silent`, `CommandLine.exists_write_of_disk_ne`,
`CommandLine.run_changes_output_only`.
-/
import Micro51.CommandLine.Usage
import Micro51.Proofs.Cycles
import Micro51.Proofs.DiskWrites

namespace Micro51

/-! ### The bytes of a text -/

namespace Utf8

theorem encode_toList (s : String) : encode s.toList = s.toUTF8.data.toList := by
  have bytes : s.toUTF8 = (s.toList.flatMap String.utf8EncodeChar).toByteArray :=
    String.utf8Encode_toList.symm
  rw [bytes, encode, List.data_toByteArray]

end Utf8

/-! ### What a compilation reports -/

/-- Only a user who asks for everything is shown the event. -/
def Event.Silent (e : Event) : Prop := e.shown? false = none

namespace Search

variable {s : Search} {p q : Progress}

theorem silent_of_advance (silent : ∀ e ∈ p.events, e.Silent) (step : s.advance p = .ok q) :
    ∀ e ∈ q.events, e.Silent := by
  unfold advance at step
  split at step
  · cases step
    exact silent
  · split at step
    · cases step
      exact silent
    · split at step
      · cases step
      · cases step
        exact silent
      · cases step
        exact List.forall_mem_append.mpr ⟨silent, List.forall_mem_singleton.mpr rfl⟩

theorem ComesTo.silent (run : s.ComesTo p q) (silent : ∀ e ∈ p.events, e.Silent) :
    ∀ e ∈ q.events, e.Silent := by
  induction run with
  | refl => exact silent
  | tail _ step ih => exact silent_of_advance ih step.2

/-- The splicing itself gives no warning, however it ends. -/
theorem silent_of_expand {source : Text} {file : String} :
    (∀ splices events, s.expand source file [] = .ok splices events → ∀ e ∈ events, e.Silent) ∧
      ∀ stop events, s.expand source file [] = .error stop events → ∀ e ∈ events, e.Silent := by
  have start : ∀ e ∈ (s.start source file []).events, e.Silent := List.forall_mem_nil _
  have ends := ends_expand s source file []
  constructor
  · intro splices events h
    rw [h] at ends
    cases ends with
    | spliced run => exact run.silent start
  · intro stop events h
    rw [h] at ends
    cases ends with
    | stopped run stops => exact run.silent start

end Search

theorem compileSource_silent (o : Options) (source : Text) (file : String) :
    ∀ e ∈ (compileSource o source file).events, e.Silent := by
  have transcript (t : Transcript) : ∀ e ∈ t.events, e.Silent := by
    unfold Transcript.events
    split
    · exact List.forall_mem_nil _
    · refine List.forall_mem_cons.mpr ⟨rfl, ?_⟩
      split
      · exact List.forall_mem_nil _
      · exact List.forall_mem_singleton.mpr rfl
  have failure (r : Except Stop Compiled) : ∀ e ∈ failureEvents file r, e.Silent := by
    unfold failureEvents
    split
    · exact List.forall_mem_singleton.mpr rfl
    · exact List.forall_mem_nil _
  exact List.forall_mem_append.mpr
    ⟨List.forall_mem_cons.mpr ⟨rfl, transcript _⟩, failure _⟩

/-- A main file that cannot be read has an empty source. -/
theorem readSource_cases (d : Disk) (file : String) :
    (readSource d file).1 = [] ∨ (readSource d file).2 = [] := by
  unfold readSource
  simp only
  split
  · exact .inr rfl
  · split
    · exact .inr rfl
    · exact .inl rfl

/-- An empty source is compiled. -/
theorem compileSource_nil (o : Options) (file : String) :
    ∃ c, (compileSource o [] file).result = .ok c := by
  cases result : (compileSource o [] file).result with
  | ok c => exact ⟨c, rfl⟩
  | error stop =>
    rcases compileSource_stop result with ⟨-, i, line, -, -, here, -⟩ | ⟨n, -, -, line, here, -⟩
    · cases here
    · cases here

/-- A file that is not compiled comes without a warning. -/
theorem compileFile_silent {s : Search} {o : Options} {file : String} {stop : Stop}
    (h : (compileFile s o file).result = .error stop) :
    ∀ e ∈ (compileFile s o file).events, e.Silent := by
  cases main : readSource s.disk file with
  | mk warnings source =>
    rcases readSource_cases s.disk file with none | empty
    · rw [main] at none
      obtain rfl : warnings = [] := none
      cases expanded : s.expand source file [] with
      | error stop events =>
        simp only [compileFile, main, expanded]
        exact Search.silent_of_expand.2 _ _ expanded
      | ok splices events =>
        simp only [compileFile, main, expanded]
        exact List.forall_mem_append.mpr
          ⟨Search.silent_of_expand.1 _ _ expanded, compileSource_silent o _ file⟩
    · -- with a warning there is nothing to splice and nothing to refuse
      rw [main] at empty
      obtain rfl : source = [] := empty
      have expanded : s.expand [] file warnings = .ok [] warnings := by
        rw [Search.expand, Search.splice_eq]
        rfl
      obtain ⟨c, compiled⟩ := compileSource_nil o file
      simp only [compileFile, main, expanded, show splicedText [] = [] from rfl, compiled] at h
      cases h

/-! ### What a request does -/

namespace CommandLine

variable (console : Console) {d : Disk} {r : Request}

/-- How the work on a request ends: with what is said, and the disk. -/
def outcome (d : Disk) (r : Request) : Except Stop (List String × Disk) :=
  (compileRequest d r).result.bind (finish d r)

theorem outcome_of_stop {stop : Stop} (h : (compileRequest d r).result = .error stop) :
    outcome d r = .error stop := by
  rw [outcome, h]
  rfl

theorem outcome_of_compiled {c : Compiled} (h : (compileRequest d r).result = .ok c) :
    outcome d r = finish d r c := by
  rw [outcome, h]
  rfl

theorem runRequest_of_error {stop : Stop} (h : outcome d r = .error stop) :
    runRequest console d r =
      { exitCode := (Failure.ofTrouble (.ofStop stop)).exitCode
        out := String.join ((announcement r).map console.out)
        err := logText ((compileRequest d r).events.filterMap (Event.shown? r.verbose)) ++
          console.err (Failure.ofTrouble (.ofStop stop)).text
        disk := d } := by
  unfold outcome at h
  unfold runRequest
  generalize compileRequest d r = compilation at h ⊢
  simp only [h]

theorem runRequest_of_ok {lines : List String} {d' : Disk} (h : outcome d r = .ok (lines, d')) :
    (runRequest console d r).disk = d' ∧ (runRequest console d r).exitCode = 0 := by
  unfold outcome at h
  unfold runRequest
  generalize compileRequest d r = compilation at h ⊢
  simp only [h, and_self]

theorem finish_of_written {c : Compiled} {d' : Disk} (writes : r.ast = false)
    (written : d.write r.outputPath (Utf8.encode c.assembly.toList) = .ok d') :
    finish d r c = .ok (report r c, d') := by
  simp only [finish, writes, written, Bool.false_eq_true, ↓reduceIte]

theorem finish_of_fault {c : Compiled} {fault : FileFault} (writes : r.ast = false)
    (fails : d.write r.outputPath (Utf8.encode c.assembly.toList) = .error fault) :
    finish d r c = .error (.unwritable r.outputPath fault) := by
  simp only [finish, writes, fails, Bool.false_eq_true, ↓reduceIte]

/-- Only a write of the assembly changes the disk. -/
theorem exists_write_of_disk_ne (h : (runRequest console d r).disk ≠ d) :
    ∃ c, (compileRequest d r).result = .ok c ∧ r.ast = false ∧
      d.write r.outputPath (Utf8.encode c.assembly.toList) = .ok (runRequest console d r).disk := by
  have fails {stop : Stop} (ends : outcome d r = .error stop) : False := by
    rw [runRequest_of_error console ends] at h
    exact h rfl
  cases result : (compileRequest d r).result with
  | error stop => exact (fails (outcome_of_stop result)).elim
  | ok c =>
    have ends := outcome_of_compiled result
    cases ast : r.ast with
    | true =>
      rw [finish, ast, if_pos rfl] at ends
      exact absurd (runRequest_of_ok console ends).1 h
    | false =>
      cases written : d.write r.outputPath (Utf8.encode c.assembly.toList) with
      | error fault => exact (fails (ends.trans (finish_of_fault ast written))).elim
      | ok d' =>
        have disk := (runRequest_of_ok console (ends.trans (finish_of_written ast written))).1
        exact ⟨c, rfl, rfl, by rw [written, disk]⟩

/-- A request that is refused shows its diagnostic. -/
theorem runRequest_of_refused {diagnostic : Diagnostic}
    (h : (compileRequest d r).result = .error (.refused diagnostic)) :
    (runRequest console d r).exitCode = 1 ∧ (runRequest console d r).disk = d ∧
      (r.verbose = false → (runRequest console d r).err = console.err diagnostic.text) := by
  have silent : (compileRequest d r).events.filterMap (Event.shown? false) = [] :=
    List.filterMap_eq_nil_iff.mpr (compileFile_silent h)
  have code : (Failure.ofTrouble (.ofStop (.refused diagnostic))).exitCode = 1 := rfl
  have text : (Failure.ofTrouble (.ofStop (.refused diagnostic))).text = diagnostic.text := rfl
  have nothing : logText [] = "" := rfl
  simp only [runRequest_of_error console (outcome_of_stop h), code, text, true_and]
  intro quiet
  rw [quiet, silent, nothing, String.empty_append]

/-- **A run changes at most its output file**, whatever reads its arguments and shows its
messages. Arguments that make no request leave the disk alone. Of a request, every trail
but that of the output has behind the run what it had before. The disk changes only if
the input is compiled, no tree is asked for and the output can be written; and then the
output holds the assembly in UTF-8, and the exit code is 0. A request whose program or
`include` line is refused has exit code 1 and changes nothing, and on the error stream is
the diagnostic as the console shows it, unless the request is verbose. -/
theorem run_changes_output_only (front : FrontEnd) (console : Console) (d : Disk)
    (words : List String) :
    (∀ answer, front d words = .error answer → (run front console d words).disk = d) ∧
    ∀ r, front d words = .ok r →
      ((run front console d words).disk.workDir = d.workDir ∧
        ∀ t, d.trailOf r.outputPath.text ≠ .ok t →
          (run front console d words).disk.entryAt? t = d.entryAt? t) ∧
      ((run front console d words).disk ≠ d → ∃ c,
        (compileRequest d r).result = .ok c ∧ r.ast = false ∧
          d.write r.outputPath c.assembly.toUTF8.data.toList =
            .ok (run front console d words).disk) ∧
      (∀ c d', (compileRequest d r).result = .ok c → r.ast = false →
        d.write r.outputPath c.assembly.toUTF8.data.toList = .ok d' →
        (run front console d words).disk = d' ∧
          d'.find r.outputPath.text = .ok (.file c.assembly.toUTF8.data.toList) ∧
          (run front console d words).exitCode = 0) ∧
      ∀ diagnostic, (compileRequest d r).result = .error (.refused diagnostic) →
        (run front console d words).exitCode = 1 ∧ (run front console d words).disk = d ∧
        (r.verbose = false →
          (run front console d words).err = console.err diagnostic.text ∧
          (Text.escape ∉ diagnostic.text.toList →
            (run front console d words).err = diagnostic.text ++ "\n")) := by
  refine ⟨fun answer reads => ?_, fun r reads => ?_⟩
  · simp only [run, reads]
  have runs : run front console d words = runRequest console d r := by
    simp only [run, reads]
  rw [runs]
  refine ⟨?_, ?_, ?_, ?_⟩
  · by_cases same : (runRequest console d r).disk = d
    · rw [same]
      exact ⟨rfl, fun _ _ => rfl⟩
    · obtain ⟨c, -, -, written⟩ := exists_write_of_disk_ne console same
      exact ⟨Disk.workDir_write written, fun t => Disk.entryAt?_write_of_ne written⟩
  · intro changed
    obtain ⟨c, result, ast, written⟩ := exists_write_of_disk_ne console changed
    rw [Utf8.encode_toList] at written
    exact ⟨c, result, ast, written⟩
  · intro c d' result ast written
    rw [← Utf8.encode_toList] at written ⊢
    obtain ⟨disk, exitCode⟩ := runRequest_of_ok console
      ((outcome_of_compiled result).trans (finish_of_written ast written))
    exact ⟨disk, Disk.find_write written rfl, exitCode⟩
  · intro diagnostic result
    obtain ⟨exitCode, disk, shown⟩ := runRequest_of_refused console result
    exact ⟨exitCode, disk, fun quiet => ⟨shown quiet, fun plain =>
      (shown quiet).trans (console.err_plain _ plain)⟩⟩

/-- A request whose assembly is known is compiled. -/
theorem exists_compiled {text : String}
    (h : (compileRequest d r).result.map (·.assembly) = .ok text) :
    ∃ c, (compileRequest d r).result = .ok c ∧ c.assembly = text := by
  cases result : (compileRequest d r).result with
  | error stop =>
    rw [result] at h
    cases h
  | ok c =>
    rw [result] at h
    exact ⟨c, rfl, Except.ok.inj h⟩

/-- A main file, a file that it includes and an old output. -/
def blinkFiles : Disk where
  entries :=
    [(["w", "blink.tc"], "include pins.tc\nled := 5"), (["w", "lib", "pins.tc"], "int led"),
     (["w", "blink.asm"], "old")].map fun f => (f.1, .file (Utf8.encode f.2.toList))
  workDir := ["w"]

def blinkRequest : Request where
  input := ⟨"", ["blink.tc"]⟩
  includes := [⟨"", ["lib"]⟩]

/-- The output is replaced, and the sources stay. -/
theorem run_changes_output_only_blink :
    let console := Console.ofTerminals false false
    let blink := run (readWords console) console blinkFiles ["-I", "lib", "blink.tc"]
    readWords console blinkFiles ["-I", "lib", "blink.tc"] = .ok blinkRequest ∧
      blink.exitCode = 0 ∧
      blink.disk.find "blink.asm" =
        .ok (.file ("include reg8051.inc\nmain:\nmov 081h, #07Fh\nled data 031h\n" ++
          "mov 031h, #5\njmp main\nend\n").toUTF8.data.toList) ∧
      ∀ t, t ≠ ["w", "blink.asm"] → blink.disk.entryAt? t = blinkFiles.entryAt? t := by
  intro console blink
  have reads : readWords console blinkFiles ["-I", "lib", "blink.tc"] = .ok blinkRequest := by
    decide +kernel
  have output : blinkRequest.outputPath.text = "blink.asm" := by decide +kernel
  have trail : blinkFiles.trailOf "blink.asm" = .ok ["w", "blink.asm"] := by decide +kernel
  have entry : blinkFiles.entryAt? ["w", "blink.asm"] ≠ some .directory := by decide +kernel
  have compiles : (compileRequest blinkFiles blinkRequest).result.map (·.assembly) =
      .ok ("include reg8051.inc\nmain:\nmov 081h, #07Fh\nled data 031h\n" ++
        "mov 031h, #5\njmp main\nend\n") := by
    decide +kernel
  obtain ⟨⟨-, elsewhere⟩, -, written, -⟩ :=
    (run_changes_output_only (readWords console) console blinkFiles ["-I", "lib", "blink.tc"]).2
      blinkRequest reads
  rw [output] at elsewhere
  obtain ⟨c, result, assembly⟩ := exists_compiled compiles
  obtain ⟨disk, found, exitCode⟩ := written c _ result rfl (Disk.write_eq_ok.mpr
    ⟨["w", "blink.asm"], output ▸ trail, ⟨entry, by decide⟩, rfl⟩)
  rw [← disk, output, assembly] at found
  refine ⟨reads, exitCode, found, fun t other => elsewhere t fun same => other ?_⟩
  rw [trail] at same
  exact (Except.ok.inj same).symm

/-- A program with one command, in red. -/
def redFile : Disk where
  entries := [(["w", "red.tc"], .file (Utf8.encode "\x1b[31mx".toList))]
  workDir := ["w"]

/-- Where the error stream is no terminal, the diagnostic of a red command is not shown
in red. -/
theorem run_shows_red_plain :
    let console := Console.ofTerminals false false
    let red := run (readWords console) console redFile ["red.tc"]
    ∃ r diagnostic, readWords console redFile ["red.tc"] = .ok r ∧ r.verbose = false ∧
      (compileRequest redFile r).result = .error (.refused diagnostic) ∧
      red.err = "red.tc:1: error: unknown command 'x'\n    x\n" ∧
      red.err ≠ diagnostic.text ++ "\n" := by
  intro console red
  have reads : readWords console redFile ["red.tc"] = .ok { input := ⟨"", ["red.tc"]⟩ } := by
    decide +kernel
  have refused : (compileRequest redFile { input := ⟨"", ["red.tc"]⟩ }).result.map (·.assembly) =
      .error (.refused
        { cause := .unknownCommand "\x1b[31mx"
          location := some ⟨"red.tc", 1, 0⟩
          sourceLine := some "\x1b[31mx" }) := by
    decide +kernel
  cases result : (compileRequest redFile { input := ⟨"", ["red.tc"]⟩ }).result with
  | ok c =>
    rw [result] at refused
    cases refused
  | error stop =>
    rw [result] at refused
    cases refused
    have runs : red = runRequest console redFile { input := ⟨"", ["red.tc"]⟩ } := by
      simp only [red, run, reads]
    have shown : red.err = "red.tc:1: error: unknown command 'x'\n    x\n" := by
      rw [runs, (runRequest_of_refused console result).2.2 rfl]
      decide +kernel
    exact ⟨_, _, reads, rfl, result, shown, by rw [shown]; decide +kernel⟩

end CommandLine
end Micro51
