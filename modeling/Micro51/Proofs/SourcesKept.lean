/- # A source is kept unless it is the output

The files that a request compiles are its input and the files that are included.
Without an output of its own a request writes beside the input, under the name
that the suffix of the input replaced gives, and does not ask whether a source
stands there. A source that stands elsewhere is kept. One that stands there is
replaced by the assembly; the input itself does so exactly if it has that suffix
already.

Key definitions: `CommandLine.Overwrites`.
Key theorems: `Path.stem_append_asm_iff`, `Disk.trailOf_withSuffix_iff`,
`CommandLine.find_input_of_readWords`, `CommandLine.sources_kept_unless_output`.
-/
import Micro51.Proofs.PathTexts
import Micro51.Proofs.Residue
import Micro51.Proofs.RunEffects

namespace Micro51

open Outcome

/-! ### The path with the suffix of assembly -/

namespace Text

theorem cutLast?_append {c : Char} {a b : Text} (h : c ∉ b) :
    cutLast? c (a ++ c :: b) = some (a, b) := by
  have back : (a ++ c :: b).reverse = b.reverse ++ c :: a.reverse := by simp
  have other : ∀ d ∈ b.reverse, (d != c) = true := by
    intro d hd
    rw [bne_iff_ne]
    rintro rfl
    exact h (List.mem_reverse.mp hd)
  have dropped : (b.reverse ++ c :: a.reverse).dropWhile (· != c) = c :: a.reverse := by
    rw [List.dropWhile_append_of_pos other, List.dropWhile_cons_of_neg (by simp)]
  have taken : (b.reverse ++ c :: a.reverse).takeWhile (· != c) = b.reverse := by
    rw [List.takeWhile_append_of_pos other, List.takeWhile_cons_of_neg (by simp), List.append_nil]
  simp only [cutLast?, back, dropped, taken, List.reverse_reverse]

end Text

namespace Path

variable {p : Path} {n : Nat}

theorem mem_of_mem_stem {name : String} {c : Char} (h : c ∈ (stem name).toList) :
    c ∈ name.toList := by
  unfold stem at h
  split at h
  · next before after cut =>
    split at h
    · exact h
    · rw [String.toList_ofList] at h
      rw [Text.eq_of_cutLast? cut]
      exact List.mem_append_left _ h
  · exact h

/-- A name is its stem and the suffix exactly if it ends in the suffix. -/
theorem stem_append_asm_iff (name : String) :
    stem name ++ ".asm" = name ↔ ∃ base, base ≠ "" ∧ name = base ++ ".asm" := by
  constructor
  · intro same
    refine ⟨stem name, fun none => ?_, same.symm⟩
    rw [none] at same
    rw [← same] at none
    exact absurd none (by decide)
  · rintro ⟨base, named, rfl⟩
    have chars : (base ++ ".asm").toList = base.toList ++ '.' :: ['a', 's', 'm'] := by
      rw [String.toList_append]
      rfl
    have filled : base.toList.isEmpty = false := by simpa using named
    have base' : stem (base ++ ".asm") = base := by
      simp only [stem, chars, Text.cutLast?_append (show '.' ∉ ['a', 's', 'm'] by decide), filled,
        List.isEmpty_cons, Bool.or_self, Bool.false_eq_true, ↓reduceIte, String.ofList_toList]
    rw [base']

theorem append_asm_ne {base short : String} (h : short.length < 4) : base ++ ".asm" ≠ short := by
  rintro rfl
  have four : ".asm".length = 4 := by decide
  rw [String.length_append, four] at h
  omega

theorem withSuffix_of_parts {before : List String} {name suffix : String}
    (parts : p.parts = before ++ [name]) :
    p.withSuffix suffix = ⟨p.root, before ++ [stem name ++ suffix]⟩ := by
  simp [withSuffix, parts]

theorem Plain.withSuffix (h : p.Plain n) : (p.withSuffix ".asm").Plain n := by
  cases last : p.parts.getLast? with
  | none =>
    rw [show p.withSuffix ".asm" = p by simp [Path.withSuffix, last]]
    exact h
  | some name =>
    obtain ⟨before, parts⟩ := List.getLast?_eq_some_iff.mp last
    rw [withSuffix_of_parts parts]
    refine ⟨⟨h.root, ?_⟩, h.slashes, h.atMost⟩
    have proper := h.parts
    rw [parts] at proper
    obtain ⟨front, back⟩ := List.forall_mem_append.mp proper
    obtain ⟨-, -, noSlash⟩ := List.forall_mem_singleton.mp back
    refine List.forall_mem_append.mpr ⟨front, List.forall_mem_singleton.mpr
      ⟨append_asm_ne (by decide), append_asm_ne (by decide), ?_⟩⟩
    rw [String.toList_append, List.mem_append, not_or]
    exact ⟨fun slash => noSlash (mem_of_mem_stem slash), by decide⟩

end Path

theorem Trail.step_of_name {t : Trail} {c : String} (empty : c ≠ "") (dot : c ≠ ".")
    (dots : c ≠ "..") : Trail.step t c = t ++ [c] := by
  simp [Trail.step, empty, dot, dots]

namespace Disk

variable {d : Disk} {p : Path} {n : Nat}

theorem absolute_concat (d : Disk) (root : String) (before : List String) (name : String) :
    d.absolute ⟨root, before ++ [name]⟩ = Trail.step (d.absolute ⟨root, before⟩) name := by
  simp only [absolute, List.foldl_append, List.foldl_cons, List.foldl_nil]

/-- A file stands where its path with the other suffix leads exactly if it has
that suffix. -/
theorem trailOf_withSuffix_iff {bytes : List UInt8} (plain : p.Plain n)
    (h : d.find p.text = .ok (.file bytes)) :
    d.trailOf p.text = d.trailOf (p.withSuffix ".asm").text ↔
      ∃ base, base ≠ "" ∧ p.parts.getLast? = some (base ++ ".asm") := by
  obtain ⟨name, last⟩ := Option.ne_none_iff_exists'.mp
    (mt List.getLast?_eq_none_iff.mp (parts_ne_nil_of_find plain h))
  obtain ⟨before, parts⟩ := List.getLast?_eq_some_iff.mp last
  have input : p = ⟨p.root, before ++ [name]⟩ := by rw [← parts]
  have output : p.withSuffix ".asm" = ⟨p.root, before ++ [Path.stem name ++ ".asm"]⟩ :=
    Path.withSuffix_of_parts parts
  simp only [last, Option.some.injEq, ← Path.stem_append_asm_iff]
  constructor
  · intro same
    obtain ⟨t, leads, -⟩ := find_eq_ok.mp h
    have here := absolute_of_trailOf_text plain leads
    have there := absolute_of_trailOf_text plain.withSuffix (same.symm.trans leads)
    rw [input, absolute_concat] at here
    rw [output, absolute_concat, Trail.step_of_name (Path.append_asm_ne (by decide))
      (Path.append_asm_ne (by decide)) (Path.append_asm_ne (by decide)), ← here] at there
    obtain ⟨empty, dot, -⟩ := plain.parts name (List.mem_of_getLast? last)
    by_cases dots : name = ".."
    · -- two dots lead up, and no file beside them is up there
      have up : Trail.step (d.absolute ⟨p.root, before⟩) name =
          (d.absolute ⟨p.root, before⟩).dropLast := by
        rw [dots]
        rfl
      have length := congrArg List.length (there.trans up)
      rw [List.length_append, List.length_dropLast, List.length_singleton] at length
      omega
    · rw [Trail.step_of_name empty dot dots] at there
      simpa using there
  · intro same
    rw [output, same, ← parts]

end Disk

/-! ### What a request does to its sources -/

namespace CommandLine

variable (console : Console) {d : Disk} {r : Request} {words : List String}

theorem find_of_checkInput {name : String} (h : checkInput d name = .ok ()) :
    ∃ bytes, d.find name = .ok (.file bytes) := by
  simp only [checkInput] at h
  split at h
  · next bytes found => exact ⟨bytes, found⟩
  · cases h
  · cases h

/-- **The front end of the command makes only requests whose input is a file.** So
what is said of such requests below is said of every run. -/
theorem find_input_of_readWords (h : readWords console d words = .ok r) :
    ∃ name bytes, r.input = Path.ofString name ∧ d.find r.input.text = .ok (.file bytes) := by
  unfold readWords at h
  simp only at h
  split at h
  · cases h
  · next items _ =>
    split at h
    · cases h
    · cases request : readRequest d items with
      | error fault =>
        rw [request] at h
        cases h
      | ok r' =>
        rw [request] at h
        obtain rfl : r' = r := Except.ok.inj h
        unfold readRequest at request
        obtain ⟨⟨⟩, -, request⟩ := except_bind_eq_ok.mp request
        split at request
        · cases request
        · next name extra _ =>
          obtain ⟨⟨⟩, checked, request⟩ := except_bind_eq_ok.mp request
          split at request
          · cases request
          · obtain ⟨bytes, found⟩ := find_of_checkInput checked
            obtain ⟨t, leads, file⟩ := Disk.find_eq_ok.mp found
            cases request
            exact ⟨name, bytes, rfl, Disk.find_eq_ok.mpr ⟨t, Disk.trailOf_text leads, file⟩⟩

/-- Every file that contributes is there. -/
theorem find_of_contributes {s : Search} {main file : String} {source text : Text}
    {bytes : List UInt8} (h : Contributes s main source file text)
    (input : s.disk.find main = .ok (.file bytes)) :
    ∃ bytes, s.disk.find file = .ok (.file bytes) := by
  cases h with
  | main => exact ⟨bytes, input⟩
  | included _ _ _ _ opens _ => exact ⟨_, Disk.find_of_read opens⟩

/-- The request writes its assembly over the file. -/
structure Overwrites (d : Disk) (r : Request) (c : Compiled) (file : String) : Prop where
  compiled : (compileRequest d r).result = .ok c
  writes : r.ast = false
  same : d.trailOf file = d.trailOf r.outputPath.text
  written : ∃ d', d.write r.outputPath (Utf8.encode c.assembly.toList) = .ok d'

theorem find_of_overwrites {c : Compiled} {file : String} (h : Overwrites d r c file) :
    (runRequest console d r).disk.find file = .ok (.file (Utf8.encode c.assembly.toList)) := by
  obtain ⟨d', written⟩ := h.written
  rw [(runRequest_of_ok console ((outcome_of_compiled h.compiled).trans
    (finish_of_written h.writes written))).1]
  exact Disk.find_write written h.same

theorem find_of_not_overwrites {file : String} {e : Entry} (h : ∀ c, ¬Overwrites d r c file)
    (found : d.find file = .ok e) : (runRequest console d r).disk.find file = .ok e := by
  by_cases same : (runRequest console d r).disk = d
  · rw [same, found]
  · obtain ⟨c, compiled, writes, written⟩ := exists_write_of_disk_ne console same
    exact Disk.find_write_of_ne written found fun same => h c ⟨compiled, writes, same, _, written⟩

/-- **A source is kept unless it is the output.** Every file that a request
compiles, its input or one whose lines are included, is there before the run. If
the request writes its assembly over the file, the assembly is what it holds
behind the run; otherwise it holds what it held. Where no output is named, the
output is the input exactly if the name of the input ends in the suffix of
assembly. -/
theorem sources_kept_unless_output (console : Console) (d : Disk) (r : Request) {name : String}
    {content : List UInt8} (input : r.input = Path.ofString name)
    (there : d.find r.input.text = .ok (.file content)) :
    (∀ file text,
      Contributes ⟨d, r.includes⟩ r.input.text (readSource d r.input.text).2 file text →
      ∃ bytes, d.find file = .ok (.file bytes) ∧
        ((∀ c, ¬Overwrites d r c file) →
          (runRequest console d r).disk.find file = .ok (.file bytes)) ∧
        ∀ c, Overwrites d r c file →
          (runRequest console d r).disk.find file = .ok (.file c.assembly.toUTF8.data.toList)) ∧
    (r.output = none →
      (d.trailOf r.input.text = d.trailOf r.outputPath.text ↔
        ∃ base, base ≠ "" ∧ r.input.parts.getLast? = some (base ++ ".asm"))) := by
  obtain ⟨n, plain, -⟩ := Path.plain_ofString name
  rw [← input] at plain
  constructor
  · intro file text contributes
    obtain ⟨bytes, found⟩ := find_of_contributes contributes there
    refine ⟨bytes, found, fun kept => find_of_not_overwrites console kept found,
      fun c replaced => ?_⟩
    rw [find_of_overwrites console replaced, Utf8.encode_toList]
  · intro default
    rw [Request.outputPath, default]
    exact Disk.trailOf_withSuffix_iff plain there

/-- A main file, and an included one where the output of the main file goes. -/
def overlapFiles : Disk where
  entries :=
    [(["w", "prog.tc"], "include prog.asm\nx := 1"), (["w", "prog.asm"], "int x")].map
      fun f => (f.1, .file (Utf8.encode f.2.toList))
  workDir := ["w"]

def overlapRequest : Request where
  input := ⟨"", ["prog.tc"]⟩

/-- The main file is kept, and the included one is lost. -/
theorem sources_kept_unless_output_overlap :
    let console := Console.ofTerminals false false
    let overlap := run (readWords console) console overlapFiles ["prog.tc"]
    readWords console overlapFiles ["prog.tc"] = .ok overlapRequest ∧
      overlapRequest.output = none ∧
      Contributes ⟨overlapFiles, []⟩ "prog.tc" "include prog.asm\nx := 1".toList
        "prog.asm" "int x".toList ∧
      overlap.disk.find "prog.tc" =
        .ok (.file (Utf8.encode "include prog.asm\nx := 1".toList)) ∧
      overlap.disk.find "prog.asm" =
        .ok (.file ("include reg8051.inc\nmain:\nmov 081h, #07Fh\nx data 031h\n" ++
          "mov 031h, #1\njmp main\nend\n").toUTF8.data.toList) := by
  intro console overlap
  have reads : readWords console overlapFiles ["prog.tc"] = .ok overlapRequest := by decide +kernel
  have runs : overlap = runRequest console overlapFiles overlapRequest := by
    simp only [overlap, run, reads]
  have input : overlapRequest.input.text = "prog.tc" := by decide +kernel
  have output : overlapRequest.outputPath.text = "prog.asm" := by decide +kernel
  have source : (readSource overlapFiles "prog.tc").2 = "include prog.asm\nx := 1".toList := by
    decide +kernel
  have apart : overlapFiles.trailOf "prog.tc" ≠ overlapFiles.trailOf "prog.asm" := by decide +kernel
  have trail : overlapFiles.trailOf "prog.asm" = .ok ["w", "prog.asm"] := by decide +kernel
  have free : overlapFiles.entryAt? ["w", "prog.asm"] ≠ some .directory ∧
      overlapFiles.fault? ["w", "prog.asm"] .write = none := by
    decide +kernel
  have held : overlapFiles.find "prog.tc" =
      .ok (.file (Utf8.encode "include prog.asm\nx := 1".toList)) := by
    decide +kernel
  have inside : "include prog.asm".toList ∈ Text.lines "include prog.asm\nx := 1".toList := by
    decide +kernel
  have names : includeName? "include prog.asm".toList = some "prog.asm".toList := by decide +kernel
  have located : Search.locate ⟨overlapFiles, []⟩ "prog.tc" (String.ofList "prog.asm".toList) =
      .ok (some (Path.ofString "prog.asm")) := by
    decide +kernel
  have opens : overlapFiles.read (Path.ofString "prog.asm") = .ok (Utf8.encode "int x".toList) := by
    decide +kernel
  have included : Contributes ⟨overlapFiles, []⟩ "prog.tc" "include prog.asm\nx := 1".toList
      "prog.asm" "int x".toList := by
    rw [show "prog.asm" = (Path.ofString "prog.asm").text by decide +kernel]
    exact .included .main inside names located opens (by decide +kernel)
  have compiles : (compileRequest overlapFiles overlapRequest).result.map (·.assembly) =
      .ok ("include reg8051.inc\nmain:\nmov 081h, #07Fh\nx data 031h\n" ++
        "mov 031h, #1\njmp main\nend\n") := by
    decide +kernel
  obtain ⟨sources, -⟩ := sources_kept_unless_output console overlapFiles overlapRequest
    (show overlapRequest.input = Path.ofString "prog.tc" by decide +kernel) (input ▸ held)
  rw [input, source, ← runs] at sources
  refine ⟨reads, rfl, included, ?_, ?_⟩
  · obtain ⟨bytes, found, kept, -⟩ := sources "prog.tc" _ .main
    rw [kept fun c replaced => apart (replaced.same.trans (by rw [output])), ← found, held]
  · obtain ⟨bytes, -, -, lost⟩ := sources "prog.asm" _ included
    obtain ⟨c, result, assembly⟩ := exists_compiled compiles
    rw [lost c ⟨result, rfl, by rw [output],
      _, Disk.write_eq_ok.mpr ⟨_, output ▸ trail, free, rfl⟩⟩, assembly]

/-- A main file that has the suffix of assembly. -/
def suffixedFile : Disk where
  entries := [(["w", "prog.asm"], .file (Utf8.encode "int x".toList))]
  workDir := ["w"]

/-- The assembly of such a file is written over it. -/
theorem run_overwrites_suffixed :
    let console := Console.ofTerminals false false
    let suffixed := run (readWords console) console suffixedFile ["prog.asm"]
    suffixedFile.find "prog.asm" = .ok (.file (Utf8.encode "int x".toList)) ∧
      suffixed.disk.find "prog.asm" =
        .ok (.file (Utf8.encode ("include reg8051.inc\nmain:\nmov 081h, #07Fh\n" ++
          "x data 031h\njmp main\nend\n").toList)) ∧
      suffixed.disk.find "prog.asm" ≠ suffixedFile.find "prog.asm" := by
  intro console suffixed
  have reads : readWords console suffixedFile ["prog.asm"] =
      .ok { input := ⟨"", ["prog.asm"]⟩ } := by
    decide +kernel
  have runs : suffixed = runRequest console suffixedFile { input := ⟨"", ["prog.asm"]⟩ } := by
    simp only [suffixed, run, reads]
  have held : suffixedFile.find "prog.asm" = .ok (.file (Utf8.encode "int x".toList)) := by
    decide +kernel
  have output : (Request.outputPath { input := ⟨"", ["prog.asm"]⟩ }).text = "prog.asm" := by
    decide +kernel
  have trail : suffixedFile.trailOf "prog.asm" = .ok ["w", "prog.asm"] := by decide +kernel
  have free : suffixedFile.entryAt? ["w", "prog.asm"] ≠ some .directory ∧
      suffixedFile.fault? ["w", "prog.asm"] .write = none := by
    decide +kernel
  have compiles : (compileRequest suffixedFile { input := ⟨"", ["prog.asm"]⟩ }).result.map
      (·.assembly) = .ok ("include reg8051.inc\nmain:\nmov 081h, #07Fh\n" ++
        "x data 031h\njmp main\nend\n") := by
    decide +kernel
  obtain ⟨c, result, assembly⟩ := exists_compiled compiles
  have overwritten : Overwrites suffixedFile { input := ⟨"", ["prog.asm"]⟩ } c "prog.asm" :=
    ⟨result, rfl, by rw [output], _, Disk.write_eq_ok.mpr ⟨_, output ▸ trail, free, rfl⟩⟩
  have lost := find_of_overwrites console overwritten
  rw [← runs, assembly] at lost
  refine ⟨held, lost, ?_⟩
  rw [held, lost]
  decide +kernel

end CommandLine
end Micro51
