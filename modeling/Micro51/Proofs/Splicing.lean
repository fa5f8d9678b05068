/- # Every spliced line knows where it comes from

The lines of a file, each `include` line replaced by the lines of the file it
names, and so on down: `Spliced` says this of a list of lines and their origins
without a word about circles. What the splicing yields is such a list, and the
origin of each line is exact: the file has that line under that number, and it
is no `include` line.

The spliced lines are joined to one text and cut into lines again, which can
lose an empty last line and nothing else. So a diagnostic about a line of the
text is about a spliced line, and can be moved to its origin.

Key definitions: `Spliced`, `Contributes`, `ComesFrom`, `Search.spliceFrom`.
Key theorems: `Text.lines_joinLines`, `Search.spliced_of_spliceFrom`,
`Search.comesFrom_of_expand`, `Search.lines_splicedText`, `origins_exact`.
-/
import Micro51.Proofs.DiskWrites
import Micro51.Proofs.Located

namespace Micro51

open Outcome

/-! ### Lines joined and cut again -/

namespace Text

/-- A text on one line. -/
def Unbroken (t : Text) : Prop := ∀ c ∈ t, isLineEnd c = false

theorem linesAfter_cons {c : Char} (h : isLineEnd c = false) (line t : Text) :
    linesAfter line (c :: t) = linesAfter (c :: line) t := by
  have hr : c ≠ '\r' := by
    rintro rfl
    cases h
  rw [linesAfter, h]
  · rfl
  · exact fun _ e _ => hr e

theorem linesAfter_end {c : Char} (h : isLineEnd c = true) (line t : Text) :
    ∃ t', linesAfter line (c :: t) = line.reverse :: linesAfter [] t' ∧ t'.length ≤ t.length := by
  by_cases hr : ∃ t', c = '\r' ∧ t = '\n' :: t'
  · obtain ⟨t', rfl, rfl⟩ := hr
    exact ⟨t', rfl, Nat.le_succ _⟩
  · refine ⟨t, ?_, Nat.le_refl _⟩
    rw [linesAfter, if_pos h]
    exact fun t' e e' => hr ⟨t', e, e'⟩

/-- An unbroken text in front goes to the line that is being read. -/
theorem linesAfter_append {l : Text} (h : Unbroken l) (line t : Text) :
    linesAfter line (l ++ t) = linesAfter (l.reverse ++ line) t := by
  induction l generalizing line with
  | nil => rfl
  | cons c l ih =>
    obtain ⟨hc, hl⟩ := List.forall_mem_cons.mp h
    rw [List.cons_append, linesAfter_cons hc, ih hl, List.reverse_cons, List.append_assoc]
    rfl

/-- The lines of a text are unbroken. -/
theorem unbroken_of_mem_linesAfter {t line l : Text} (open_ : Unbroken line)
    (hl : l ∈ linesAfter line t) : Unbroken l := by
  have closed {l : Text} (h : l = line.reverse) : Unbroken l := by
    rw [h]
    exact fun c hc => open_ c (List.mem_reverse.mp hc)
  match t with
  | [] =>
    rw [linesAfter] at hl
    split at hl
    · cases hl
    · exact closed (List.mem_singleton.mp hl)
  | c :: t =>
    cases hc : isLineEnd c with
    | false =>
      rw [linesAfter_cons hc] at hl
      exact unbroken_of_mem_linesAfter (List.forall_mem_cons.mpr ⟨hc, open_⟩) hl
    | true =>
      obtain ⟨t', h, shorter⟩ := linesAfter_end hc line t
      rw [h] at hl
      rcases List.mem_cons.mp hl with hl | hl
      · exact closed hl
      · exact unbroken_of_mem_linesAfter (List.forall_mem_nil _) hl
termination_by t.length

theorem unbroken_of_mem_lines {t l : Text} (h : l ∈ lines t) : Unbroken l :=
  unbroken_of_mem_linesAfter (List.forall_mem_nil _) h

/-- Unbroken lines, joined and cut again: an empty last one gets lost. -/
theorem lines_joinLines : ∀ {ls : List Text}, (∀ l ∈ ls, Unbroken l) →
    lines (joinLines ls) = if ls.getLast? = some [] then ls.dropLast else ls
  | [], _ => rfl
  | [l], h => by
    have hl := linesAfter_append (h l List.mem_cons_self) [] []
    rw [List.append_nil, List.append_nil] at hl
    rw [lines, joinLines, hl, linesAfter]
    cases l with
    | nil => rfl
    | cons c l => simp
  | l :: l' :: ls, h => by
    obtain ⟨hl, hls⟩ := List.forall_mem_cons.mp h
    have rest := lines_joinLines hls
    rw [lines] at rest
    rw [lines, joinLines.eq_3, linesAfter_append hl, List.append_nil]
    rw [linesAfter, if_pos (by rfl), List.reverse_reverse, rest, List.getLast?_cons_cons]
    · split <;> simp
    · exact fun _ e => absurd e (by decide)
    · exact List.cons_ne_nil _ _

end Text

/-! ### What an `include` line leads to -/

namespace Search

variable {s : Search} {idle : List String} {file : String} {index : Nat} {line : Text}

/-- A line stands for itself if it is no `include` line. -/
theorem inclusion?_eq_none :
    s.inclusion? idle file index line = .ok none ↔ includeName? line = none := by
  constructor
  · intro h
    cases hn : includeName? line with
    | none => rfl
    | some name =>
      simp only [inclusion?, hn] at h
      repeat' split at h
      all_goals cases h
  · intro h
    rw [inclusion?, h]

/-- An `include` line stands for a file that is found, is idle and can be
read. -/
theorem inclusion?_eq_some {path : Path} {text : Text} :
    s.inclusion? idle file index line = .ok (some (path, text)) ↔
      ∃ name bytes, includeName? line = some name ∧ name ≠ [] ∧
        s.locate file (String.ofList name) = .ok (some path) ∧ s.key path.text ∈ idle ∧
        s.disk.read path = .ok bytes ∧ fileText bytes = .ok text := by
  constructor
  · intro h
    cases hn : includeName? line with
    | none =>
      rw [inclusion?, hn] at h
      cases h
    | some name =>
      simp only [inclusion?, hn] at h
      split at h
      · cases h
      · next named =>
        split at h
        · cases h
        · cases h
        · next path' found =>
          split at h
          · next isIdle =>
            split at h
            · cases h
            · next bytes opens =>
              split at h
              · cases h
              · next reads =>
                cases h
                exact ⟨name, bytes, rfl, by simpa using named, found, isIdle, opens, reads⟩
          · cases h
  · rintro ⟨name, bytes, names, named, found, isIdle, opens, reads⟩
    have named : name.isEmpty = false := by simpa using named
    simp only [inclusion?, names, named, found, isIdle, opens, reads, Bool.false_eq_true, ↓reduceIte]

/-- The splices that one line of a file stands for. -/
def spliceLine (s : Search) (idle : List String) (file : String) (index : Nat) (line : Text) :
    Splicing (List Splice) :=
  match s.inclusion? idle file index line with
  | .error stop => throw stop
  | .ok none => return [⟨line, ⟨file, index + 1, 0⟩⟩]
  | .ok (some (path, text)) => do
    modify (· ++ [.including path.text ⟨file, index + 1, 0⟩])
    s.splice (without idle (s.key path.text)) path.text (Text.lines text)

/-- The splices that the lines of a file from line `index` on stand for. -/
def spliceFrom (s : Search) (idle : List String) (file : String) (index : Nat) :
    List Text → Splicing (List Splice)
  | [] => pure []
  | line :: lines => do
    let first ← s.spliceLine idle file index line
    let rest ← spliceFrom s idle file (index + 1) lines
    return first ++ rest

/-- Splicing goes line by line. -/
theorem splice_eq (s : Search) (idle : List String) (file : String) (lines : List Text) :
    s.splice idle file lines = s.spliceFrom idle file 0 lines := by
  have fromLine (lines : List Text) (index : Nat) : (do
      return (← (lines.zipIdx index).mapM fun numbered =>
        s.spliceLine idle file numbered.2 numbered.1).flatten) =
        s.spliceFrom idle file index lines := by
    induction lines generalizing index with
    | nil => rfl
    | cons line lines ih =>
      simp only [List.zipIdx_cons, List.mapM_cons, bind_assoc, pure_bind, List.flatten_cons,
        spliceFrom, ← ih]
  rw [← fromLine, splice]
  congr 1
  congr 1
  funext ⟨line, index⟩
  simp only [spliceLine]
  split <;> simp_all

end Search

/-! ### The splice of files -/

/-- The lines of a file from line `index` on, with every `include` line replaced
by the splice of the file that it leads to. -/
inductive Spliced (s : Search) : String → Nat → List Text → List Splice → Prop where
  | nil {file : String} {index : Nat} : Spliced s file index [] []
  | line {file : String} {index : Nat} {line : Text} {lines : List Text} {out : List Splice}
      (other : includeName? line = none) (rest : Spliced s file (index + 1) lines out) :
      Spliced s file index (line :: lines) (⟨line, ⟨file, index + 1, 0⟩⟩ :: out)
  | file {file : String} {index : Nat} {line name text : Text} {lines : List Text} {path : Path}
      {bytes : List UInt8} {part out : List Splice} (names : includeName? line = some name)
      (found : s.locate file (String.ofList name) = .ok (some path))
      (opens : s.disk.read path = .ok bytes) (reads : fileText bytes = .ok text)
      (inner : Spliced s path.text 0 (Text.lines text) part)
      (rest : Spliced s file (index + 1) lines out) :
      Spliced s file index (line :: lines) (part ++ out)

/-- The files that are spliced into the text `source` of the file `main`, each
with its text: the main file, and what an `include` line in one of them leads
to. -/
inductive Contributes (s : Search) (main : String) (source : Text) : String → Text → Prop where
  | main : Contributes s main source main source
  | included {file : String} {text line name inner : Text} {path : Path} {bytes : List UInt8}
      (outer : Contributes s main source file text) (inside : line ∈ Text.lines text)
      (names : includeName? line = some name)
      (found : s.locate file (String.ofList name) = .ok (some path))
      (opens : s.disk.read path = .ok bytes) (reads : fileText bytes = .ok inner) :
      Contributes s main source path.text inner

/-- The text that a file of the disk has. -/
def Disk.Holds (d : Disk) (file : String) (text : Text) : Prop :=
  ∃ bytes, d.find file = .ok (.file bytes) ∧ fileText bytes = .ok text

/-- The line stands at the place in one of the files that are spliced into
`source`, and is no `include` line. Of the main file the text is `source`, and of
every other file it is what the disk holds. -/
structure ComesFrom (s : Search) (main : String) (source : Text) (place : Location) (line : Text) :
    Prop where
  stands : ∃ (text : Text) (k : Nat), Contributes s main source place.file text ∧
    (if place.file = main then text = source else s.disk.Holds place.file text) ∧
    place = ⟨place.file, k + 1, 0⟩ ∧ (Text.lines text)[k]? = some line
  notInclude : includeName? line = none

namespace Search

variable {s : Search}

/-- A line that is spliced is a line that stands for itself, or leads to a file
whose lines are spliced. -/
theorem spliceLine_eq_ok {idle : List String} {file : String} {index : Nat} {line : Text}
    {part : List Splice} {before after : List Event}
    (h : s.spliceLine idle file index line before = .ok part after) :
    (includeName? line = none ∧ part = [⟨line, ⟨file, index + 1, 0⟩⟩]) ∨
      ∃ name path bytes text, includeName? line = some name ∧
        s.locate file (String.ofList name) = .ok (some path) ∧
        (s.disk.read path = .ok bytes ∧ fileText bytes = .ok text) ∧ s.key path.text ∈ idle ∧
        s.spliceFrom (without idle (s.key path.text)) path.text 0 (Text.lines text)
          (before ++ [.including path.text ⟨file, index + 1, 0⟩]) = .ok part after := by
  cases leads : s.inclusion? idle file index line with
  | error stop =>
    rw [spliceLine, leads] at h
    exact absurd h throw_eq_ok
  | ok found =>
    cases found with
    | none =>
      simp only [spliceLine, leads, pure_eq_ok] at h
      exact .inl ⟨inclusion?_eq_none.mp leads, h.1.symm⟩
    | some inner =>
      obtain ⟨path, text⟩ := inner
      obtain ⟨name, bytes, names, -, found, isIdle, opens, reads⟩ := inclusion?_eq_some.mp leads
      simp only [spliceLine, leads, modify_bind, splice_eq] at h
      exact .inr ⟨name, path, bytes, text, names, found, ⟨opens, reads⟩, isIdle, h⟩

/-- What the splicing yields is the splice of the files. -/
theorem spliced_of_spliceFrom {idle : List String} {file : String} {lines : List Text} {index : Nat}
    {out : List Splice} {before after : List Event}
    (h : s.spliceFrom idle file index lines before = .ok out after) :
    Spliced s file index lines out := by
  match lines with
  | [] =>
    rw [spliceFrom, pure_eq_ok] at h
    rw [← h.1]
    exact .nil
  | line :: lines =>
    simp only [spliceFrom, bind_eq_ok, pure_eq_ok] at h
    obtain ⟨part, between, first, rest, _, later, rfl, rfl⟩ := h
    have later := spliced_of_spliceFrom later
    rcases spliceLine_eq_ok first with ⟨other, rfl⟩ |
      ⟨name, path, bytes, text, names, found, ⟨opens, reads⟩, isIdle, inner⟩
    · exact .line other later
    · exact .file names found opens reads (spliced_of_spliceFrom inner) later
termination_by (idle.length, lines.length)
decreasing_by
  · exact .right _ (Nat.lt_succ_self _)
  · exact .left _ _ (length_without_lt isIdle)

/-- The origins of spliced lines, in a file that contributes: each is a place of
that file, or of one that was idle. -/
theorem origin_of_spliceFrom {main : String} {source : Text} {idle : List String} {file : String}
    {text : Text} {lines : List Text} {index : Nat} {out : List Splice} {before after : List Event}
    (contributes : Contributes s main source file text)
    (lines_eq : (Text.lines text).drop index = lines)
    (h : s.spliceFrom idle file index lines before = .ok out after) :
    ∀ x ∈ out, includeName? x.line = none ∧
      ∃ f t, Contributes s main source f t ∧
        ((f = file ∧ t = text) ∨ (s.key f ∈ idle ∧ s.disk.Holds f t)) ∧
        ∃ k : Nat, x.origin = ⟨f, k + 1, 0⟩ ∧ (Text.lines t)[k]? = some x.line := by
  match lines with
  | [] =>
    rw [spliceFrom, pure_eq_ok] at h
    rw [← h.1]
    exact List.forall_mem_nil _
  | line :: lines =>
    simp only [spliceFrom, bind_eq_ok, pure_eq_ok] at h
    obtain ⟨part, between, first, rest, _, later, rfl, rfl⟩ := h
    have here : (Text.lines text)[index]? = some line := by
      rw [← List.head?_drop, lines_eq]
      rfl
    have behind : (Text.lines text).drop (index + 1) = lines := by
      rw [← List.drop_drop, lines_eq]
      rfl
    refine List.forall_mem_append.mpr ⟨?_, origin_of_spliceFrom contributes behind later⟩
    rcases spliceLine_eq_ok first with ⟨other, rfl⟩ |
      ⟨name, path, bytes, inner, names, found, ⟨opens, reads⟩, isIdle, splices⟩
    · exact List.forall_mem_singleton.mpr
        ⟨other, file, text, contributes, .inl ⟨rfl, rfl⟩, index, rfl, here⟩
    · have included : Contributes s main source path.text inner :=
        .included contributes (List.mem_of_getElem? here) names found opens reads
      intro x hx
      obtain ⟨other, f, t, hf, from_, place⟩ :=
        origin_of_spliceFrom included (List.drop_zero ..) splices x hx
      refine ⟨other, f, t, hf, .inr ?_, place⟩
      rcases from_ with ⟨rfl, rfl⟩ | ⟨hk, holds⟩
      · exact ⟨isIdle, bytes, Disk.find_of_read opens, reads⟩
      · exact ⟨List.mem_of_mem_filter hk, holds⟩
termination_by (idle.length, lines.length)
decreasing_by
  · exact .left _ _ (length_without_lt isIdle)
  · exact .right _ (Nat.lt_succ_self _)

variable {source : Text} {file : String} {splices : List Splice} {before after : List Event}

theorem spliceFrom_of_expand (h : s.expand source file before = .ok splices after) :
    s.spliceFrom (without (s.keys file (Text.lines source)) (s.key file)) file 0
      (Text.lines source) before = .ok splices after := by
  rw [← splice_eq]
  exact h

/-- Every line of an expanded text comes from its origin. -/
theorem comesFrom_of_expand (h : s.expand source file before = .ok splices after) :
    ∀ x ∈ splices, ComesFrom s file source x.origin x.line := by
  intro x hx
  obtain ⟨other, f, t, hf, from_, k, place, here⟩ :=
    origin_of_spliceFrom .main rfl (spliceFrom_of_expand h) x hx
  have notMain (hk : s.key f ∈ without (s.keys file (Text.lines source)) (s.key file)) :
      f ≠ file := by
    rintro rfl
    simp [without] at hk
  rw [place]
  refine ⟨⟨t, k, hf, ?_, rfl, here⟩, other⟩
  rcases from_ with ⟨rfl, rfl⟩ | ⟨hk, holds⟩
  · rw [if_pos rfl]
  · rw [if_neg (notMain hk)]
    exact holds

/-- The lines of the expanded text are the spliced lines, up to an empty last
one. -/
theorem lines_splicedText (h : s.expand source file before = .ok splices after) :
    splices.map (·.line) = Text.lines (splicedText splices) ∨
      splices.map (·.line) = Text.lines (splicedText splices) ++ [[]] := by
  have unbroken (l : Text) (hl : l ∈ splices.map (·.line)) : Text.Unbroken l := by
    obtain ⟨x, hx, rfl⟩ := List.mem_map.mp hl
    obtain ⟨⟨t, k, -, -, -, here⟩, -⟩ := comesFrom_of_expand h x hx
    exact Text.unbroken_of_mem_lines (List.mem_of_getElem? here)
  rw [splicedText, Text.lines_joinLines unbroken]
  split
  · next last =>
    obtain ⟨front, whole⟩ := List.getLast?_eq_some_iff.mp last
    rw [whole, List.dropLast_concat]
    exact .inr rfl
  · exact .inl rfl

end Search

/-! ### Diagnostics at their origins -/

/-- A diagnostic about a line of the spliced text moves to the origin of that
line and keeps its source line. -/
theorem toOrigin_eq {splices : List Splice} {d : Diagnostic} {file : String} {i : Nat} {x : Splice}
    (location : d.location = some ⟨file, i + 1, 0⟩) (hx : splices[i]? = some x) :
    (toOrigin splices d).location = some x.origin ∧
      (toOrigin splices d).sourceLine = d.sourceLine := by
  simp only [toOrigin, Diagnostic.lineIndex_eq location, Int.not_ofNat_neg, ↓reduceIte,
    Int.toNat_natCast, hx, Placed.relocate, true_and]
  rfl

/-- **Origins are exact.** If the included files can be spliced in, the lines of the
text are the spliced lines, up to an empty last one. So there are at least as many
origins as lines of the text, and each line comes from its origin; the lines are the
splice of the files, in order and in depth. A file that is then refused is refused
at a line of the file that the diagnostic names, and the diagnostic shows that line
without the blanks around it; nothing else breaks the compilation off, except that a
line has more digits than a number can have. -/
theorem origins_exact {s : Search} {source : Text} {file : String} {splices : List Splice}
    {before after : List Event} (h : s.expand source file before = .ok splices after) :
    (splices.map (·.line) = Text.lines (splicedText splices) ∨
        splices.map (·.line) = Text.lines (splicedText splices) ++ [[]]) ∧
      (Text.lines (splicedText splices)).length ≤ (splices.map (·.origin)).length ∧
      (∀ (i : Nat) (line : Text), (Text.lines (splicedText splices))[i]? = some line →
        ∃ place, (splices.map (·.origin))[i]? = some place ∧ ComesFrom s file source place line) ∧
      Spliced s file 0 (Text.lines source) splices ∧
      (∀ (o : Options) (stop : Stop), readSource s.disk file = (before, source) →
        (compileFile s o file).result = .error stop →
        (∃ d place line, stop = .refused d ∧ d.location = some place ∧
          ComesFrom s file source place line ∧
          d.sourceLine = some (String.ofList (Text.trim line))) ∨
        ∃ n, stop = .overlong n ∧ Text.digitLimit < n ∧
          ∃ line ∈ Text.lines (splicedText splices), n ≤ Text.digitCount line) := by
  have whole := Search.lines_splicedText h
  have lines : Text.lines (splicedText splices) <+: splices.map (·.line) := by
    rcases whole with same | longer
    · exact same ▸ List.prefix_rfl
    · rw [longer]
      exact List.prefix_append ..
  have spliced {i : Nat} {line : Text} (hi : (Text.lines (splicedText splices))[i]? = some line) :
      ∃ x ∈ splices, splices[i]? = some x ∧ x.line = line := by
    obtain ⟨lt, rfl⟩ := List.getElem?_eq_some_iff.mp hi
    have hi := List.getElem?_eq_getElem (lines.length_le.trans_lt' lt)
    rw [← lines.getElem lt, List.getElem?_map] at hi
    obtain ⟨x, hx, hl⟩ := Option.map_eq_some_iff.mp hi
    exact ⟨x, List.mem_of_getElem? hx, hx, hl⟩
  refine ⟨whole, ?_, ?_, Search.spliced_of_spliceFrom (Search.spliceFrom_of_expand h), ?_⟩
  · simpa using lines.length_le
  · intro i line hi
    obtain ⟨x, member, hx, rfl⟩ := spliced hi
    exact ⟨x.origin, by simp [hx], Search.comesFrom_of_expand h x member⟩
  · intro o stop main refused
    simp only [compileFile, main, h] at refused
    cases result : (compileSource o (splicedText splices) file).result with
    | ok c =>
      rw [result] at refused
      cases refused
    | error inner =>
      rw [result] at refused
      obtain rfl : inner.toOrigin splices = stop := Except.error.inj refused
      rcases compileSource_stop result with ⟨d, i, line, rfl, -, hi, location, text⟩ |
        ⟨n, rfl, exceeded⟩
      · obtain ⟨x, member, hx, rfl⟩ := spliced hi
        obtain ⟨moved, kept⟩ := toOrigin_eq location hx
        exact .inl ⟨_, x.origin, x.line, rfl, moved, Search.comesFrom_of_expand h x member,
          kept.trans text⟩
      · exact .inr ⟨n, rfl, exceeded⟩

/-- Three files: the main one includes the other two, one of which includes the
other. -/
def ledFiles : Disk where
  entries :=
    [(["w", "main.tc"], "include lib/led.tc\nint n := 3\ninclude lib/pins.tc ; again\n"),
     (["w", "lib", "led.tc"], "; leds\ninclude pins.tc\nbool lit\n"),
     (["w", "lib", "pins.tc"], "  int pin := 5\n")].map fun f => (f.1, .file (Utf8.encode f.2.toList))
  workDir := ["w"]

/-- The second time its line is spliced in, the included file is refused there. -/
theorem origins_exact_pinsTwice :
    ∃ source splices line, readSource ledFiles "main.tc" = ([], source) ∧
      (splices.map fun x : Splice => x.origin.text) =
        ["lib/led.tc:1", "lib/pins.tc:1", "lib/led.tc:3", "main.tc:2", "lib/pins.tc:1"] ∧
      Spliced ⟨ledFiles, []⟩ "main.tc" 0 (Text.lines source) splices ∧
      (compileFile ⟨ledFiles, []⟩ {} "main.tc").result = .error (.refused
        ⟨.alreadyExists "pin", some ⟨"lib/pins.tc", 1, 0⟩, some "int pin := 5"⟩) ∧
      ComesFrom ⟨ledFiles, []⟩ "main.tc" source ⟨"lib/pins.tc", 1, 0⟩ line ∧
      String.ofList (Text.trim line) = "int pin := 5" := by
  have read : (readSource ledFiles "main.tc").1 = [] := by decide +kernel
  have refused : (compileFile ⟨ledFiles, []⟩ {} "main.tc").result.map (fun _ => ()) =
      .error (.refused
        ⟨.alreadyExists "pin", some ⟨"lib/pins.tc", 1, 0⟩, some "int pin := 5"⟩) := by
    decide +kernel
  have spliced : (((Search.expand ⟨ledFiles, []⟩ (readSource ledFiles "main.tc").2 "main.tc").run'
      []).map fun splices => splices.map fun x => x.origin.text) =
      some ["lib/led.tc:1", "lib/pins.tc:1", "lib/led.tc:3", "main.tc:2", "lib/pins.tc:1"] := by
    decide +kernel
  cases result : (compileFile ⟨ledFiles, []⟩ {} "main.tc").result with
  | ok c =>
    rw [result] at refused
    cases refused
  | error stop =>
    rw [result] at refused
    cases refused
    cases expanded : Search.expand ⟨ledFiles, []⟩ (readSource ledFiles "main.tc").2 "main.tc" [] with
    | error stop events =>
      delta EStateM.run' EStateM.run at spliced
      rw [expanded] at spliced
      cases spliced
    | ok splices after =>
      delta EStateM.run' EStateM.run at spliced
      rw [expanded] at spliced
      obtain ⟨-, -, -, inOrder, located⟩ := origins_exact expanded
      rcases located {} _ (Prod.ext read rfl) result with
        ⟨d, place, line, same, location, origin, text⟩ | ⟨n, same, -⟩
      · obtain rfl := Stop.refused.inj same
        obtain rfl := Option.some.inj location
        exact ⟨_, splices, line, Prod.ext read rfl, Option.some.inj spliced, inOrder, rfl, origin,
          (Option.some.inj text).symm⟩
      · cases same

end Micro51
