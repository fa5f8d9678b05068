/- # Included files never run in a circle

The splicing keeps the keys of the files it may still include. Seen from
outside it is a machine with a stack of files, each spliced in up to some line
(`Progress`). The keys it may still include are, at every moment, those that a
file can have at all and that are not on the stack: so an `include` line is
refused as circular exactly if the file it leads to is on the stack. That there
are only finitely many keys is a matter of paths: a file on the disk has one
trail however its path is written, and a path in angle brackets can only come
from a fixed set of directories.

A search that meets a path of which the system does not say whether it is a file,
since it is too long or leads through a closed directory, stops there, and the
splicing with it, in a way that is neither a fault of the `include` line nor one
of the file's text.

Key definitions: `Path.Proper`, `OpenFile`, `Progress`, `Search.advance`,
`Search.ComesTo`, `Search.Watched`, `Search.Ends`, `Search.MeetsRefusal`.
Key theorems: `Disk.absolute_of_trailOf`, `Search.key_mem_keys`,
`Search.Watched.advance`, `Search.comesTo_of_spliceFrom`, `Search.Ends.unique`,
`Search.foreseen_iff`.
-/
import Mathlib.Logic.Relation
import Micro51.Proofs.Splicing

namespace Micro51

open Outcome

/-! ### Paths and their texts -/

namespace Text

/-- No part between the occurrences of a character holds it. -/
theorem notMem_of_mem_splitAt {c : Char} {p : Text} : ∀ {t : Text}, p ∈ splitAt c t → c ∉ p
  | [], h => by
    rw [List.mem_singleton.mp h]
    exact List.not_mem_nil
  | d :: t, h => by
    unfold splitAt at h
    split at h
    · rcases List.mem_cons.mp h with rfl | h
      · exact List.not_mem_nil
      · exact notMem_of_mem_splitAt h
    · next hd =>
      split at h
      · next hs =>
        rw [List.mem_singleton.mp h]
        simpa using fun e => hd e.symm
      · next q qs hs =>
        have inside {r : Text} (hr : r ∈ q :: qs) : c ∉ r :=
          notMem_of_mem_splitAt (t := t) (by rw [hs]; exact hr)
        rcases List.mem_cons.mp h with rfl | h
        · rw [List.mem_cons, not_or]
          exact ⟨fun e => hd e.symm, inside List.mem_cons_self⟩
        · exact inside (List.mem_cons_of_mem _ h)

theorem splitAt_eq (c : Char) (t : Text) : splitAt c t = t.splitOn c := by
  induction t with
  | nil => rw [List.splitOn_nil]; rfl
  | cons d t ih =>
    rw [splitAt, List.splitOn_eq_splitOnP, List.splitOnP_cons_eq_if_modifyHead,
      ← List.splitOn_eq_splitOnP, ← ih]
    simp only [beq_iff_eq]
    split
    · rfl
    · split
      · next hs => exact absurd (ih ▸ hs) (List.splitOn_ne_nil c t)
      · next hs => rw [hs]; rfl

end Text

namespace Path

/-- A path as it is read off a text: its components are neither empty nor a dot,
and hold no slash. -/
structure Proper (p : Path) : Prop where
  root : p.root = "" ∨ p.root.toList.head? = some '/'
  parts : ∀ c ∈ p.parts, c ≠ "" ∧ c ≠ "." ∧ '/' ∉ c.toList

theorem proper_ofString (s : String) : (ofString s).Proper := by
  refine ⟨?_, fun c hc => ?_⟩
  · simp only [ofString, rootOf]
    split
    · exact .inl rfl
    · exact .inr (by decide)
    · exact .inr (by decide)
  · simp only [ofString, List.mem_filter, Bool.and_eq_true, decide_eq_true_eq] at hc
    obtain ⟨hc, ne, notDot⟩ := hc
    refine ⟨ne, notDot, ?_⟩
    obtain ⟨t, ht, rfl⟩ := List.mem_map.mp hc
    rw [String.toList_ofList]
    exact Text.notMem_of_mem_splitAt ht

theorem Proper.join {p q : Path} (hp : p.Proper) (hq : q.Proper) : (p.join q).Proper := by
  unfold Path.join
  split
  · exact ⟨hp.root, List.forall_mem_append.mpr ⟨hp.parts, hq.parts⟩⟩
  · exact hq

/-- The characters of a relative path's text. -/
theorem toList_text {p : Path} (relative : p.root = "") (ne : p.parts ≠ [])
    (h : ∀ c ∈ p.parts, c ≠ "") : p.text.toList = ['/'].intercalate (p.parts.map String.toList) := by
  have joined : (p.root ++ "/".intercalate p.parts).toList =
      ['/'].intercalate (p.parts.map String.toList) := by
    rw [relative, String.toList_append, String.toList_intercalate]
    rfl
  have filled : (p.root ++ "/".intercalate p.parts).isEmpty = false := by
    obtain ⟨c, cs, hc⟩ := List.exists_cons_of_ne_nil ne
    rw [Bool.eq_false_iff, Ne, String.isEmpty_iff, ← String.toList_eq_nil_iff, joined, hc]
    have : c.toList ≠ [] := by
      rw [Ne, String.toList_eq_nil_iff]
      exact h c (by rw [hc]; exact List.mem_cons_self)
    cases cs <;> simp [List.intercalate_cons_cons, this]
  rw [← joined, text]
  simp only [filled, Bool.false_eq_true, ↓reduceIte]

/-- A relative path is read back from its text. -/
theorem Proper.ofString_text {p : Path} (h : p.Proper) (relative : p.root = "") :
    ofString p.text = p := by
  obtain ⟨root, parts⟩ := p
  cases relative
  by_cases ne : parts = []
  · subst ne
    decide
  · have named : ∀ c ∈ parts, c ≠ "" := fun c hc => (h.parts c hc).1
    have chars := toList_text (p := ⟨"", parts⟩) rfl ne named
    have split : slashParts (text ⟨"", parts⟩) = parts := by
      rw [slashParts, chars, Text.splitAt_eq, List.splitOn_intercalate, List.map_map]
      · simp [Function.comp_def]
      · simpa using fun c hc => (h.parts c hc).2.2
      · simpa using ne
    have kept : (parts.filter fun p => p ≠ "" && p ≠ ".") = parts := by
      rw [List.filter_eq_self]
      intro c hc
      simp [(h.parts c hc).1, (h.parts c hc).2.1]
    have root : rootOf (text ⟨"", parts⟩) = "" := by
      obtain ⟨c, cs, rfl⟩ := List.exists_cons_of_ne_nil ne
      obtain ⟨d, ds, hd⟩ := List.exists_cons_of_ne_nil
        (show c.toList ≠ [] from mt String.toList_eq_nil_iff.mp (named c List.mem_cons_self))
      have notSlash : d ≠ '/' := by
        rintro rfl
        exact (h.parts c List.mem_cons_self).2.2 (by rw [hd]; exact List.mem_cons_self)
      have first : (text ⟨"", c :: cs⟩).toList.takeWhile (· == '/') = [] := by
        rw [chars]
        cases cs <;> simp [List.intercalate_cons_cons, hd, notSlash]
      rw [rootOf, first]
      rfl
    rw [ofString, root, split, kept]

/-- The text of a path with a root starts with a slash. -/
theorem head?_text {p : Path} (rooted : p.root.toList.head? = some '/') :
    p.text.toList.head? = some '/' := by
  have chars : (p.root ++ "/".intercalate p.parts).toList.head? = some '/' := by
    rw [String.toList_append, List.head?_append, rooted]
    rfl
  have filled : (p.root ++ "/".intercalate p.parts).isEmpty = false := by
    rw [Bool.eq_false_iff, Ne, String.isEmpty_iff]
    intro e
    rw [e] at chars
    cases chars
  rw [text]
  simp only [filled, Bool.false_eq_true, ↓reduceIte]
  exact chars

/-- Only a text that starts with a slash has a root. -/
theorem rootOf_eq_empty_iff (s : String) : rootOf s = "" ↔ s.toList.head? ≠ some '/' := by
  have first : (s.toList.takeWhile (· == '/')).length = 0 ↔ s.toList.head? ≠ some '/' := by
    cases s.toList with
    | nil => simp
    | cons c cs =>
      by_cases hc : c = '/'
      · simp [hc]
      · simp [hc]
  rw [← first, rootOf]
  split
  · next zero => simp [zero]
  · next two => simp [two]
  · next none _ => simpa using none

theorem ofString_root (s : String) : (ofString s).root = rootOf s := rfl

theorem parent_root (p : Path) : p.parent.root = p.root := rfl

theorem Proper.parent {p : Path} (h : p.Proper) : p.parent.Proper :=
  ⟨h.root, fun c hc => h.parts c (List.dropLast_subset _ hc)⟩

theorem Proper.root_eq_of_ofString {p : Path} (h : p.Proper) (root : (ofString p.text).root = "") :
    p.root = "" := by
  rw [ofString_root, rootOf_eq_empty_iff] at root
  rcases h.root with relative | rooted
  · exact relative
  · exact absurd (head?_text rooted) root

/-- The text of a path is a name in angle brackets only if its first component
is. -/
theorem Proper.isPseudoName_text_iff {p : Path} (h : p.Proper) :
    isPseudoName p.text = true ↔
      p.root = "" ∧ ∃ c cs, p.parts = c :: cs ∧ isPseudoName c = true := by
  rcases h.root with relative | rooted
  · obtain ⟨root, parts⟩ := p
    cases relative
    cases parts with
    | nil =>
      have dot : isPseudoName (text ⟨"", []⟩) = false := by decide
      simp [dot]
    | cons c cs =>
      have ne : c.toList ≠ [] := mt String.toList_eq_nil_iff.mp (h.parts c List.mem_cons_self).1
      have chars := toList_text (p := ⟨"", c :: cs⟩) rfl (List.cons_ne_nil _ _)
        fun c hc => (h.parts c hc).1
      have first : (text ⟨"", c :: cs⟩).toList.head? = c.toList.head? := by
        obtain ⟨d, ds, hd⟩ := List.exists_cons_of_ne_nil ne
        rw [chars]
        cases cs <;> simp [List.intercalate_cons_cons, hd]
      simp [isPseudoName, first]
  · constructor
    · intro pseudo
      rw [isPseudoName, head?_text rooted] at pseudo
      cases pseudo
    · rintro ⟨relative, -⟩
      rw [relative] at rooted
      cases rooted

end Path

/-- From a file whose name is not in angle brackets, a path in angle brackets can
only start in the working directory. -/
theorem Search.baseOf_text {q n : Path} (hq : q.Proper) (hn : n.Proper)
    (named : isPseudoName q.text = false)
    (pseudo : isPseudoName ((baseOf q.text).join n).text = true) :
    baseOf q.text = Path.ofString "." := by
  have base : baseOf q.text = (Path.ofString q.text).parent := by
    simp [baseOf, named]
  have proper : (Path.ofString q.text).parent.Proper := (Path.proper_ofString _).parent
  rw [base] at pseudo ⊢
  obtain ⟨root, c, cs, parts, inBrackets⟩ := (proper.join hn).isPseudoName_text_iff.mp pseudo
  unfold Path.join at root parts
  split at root
  · next relative =>
    rw [if_pos relative] at parts
    rw [Path.parent_root] at root
    have noRoot := hq.root_eq_of_ofString root
    rw [hq.ofString_text noRoot] at parts ⊢
    cases hd : q.parts.dropLast with
    | nil =>
      have dot : Path.ofString "." = ⟨"", []⟩ := by decide
      rw [Path.parent, hd, noRoot, dot]
    | cons d ds =>
      -- the file's own first component would be in angle brackets
      simp only [Path.parent, hd, List.cons_append, List.cons.injEq] at parts
      obtain ⟨rest, hrest⟩ := List.dropLast_prefix q.parts
      rw [hd, parts.1, List.cons_append] at hrest
      have := hq.isPseudoName_text_iff.mpr ⟨noRoot, c, _, hrest.symm, inBrackets⟩
      rw [named] at this
      cases this
  · next rooted => exact absurd root (by simpa using rooted)

/-! ### Trails of files -/

namespace Disk

variable {d : Disk}

/-- A descent that ends well follows the components. -/
theorem descend_eq_ok : ∀ {cs : List String} {t u : Trail}, d.descend t cs = .ok u →
    cs.foldl Trail.step t = u
  | [], t, u, h => by
    cases h
    rfl
  | c :: cs, t, u, h => by
    obtain ⟨-, -, rest⟩ := descend_cons_eq_ok.mp h
    rw [List.foldl_cons]
    exact descend_eq_ok rest

/-- Components that mean nothing can be left out. -/
theorem foldl_step_filter : ∀ (cs : List String) (t : Trail),
    (cs.filter fun p => p ≠ "" && p ≠ ".").foldl Trail.step t = cs.foldl Trail.step t
  | [], _ => rfl
  | c :: cs, t => by
    by_cases hc : c = "" ∨ c = "."
    · have stays : Trail.step t c = t := by
        rcases hc with rfl | rfl <;> rfl
      have dropped : ¬(c ≠ "" ∧ c ≠ ".") := by
        rcases hc with rfl | rfl <;> decide
      rw [List.filter_cons_of_neg (by simpa using dropped), List.foldl_cons, stays]
      exact foldl_step_filter cs t
    · rw [not_or] at hc
      rw [List.filter_cons_of_pos (by simp [hc]), List.foldl_cons, List.foldl_cons]
      exact foldl_step_filter cs _

/-- The trail of a path that leads somewhere can be read off the path. -/
theorem absolute_of_trailOf {name : String} {t : Trail} (h : d.trailOf name = .ok t) :
    d.absolute (Path.ofString name) = t := by
  unfold trailOf at h
  split at h
  · cases h
  · split at h
    · cases h
    · rw [← descend_eq_ok h, absolute, Path.ofString, foldl_step_filter]
      simp only [String.isEmpty_iff, Path.rootOf_eq_empty_iff]
      by_cases slash : name.toList.head? = some '/' <;> simp [slash]

/-- A file that is found stands on the disk under its trail. -/
theorem mem_files_of_find {name : String} {bytes : List UInt8}
    (h : d.find name = .ok (.file bytes)) : (d.absolute (Path.ofString name), bytes) ∈ d.files := by
  obtain ⟨t, ht, entry⟩ := find_eq_ok.mp h
  rw [absolute_of_trailOf ht]
  have found : d.entries.lookup t = some (.file bytes) := by
    unfold entryAt? at entry
    split at entry
    · next hl =>
      rw [hl]
      exact entry
    · split at entry <;> cases entry
  obtain ⟨before, behind, entries, -⟩ := List.lookup_eq_some_iff.mp found
  refine List.mem_filterMap.mpr ⟨(t, .file bytes), ?_, rfl⟩
  rw [entries]
  exact List.mem_append_right _ List.mem_cons_self

end Disk

/-! ### The keys that files can have -/

namespace Search

variable {s : Search} {main : String} {lines : List Text}

/-- The names in the `include` lines of a file on the disk are known. -/
theorem includedNames_of_files {t : Trail} {bytes : List UInt8} {text line name : Text}
    (file : (t, bytes) ∈ s.disk.files) (reads : fileText bytes = .ok text)
    (hl : line ∈ Text.lines text) (names : includeName? line = some name) :
    String.ofList name ∈ s.includedNames lines := by
  refine List.mem_filterMap.mpr ⟨line, List.mem_append_right _ ?_, by rw [names]; rfl⟩
  refine List.mem_flatMap.mpr ⟨(t, bytes), file, ?_⟩
  simp only [reads]
  exact hl

/-- What the search finds is one of the paths, and a file. -/
theorem isFile_of_firstFile {d : Disk} {p : Path} :
    ∀ {ps : List Path}, firstFile d ps = .ok (some p) → p ∈ ps ∧ d.isFile p = .ok true
  | [], h => by cases h
  | q :: ps, h => by
    unfold firstFile at h
    split at h
    · cases h
    · next isFile =>
      cases h
      exact ⟨List.mem_cons_self, isFile⟩
    · obtain ⟨member, isFile⟩ := isFile_of_firstFile h
      exact ⟨List.mem_cons_of_mem _ member, isFile⟩

/-- The name of a file that is being spliced in: the main file's, or the text of
a path. -/
def Known (main file : String) : Prop := file = main ∨ ∃ q : Path, q.Proper ∧ q.text = file

/-- **Every file that is found has one of the keys**, however deep it is
included. -/
theorem key_mem_keys (proper : ∀ p ∈ s.paths, p.Proper) {file name : String} {path : Path}
    (known : Known main file) (named : name ∈ s.includedNames lines)
    (found : s.locate file name = .ok (some path)) :
    path.Proper ∧ s.key path.text ∈ s.keys main lines := by
  obtain ⟨candidate, isFile⟩ := isFile_of_firstFile found
  obtain ⟨bytes, there⟩ := Disk.exists_of_isFile isFile
  obtain ⟨dir, hdir, rfl⟩ := List.mem_map.mp candidate
  have hn := Path.proper_ofString name
  have base : (baseOf file).Proper := by
    unfold baseOf
    split
    · exact Path.proper_ofString _
    · exact ⟨(Path.proper_ofString _).root,
        fun c hc => (Path.proper_ofString _).parts c (List.dropLast_subset _ hc)⟩
  have properDir : dir.Proper := by
    rcases List.mem_cons.mp hdir with rfl | hdir
    · exact base
    · exact proper dir hdir
  refine ⟨properDir.join hn, ?_⟩
  rw [key, keys]
  by_cases pseudo : isPseudoName (dir.join (Path.ofString name)).text = true
  · rw [if_pos pseudo]
    have dirs : dir ∈ Path.ofString "." :: s.directories main := by
      rcases List.mem_cons.mp hdir with rfl | hdir
      · rcases known with rfl | ⟨q, hq, rfl⟩
        · exact List.mem_cons_of_mem _ List.mem_cons_self
        · cases named : isPseudoName q.text with
          | true =>
            have : baseOf q.text = Path.ofString "." := by simp [baseOf, named]
            rw [this]
            exact List.mem_cons_self
          | false =>
            rw [baseOf_text hq hn named pseudo]
            exact List.mem_cons_self
      · exact List.mem_cons_of_mem _ (List.mem_cons_of_mem _ hdir)
    refine List.mem_append_right _ (List.mem_filter.mpr ⟨?_, pseudo⟩)
    exact List.mem_flatMap.mpr ⟨name, named, List.mem_map.mpr ⟨dir, dirs, rfl⟩⟩
  · -- a file of the disk, under its trail
    rw [if_neg pseudo]
    refine List.mem_append_left _ ?_
    have file := Disk.mem_files_of_find there
    have trail := List.mem_map_of_mem (f := fun f => Trail.text f.1) file
    dsimp only at trail
    exact trail

end Search

/-! ### The splicing as a machine -/

/-- A file whose lines are being spliced in. -/
structure OpenFile where
  file : String
  /-- The number of its lines that are spliced in. -/
  index : Nat
  rest : List Text
  /-- The keys of the files that it can include. -/
  idle : List String

/-- How far the splicing has come: the files whose lines are being spliced in,
the innermost first, and what is spliced. -/
structure Progress where
  files : List OpenFile
  out : List Splice
  events : List Event

/-- The file with one more line spliced in. -/
def OpenFile.next (f : OpenFile) (rest : List Text) : OpenFile :=
  { f with index := f.index + 1, rest }

@[simp] theorem OpenFile.next_file (f : OpenFile) (rest : List Text) : (f.next rest).file = f.file :=
  rfl

namespace Search

/-- The file that an `include` line opens. -/
def opened (s : Search) (f : OpenFile) (path : Path) (text : Text) : OpenFile :=
  ⟨path.text, 0, Text.lines text, without f.idle (s.key path.text)⟩

@[simp] theorem opened_file (s : Search) (f : OpenFile) (path : Path) (text : Text) :
    (s.opened f path text).file = path.text := by
  simp only [opened]

@[simp] theorem mem_opened_idle {s : Search} {f : OpenFile} {path : Path} {text : Text} {k : String} :
    k ∈ (s.opened f path text).idle ↔ k ∈ f.idle ∧ k ≠ s.key path.text := by
  simp only [opened, without, List.mem_filter, bne_iff_ne]

/-- Splices in the next line of the innermost file, or leaves the file if it has
no more. -/
def advance (s : Search) (p : Progress) : Except Stop Progress :=
  match p.files with
  | [] => .ok p
  | f :: outer =>
    match f.rest with
    | [] => .ok { p with files := outer }
    | line :: rest =>
      match s.inclusion? f.idle f.file f.index line with
      | .error stop => .error stop
      | .ok none =>
        .ok { p with
          files := f.next rest :: outer
          out := p.out ++ [⟨line, ⟨f.file, f.index + 1, 0⟩⟩] }
      | .ok (some (path, text)) =>
        .ok { p with
          files := s.opened f path text :: f.next rest :: outer
          events := p.events ++ [.including path.text ⟨f.file, f.index + 1, 0⟩] }

/-- One progress comes from another, one line after the other. -/
def ComesTo (s : Search) : Progress → Progress → Prop :=
  Relation.ReflTransGen fun p q => p.files ≠ [] ∧ s.advance p = .ok q

/-- The splicing of a main file before its first line. -/
def start (s : Search) (source : Text) (file : String) (events : List Event) : Progress :=
  let lines := Text.lines source
  ⟨[⟨file, 0, lines, without (s.keys file lines) (s.key file)⟩], [], events⟩

/-- The keys of the files that are being spliced in. -/
def stack (s : Search) (p : Progress) : List String := p.files.map fun f => s.key f.file

/-- The stack holds no key twice, and each file on it can include what has a key
and is not on the stack up to it. -/
inductive Watched (s : Search) (main : String) (lines : List Text) : List OpenFile → Prop where
  | nil : Watched s main lines []
  | cons {f : OpenFile} {outer : List OpenFile}
      (idle : ∀ k, k ∈ f.idle ↔
        k ∈ s.keys main lines ∧ k ∉ (f :: outer).map fun f => s.key f.file)
      (fresh : s.key f.file ∉ outer.map fun f => s.key f.file) (known : Known main f.file)
      (names : ∀ line ∈ f.rest, ∀ name, includeName? line = some name →
        String.ofList name ∈ s.includedNames lines)
      (rest : Watched s main lines outer) : Watched s main lines (f :: outer)

namespace Watched

variable {s : Search} {main : String} {lines : List Text} {f : OpenFile} {outer : List OpenFile}

theorem nodup {files : List OpenFile} (h : Watched s main lines files) :
    (files.map fun f => s.key f.file).Nodup := by
  induction h with
  | nil => exact List.nodup_nil
  | cons _ fresh _ _ _ ih => exact List.nodup_cons.mpr ⟨fresh, ih⟩

/-- The splicing of the main file starts so. -/
theorem start (s : Search) (source : Text) (file : String) (events : List Event) :
    Watched s file (Text.lines source) (s.start source file events).files := by
  refine .cons (fun k => ?_) List.not_mem_nil (.inl rfl) (fun line hl name names => ?_) .nil
  · simp [without, List.mem_filter]
  · refine List.mem_filterMap.mpr ⟨line, List.mem_append_left _ hl, ?_⟩
    rw [names]
    rfl

/-- What an `include` line leads to is idle exactly if it is not on the stack. -/
theorem mem_idle_iff (h : Watched s main lines (f :: outer)) (proper : ∀ p ∈ s.paths, p.Proper)
    {line name : Text} {path : Path} (hl : line ∈ f.rest) (names : includeName? line = some name)
    (found : s.locate f.file (String.ofList name) = .ok (some path)) :
    s.key path.text ∈ f.idle ↔ s.key path.text ∉ (f :: outer).map fun f => s.key f.file := by
  cases h with
  | cons idle _ known hasNames _ =>
    have key := (key_mem_keys proper known (hasNames line hl name names) found).2
    rw [idle]
    exact ⟨And.right, fun h => ⟨key, h⟩⟩

theorem next (h : Watched s main lines (f :: outer)) {line : Text} {rest : List Text}
    (hl : f.rest = line :: rest) : Watched s main lines (f.next rest :: outer) := by
  cases h with
  | cons idle fresh known names below =>
    refine .cons idle fresh known (fun line' hl' => names line' ?_) below
    rw [hl]
    exact List.mem_cons_of_mem _ hl'

theorem opened (h : Watched s main lines (f :: outer)) (proper : ∀ p ∈ s.paths, p.Proper)
    {line : Text} {rest : List Text} (hl : f.rest = line :: rest) {path : Path} {text : Text}
    (leads : s.inclusion? f.idle f.file f.index line = .ok (some (path, text))) :
    Watched s main lines (s.opened f path text :: f.next rest :: outer) := by
  obtain ⟨name, bytes, names, -, found, isIdle, opens, reads⟩ := inclusion?_eq_some.mp leads
  have inRest : line ∈ f.rest := by
    rw [hl]
    exact List.mem_cons_self
  have fresh := (h.mem_idle_iff proper inRest names found).mp isIdle
  have below := h.next hl
  cases h with
  | cons idle _ known hasNames _ =>
    have properPath := (key_mem_keys proper known (hasNames line inRest name names) found).1
    have file := Disk.mem_files_of_find (Disk.find_of_read opens)
    refine .cons (fun k => ?_) ?_ (.inr ⟨path, properPath, (opened_file ..).symm⟩) ?_ below
    · rw [mem_opened_idle, idle]
      simp only [List.map_cons, opened_file, OpenFile.next_file, List.mem_cons, not_or]
      exact ⟨fun ⟨⟨key, off⟩, other⟩ => ⟨key, other, off⟩, fun ⟨key, other, off⟩ => ⟨⟨key, off⟩, other⟩⟩
    · rw [opened_file]
      simpa only [List.map_cons, OpenFile.next_file] using fresh
    · intro line' hl' name' names'
      exact includedNames_of_files file reads hl' names'

/-- Every step keeps the stack watched. -/
theorem advance {p q : Progress} (h : Watched s main lines p.files)
    (proper : ∀ p ∈ s.paths, p.Proper) (step : s.advance p = .ok q) :
    Watched s main lines q.files := by
  unfold Search.advance at step
  split at step
  · cases step
    exact h
  · next f outer files =>
    rw [files] at h
    split at step
    · cases step
      cases h with
      | cons _ _ _ _ below => exact below
    · next line rest hl =>
      split at step
      · cases step
      · cases step
        exact h.next hl
      · next leads =>
        cases step
        exact h.opened proper hl leads

/-- Whatever the splicing comes to is watched. -/
theorem comesTo {p q : Progress} (h : Watched s main lines p.files)
    (proper : ∀ p ∈ s.paths, p.Proper) (run : s.ComesTo p q) : Watched s main lines q.files := by
  induction run with
  | refl => exact h
  | tail _ step ih => exact ih.advance proper step.2

end Watched

/-! ### The splicing takes those steps -/

section Steps

variable {s : Search} {idle : List String} {file : String} {index : Nat} {line : Text}
  {lines : List Text} {outer : List OpenFile} {out : List Splice} {before after : List Event}
  {stop : Stop}

theorem advance_line (other : s.inclusion? idle file index line = .ok none) :
    s.advance ⟨⟨file, index, line :: lines, idle⟩ :: outer, out, before⟩ =
      .ok ⟨⟨file, index + 1, lines, idle⟩ :: outer, out ++ [⟨line, ⟨file, index + 1, 0⟩⟩],
        before⟩ := by
  simp only [advance, other, OpenFile.next]

theorem advance_file {path : Path} {text : Text}
    (leads : s.inclusion? idle file index line = .ok (some (path, text))) :
    s.advance ⟨⟨file, index, line :: lines, idle⟩ :: outer, out, before⟩ =
      .ok ⟨⟨path.text, 0, Text.lines text, without idle (s.key path.text)⟩ ::
        ⟨file, index + 1, lines, idle⟩ :: outer, out,
        before ++ [.including path.text ⟨file, index + 1, 0⟩]⟩ := by
  simp only [advance, leads, OpenFile.next, opened]

theorem advance_stop (stops : s.inclusion? idle file index line = .error stop) :
    s.advance ⟨⟨file, index, line :: lines, idle⟩ :: outer, out, before⟩ = .error stop := by
  simp only [advance, stops]

/-- A line that is spliced in, if this is so of the file that it leads to. -/
theorem comesTo_of_spliceLine {part : List Splice}
    (inner : ∀ {path : Path} {text : Text} {outer : List OpenFile} {before : List Event},
      s.key path.text ∈ idle →
      s.spliceFrom (without idle (s.key path.text)) path.text 0 (Text.lines text) before =
        .ok part after →
      s.ComesTo ⟨⟨path.text, 0, Text.lines text, without idle (s.key path.text)⟩ :: outer, out,
        before⟩ ⟨outer, out ++ part, after⟩)
    (h : s.spliceLine idle file index line before = .ok part after) :
    s.ComesTo ⟨⟨file, index, line :: lines, idle⟩ :: outer, out, before⟩
      ⟨⟨file, index + 1, lines, idle⟩ :: outer, out ++ part, after⟩ := by
  cases leads : s.inclusion? idle file index line with
  | error stop =>
    rw [spliceLine, leads] at h
    exact absurd h throw_eq_ok
  | ok found =>
    cases found with
    | none =>
      simp only [spliceLine, leads, pure_eq_ok] at h
      obtain ⟨rfl, rfl⟩ := h
      exact .single ⟨List.cons_ne_nil _ _, advance_line leads⟩
    | some found =>
      obtain ⟨path, text⟩ := found
      simp only [spliceLine, leads, modify_bind, splice_eq] at h
      exact .head ⟨List.cons_ne_nil _ _, advance_file leads⟩ (inner (key_mem_of_inclusion? leads) h)

/-- A line at which the splicing stops: it stops by itself, or in the file that
it leads to. -/
theorem spliceLine_eq_error
    (h : s.spliceLine idle file index line before = .error stop after) :
    (s.inclusion? idle file index line = .error stop ∧ before = after) ∨
      ∃ path text, s.inclusion? idle file index line = .ok (some (path, text)) ∧
        s.spliceFrom (without idle (s.key path.text)) path.text 0 (Text.lines text)
          (before ++ [.including path.text ⟨file, index + 1, 0⟩]) = .error stop after := by
  cases leads : s.inclusion? idle file index line with
  | error stop' =>
    rw [spliceLine, leads] at h
    cases h
    exact .inl ⟨rfl, rfl⟩
  | ok found =>
    cases found with
    | none =>
      rw [spliceLine, leads] at h
      cases h
    | some found =>
      obtain ⟨path, text⟩ := found
      simp only [spliceLine, leads, modify_bind, splice_eq] at h
      exact .inr ⟨path, text, rfl, h⟩

end Steps

variable {s : Search}

/-- Lines that are spliced in are spliced in one after the other, and then their
file is left. -/
theorem comesTo_of_spliceFrom {idle : List String} {file : String} {index : Nat} {lines : List Text}
    {outer : List OpenFile} {out parts : List Splice} {before after : List Event}
    (h : s.spliceFrom idle file index lines before = .ok parts after) :
    s.ComesTo ⟨⟨file, index, lines, idle⟩ :: outer, out, before⟩ ⟨outer, out ++ parts, after⟩ := by
  match lines with
  | [] =>
    rw [spliceFrom, pure_eq_ok] at h
    obtain ⟨rfl, rfl⟩ := h
    rw [List.append_nil]
    exact .single ⟨List.cons_ne_nil _ _, rfl⟩
  | line :: lines =>
    simp only [spliceFrom, bind_eq_ok, pure_eq_ok] at h
    obtain ⟨part, between, first, rest, _, later, rfl, rfl⟩ := h
    rw [← List.append_assoc]
    exact (comesTo_of_spliceLine (fun isIdle inner => comesTo_of_spliceFrom inner) first).trans
      (comesTo_of_spliceFrom later)
termination_by (idle.length, lines.length)
decreasing_by
  · exact .left _ _ (length_without_lt isIdle)
  · exact .right _ (Nat.lt_succ_self _)

/-- Where the splicing stops, a step stops that it comes to. -/
theorem exists_stop_of_spliceFrom {idle : List String} {file : String} {index : Nat}
    {lines : List Text} {outer : List OpenFile} {out : List Splice} {before after : List Event}
    {stop : Stop} (h : s.spliceFrom idle file index lines before = .error stop after) :
    ∃ q, s.ComesTo ⟨⟨file, index, lines, idle⟩ :: outer, out, before⟩ q ∧
      s.advance q = .error stop ∧ q.events = after := by
  match lines with
  | [] => cases h
  | line :: lines =>
    rw [spliceFrom] at h
    cases first : s.spliceLine idle file index line before with
    | error stop' between =>
      rw [bind_of_error first] at h
      cases h
      rcases spliceLine_eq_error first with ⟨stops, rfl⟩ | ⟨path, text, leads, inner⟩
      · exact ⟨_, .refl, advance_stop stops, rfl⟩
      · have isIdle := key_mem_of_inclusion? leads
        obtain ⟨q, run, stops⟩ := exists_stop_of_spliceFrom inner
        exact ⟨q, .head ⟨List.cons_ne_nil _ _, advance_file leads⟩ run, stops⟩
    | ok part between =>
      rw [bind_of_ok first] at h
      cases rest : s.spliceFrom idle file (index + 1) lines between with
      | ok parts after' =>
        rw [bind_of_ok rest] at h
        cases h
      | error stop' after' =>
        rw [bind_of_error rest] at h
        cases h
        obtain ⟨q, run, stops⟩ := exists_stop_of_spliceFrom rest
        exact ⟨q, (comesTo_of_spliceLine (fun _ => comesTo_of_spliceFrom) first).trans run, stops⟩
termination_by (idle.length, lines.length)
decreasing_by
  · exact .right _ (Nat.lt_succ_self _)
  · exact .left _ _ (length_without_lt isIdle)

/-! ### How the splicing ends -/

/-- How the splicing ends that starts at `p`. -/
inductive Ends (s : Search) (p : Progress) : EStateM.Result Stop (List Event) (List Splice) → Prop
  | spliced {out : List Splice} {after : List Event} (run : s.ComesTo p ⟨[], out, after⟩) :
      Ends s p (.ok out after)
  | stopped {q : Progress} {stop : Stop} (run : s.ComesTo p q) (stops : s.advance q = .error stop) :
      Ends s p (.error stop q.events)

/-- The splicing ends as the text's expansion says. -/
theorem ends_expand (s : Search) (source : Text) (file : String) (before : List Event) :
    s.Ends (s.start source file before) (s.expand source file before) := by
  rw [expand, splice_eq]
  cases h : s.spliceFrom (without (s.keys file (Text.lines source)) (s.key file)) file 0
      (Text.lines source) before with
  | ok out after => exact .spliced (comesTo_of_spliceFrom h)
  | error stop after =>
    obtain ⟨q, run, stops, rfl⟩ := exists_stop_of_spliceFrom h
    exact .stopped run stops

/-- From one progress the splicing comes to at most one that it cannot leave. -/
theorem ComesTo.eq_of_stuck {p a b : Progress} (ha : s.ComesTo p a) (hb : s.ComesTo p b)
    (stuckA : ∀ q, ¬(a.files ≠ [] ∧ s.advance a = .ok q))
    (stuckB : ∀ q, ¬(b.files ≠ [] ∧ s.advance b = .ok q)) : a = b := by
  have unique : Relator.RightUnique fun p q => p.files ≠ [] ∧ s.advance p = .ok q := by
    rintro p q r ⟨-, hq⟩ ⟨-, hr⟩
    exact Except.ok.inj (hq.symm.trans hr)
  rcases Relation.ReflTransGen.total_of_right_unique unique ha hb with run | run
  · rcases run.cases_head with rfl | ⟨q, step, -⟩
    · rfl
    · exact absurd step (stuckA q)
  · rcases run.cases_head with rfl | ⟨q, step, -⟩
    · rfl
    · exact absurd step (stuckB q)

/-- The splicing ends in one way only. -/
theorem Ends.unique {p : Progress} {r r' : EStateM.Result Stop (List Event) (List Splice)}
    (h : s.Ends p r) (h' : s.Ends p r') : r = r' := by
  have left {out : List Splice} {after : List Event} (q : Progress) :
      ¬((⟨[], out, after⟩ : Progress).files ≠ [] ∧ s.advance ⟨[], out, after⟩ = .ok q) :=
    fun h => h.1 rfl
  have stopped {a : Progress} {stop : Stop} (stops : s.advance a = .error stop) (q : Progress) :
      ¬(a.files ≠ [] ∧ s.advance a = .ok q) := by
    rintro ⟨-, step⟩
    rw [stops] at step
    cases step
  cases h with
  | spliced run =>
    cases h' with
    | spliced run' =>
      cases run.eq_of_stuck run' left left
      rfl
    | stopped run' stops =>
      cases run.eq_of_stuck run' left (stopped stops)
      cases stops
  | stopped run stops =>
    cases h' with
    | spliced run' =>
      cases run.eq_of_stuck run' (stopped stops) left
      cases stops
    | stopped run' stops' =>
      cases run.eq_of_stuck run' (stopped stops) (stopped stops')
      cases stops.symm.trans stops'
      rfl

/-! ### Why the splicing stops -/

/-- Among the paths, one of which the system does not say whether it is a file stands
before the first that is one. -/
def MeetsRefusal (d : Disk) (ps : List Path) : Prop :=
  ∃ before path behind, ps = before ++ path :: behind ∧
    (∀ q ∈ before, d.isFile q ≠ .ok true) ∧ ∃ fault, d.isFile path = .error fault

theorem firstFile_eq_error {d : Disk} {stop : Stop} : ∀ {ps : List Path},
    firstFile d ps = .error stop → ∃ p fault, stop = .unsearchable p fault
  | [], h => by cases h
  | p :: ps, h => by
    unfold firstFile at h
    split at h
    · next fault _ =>
      cases h
      exact ⟨p, fault, rfl⟩
    · cases h
    · exact firstFile_eq_error h

/-- The search for a file stops exactly at a path that the system refuses. -/
theorem firstFile_stops_iff {d : Disk} : ∀ {ps : List Path},
    (∃ stop, firstFile d ps = .error stop) ↔ MeetsRefusal d ps
  | [] => by
    constructor
    · rintro ⟨stop, h⟩
      cases h
    · rintro ⟨before, path, behind, h, -⟩
      exact absurd h (by simp)
  | p :: ps => by
    have later : MeetsRefusal d (p :: ps) ↔ (∃ fault, d.isFile p = .error fault) ∨
        d.isFile p ≠ .ok true ∧ MeetsRefusal d ps := by
      constructor
      · rintro ⟨before, path, behind, h, clear, refused⟩
        cases before with
        | nil =>
          cases h
          exact .inl refused
        | cons q before =>
          cases h
          obtain ⟨first, clear⟩ := List.forall_mem_cons.mp clear
          exact .inr ⟨first, before, path, behind, rfl, clear, refused⟩
      · rintro (refused | ⟨first, before, path, behind, rfl, clear, refused⟩)
        · exact ⟨[], p, ps, rfl, List.forall_mem_nil _, refused⟩
        · exact ⟨p :: before, path, behind, rfl, List.forall_mem_cons.mpr ⟨first, clear⟩, refused⟩
    rw [later, ← firstFile_stops_iff, firstFile]
    cases d.isFile p with
    | error fault => simp
    | ok isFile => cases isFile <;> simp

end Search

namespace Disk

variable {d : Disk}

theorem descend_eq_error {fault : FileFault} : ∀ {cs : List String} {t : Trail},
    d.descend t cs = .error fault →
      fault.leadsNowhere = true ∨ fault = .tooLong ∨ ∃ u, d.fault? u .search = some fault
  | [], _, h => by cases h
  | c :: cs, t, h => by
    rw [descend] at h
    split at h
    · split at h
      · next refused =>
        cases h
        exact .inr (.inr ⟨t, refused⟩)
      · split at h
        · cases h
          exact .inr (.inl rfl)
        · exact descend_eq_error h
    · cases h
      exact .inl rfl
    · cases h
      exact .inl rfl

/-- The system says of every path whether it is a file, unless the path is too long or
leads through a directory that cannot be searched. -/
theorem isFile_eq_error {p : Path} {fault : FileFault} (h : d.isFile p = .error fault) :
    fault = .tooLong ∨ ∃ t, d.fault? t .search = some fault := by
  have found : d.find p.text = .error fault ∧ fault.leadsNowhere = false := by
    unfold isFile at h
    split at h
    · cases h
    · split at h
      · cases h
      · cases h
      · next found =>
        split at h
        · cases h
        · next elsewhere =>
          cases h
          exact ⟨found, by simpa using elsewhere⟩
  obtain ⟨found, elsewhere⟩ := found
  have trail : d.trailOf p.text = .error fault := by
    unfold find at found
    cases trail : d.trailOf p.text with
    | error fault' =>
      rw [trail] at found
      cases found
      rfl
    | ok t =>
      simp only [trail, bind, Except.bind] at found
      cases entry : d.entryAt? t with
      | some e =>
        rw [entry] at found
        cases found
      | none =>
        rw [entry] at found
        cases found
        cases elsewhere
  unfold trailOf at trail
  split at trail
  · cases trail
    cases elsewhere
  · split at trail
    · cases trail
      exact .inl rfl
    · rcases descend_eq_error trail with nowhere | rest
      · rw [elsewhere] at nowhere
        cases nowhere
      · exact rest

end Disk

/-- Is it the fault of an `include` line, or of the text of an included file? -/
def Stop.isForeseen : Stop → Bool
  | .refused d =>
    match d.cause with
    | .includeFailed _ _ => true
    | _ => false
  | .undecodable _ => true
  | .unsearchable .. | .overlong _ | .unwritable .. => false

/-- The next line to be spliced in is an `include` line with a name. -/
structure Progress.Includes (p : Progress) (f : OpenFile) (outer : List OpenFile) (line : Text)
    (rest : List Text) (name : Text) : Prop where
  files : p.files = f :: outer
  lines : f.rest = line :: rest
  names : includeName? line = some name
  named : name ≠ []

namespace Search

variable {s : Search} {p : Progress} {f : OpenFile} {outer : List OpenFile} {line name : Text}
  {rest : List Text}

/-- A line at which the splicing stops has a fault of its own, or the search for
its file stops. -/
theorem inclusion?_eq_error {idle : List String} {file : String} {index : Nat} {stop : Stop}
    (h : s.inclusion? idle file index line = .error stop) :
    stop.isForeseen = true ∨ ∃ name, includeName? line = some name ∧ name ≠ [] ∧
      s.locate file (String.ofList name) = .error stop := by
  unfold inclusion? at h
  split at h
  · cases h
  · next name names =>
    split at h
    · cases h
      exact .inl rfl
    · next named =>
      split at h
      · next stops =>
        cases h
        exact .inr ⟨name, names, by simpa using named, stops⟩
      · cases h
        exact .inl rfl
      · split at h
        · split at h
          · cases h
            exact .inl rfl
          · split at h
            · cases h
              exact .inl rfl
            · cases h
        · cases h
          exact .inl rfl

theorem advance_eq_error {stop : Stop} (h : s.advance p = .error stop) :
    ∃ f outer line rest, p.files = f :: outer ∧ f.rest = line :: rest ∧
      s.inclusion? f.idle f.file f.index line = .error stop := by
  unfold advance at h
  split at h
  · cases h
  · next f outer files =>
    split at h
    · cases h
    · next line rest lines =>
      split at h
      · next stops =>
        cases h
        exact ⟨f, outer, line, rest, files, lines, stops⟩
      · cases h
      · cases h

/-- An `include` line stops as the search for its file does. -/
theorem advance_of_locate_error (next : p.Includes f outer line rest name) {stop : Stop}
    (stops : s.locate f.file (String.ofList name) = .error stop) : s.advance p = .error stop := by
  have named : name.isEmpty = false := by simpa using next.named
  have stops : s.inclusion? f.idle f.file f.index line = .error stop := by
    simp only [inclusion?, next.names, named, stops, Bool.false_eq_true, ↓reduceIte]
  simp only [advance, next.files, next.lines, stops]

/-- An `include` line is circular if what it leads to is not idle. -/
theorem advance_eq_circular_iff (next : p.Includes f outer line rest name) {path : Path}
    (found : s.locate f.file (String.ofList name) = .ok (some path)) :
    s.advance p = .error (refuse f.file f.index line name .circular) ↔ s.key path.text ∉ f.idle := by
  have named : name.isEmpty = false := by simpa using next.named
  by_cases isIdle : s.key path.text ∈ f.idle
  · simp only [advance, next.files, next.lines, inclusion?, next.names, named, found, isIdle,
      Bool.false_eq_true, ↓reduceIte]
    cases s.disk.read path with
    | error fault => simp [refuse]
    | ok bytes => cases reads : fileText bytes <;> simp [refuse, reads]
  · simp only [advance, next.files, next.lines, inclusion?, next.names, named, found, isIdle,
      Bool.false_eq_true, ↓reduceIte, not_false_eq_true]

theorem advance_of_idle (next : p.Includes f outer line rest name) {path : Path}
    {bytes : List UInt8} {text : Text}
    (found : s.locate f.file (String.ofList name) = .ok (some path))
    (isIdle : s.key path.text ∈ f.idle) (opens : s.disk.read path = .ok bytes)
    (reads : fileText bytes = .ok text) :
    s.advance p = .ok
      { p with
        files := s.opened f path text :: f.next rest :: outer
        events := p.events ++ [.including path.text ⟨f.file, f.index + 1, 0⟩] } := by
  have leads : s.inclusion? f.idle f.file f.index line = .ok (some (path, text)) :=
    inclusion?_eq_some.mpr ⟨name, bytes, next.names, next.named, found, isIdle, opens, reads⟩
  simp only [advance, next.files, next.lines, leads]

/-- The splicing stops for no other reason than a fault of an `include` line or
of an included file exactly if it comes to no path that the system refuses. -/
theorem foreseen_iff (s : Search) (source : Text) (file : String) (before : List Event) :
    (∀ stop after, s.expand source file before = .error stop after → stop.isForeseen = true) ↔
      ∀ p f outer line rest name, s.ComesTo (s.start source file before) p →
        p.Includes f outer line rest name →
        ¬MeetsRefusal s.disk (s.candidates f.file (String.ofList name)) := by
  constructor
  · intro foreseen p f outer line rest name run next refusal
    obtain ⟨stop, stops⟩ := firstFile_stops_iff.mpr refusal
    have ends := (ends_expand s source file before).unique
      (.stopped run (advance_of_locate_error next stops))
    obtain ⟨path, fault, rfl⟩ := firstFile_eq_error stops
    cases foreseen _ _ ends
  · intro clear stop after stopped
    have ends := ends_expand s source file before
    rw [stopped] at ends
    cases ends with
    | stopped run stops =>
      obtain ⟨f, outer, line, rest, files, lines, stops⟩ := advance_eq_error stops
      rcases inclusion?_eq_error stops with foreseen | ⟨name, names, named, stops⟩
      · exact foreseen
      · exact absurd (firstFile_stops_iff.mp ⟨stop, stops⟩)
          (clear _ f outer line rest name run ⟨files, lines, names, named⟩)

/-- The file at the bottom of the stack stays there. -/
theorem ComesTo.bottom {q : Progress} (run : s.ComesTo p q) {main : String}
    (h : ∀ f ∈ p.files.getLast?, f.file = main) : ∀ f ∈ q.files.getLast?, f.file = main := by
  induction run with
  | refl => exact h
  | @tail p q _ step ih =>
    have step := step.2
    unfold advance at step
    split at step
    · cases step
      exact ih
    · next f outer files =>
      rw [files] at ih
      split at step
      · cases step
        cases outer with
        | nil => exact fun _ h => by cases h
        | cons g outer => simpa using ih
      · split at step
        · cases step
        · cases step
          cases outer with
          | nil => simpa using ih
          | cons g outer => simpa using ih
        · cases step
          cases outer with
          | nil => simpa using ih
          | cons g outer => simpa using ih

end Search

/-- **The splicing of included files ends, and it finds exactly the circles.**
It ends in one way, with the spliced lines or with a stop. The stop is the fault
of an `include` line or of an included file's text, unless the search for a file
comes to a path that the system refuses, which is too long or leads through a
directory that cannot be searched. No file is on the stack twice, and the main file
is at its bottom. An `include` line that leads to a file is refused as circular
exactly if that file is on the stack; otherwise the file is spliced in, if it can be
read, however often this was done before. -/
theorem expansion_ends (disk : Disk) (includePaths : List String) (source : Text) (file : String)
    (before : List Event) :
    let s : Search := ⟨disk, includePaths.map Path.ofString⟩
    let first := s.start source file before
    (∀ r, s.Ends first r ↔ s.expand source file before = r) ∧
    ((∀ stop after, s.expand source file before = .error stop after → stop.isForeseen = true) ↔
      ∀ p f outer line rest name, s.ComesTo first p → p.Includes f outer line rest name →
        ¬Search.MeetsRefusal disk (s.candidates f.file (String.ofList name))) ∧
    (∀ path fault, disk.isFile path = .error fault →
      fault = .tooLong ∨ ∃ t, disk.fault? t .search = some fault) ∧
    (∀ p, s.ComesTo first p → (s.stack p).Nodup ∧
      (p.files ≠ [] → (s.stack p).getLast? = some (s.key file))) ∧
    ∀ p f outer line rest name path, s.ComesTo first p → p.Includes f outer line rest name →
      s.locate f.file (String.ofList name) = .ok (some path) →
      (s.advance p = .error (Search.refuse f.file f.index line name .circular) ↔
        s.key path.text ∈ s.stack p) ∧
      ∀ bytes text, s.key path.text ∉ s.stack p → disk.read path = .ok bytes →
        fileText bytes = .ok text → s.advance p = .ok
          { p with
            files := s.opened f path text :: f.next rest :: outer
            events := p.events ++ [.including path.text ⟨f.file, f.index + 1, 0⟩] } := by
  intro s first
  have proper : ∀ p ∈ s.paths, p.Proper := by
    intro p hp
    obtain ⟨name, -, rfl⟩ := List.mem_map.mp hp
    exact Path.proper_ofString name
  have watched {p : Progress} (run : s.ComesTo first p) :
      Search.Watched s file (Text.lines source) p.files :=
    (Search.Watched.start s source file before).comesTo proper run
  refine ⟨fun r => ⟨(Search.ends_expand s source file before).unique, fun h => h ▸ ?_⟩,
    Search.foreseen_iff s source file before, fun path fault => Disk.isFile_eq_error,
    fun p run => ⟨(watched run).nodup, fun ne => ?_⟩, ?_⟩
  · exact Search.ends_expand s source file before
  · have bottom : ∀ f ∈ p.files.getLast?, f.file = file :=
      run.bottom (by simp [first, Search.start])
    rw [Search.stack, List.getLast?_map, List.getLast?_eq_some_getLast ne, Option.map_some,
      bottom _ (List.getLast?_eq_some_getLast ne)]
  · intro p f outer line rest name path run next found
    have files := watched run
    rw [next.files] at files
    have inRest : line ∈ f.rest := by
      rw [next.lines]
      exact List.mem_cons_self
    have idle : s.key path.text ∈ f.idle ↔ s.key path.text ∉ s.stack p := by
      rw [Search.stack, next.files]
      exact files.mem_idle_iff proper inRest next.names found
    refine ⟨?_, fun bytes text off opens reads =>
      Search.advance_of_idle next found (idle.mpr off) opens reads⟩
    rw [Search.advance_eq_circular_iff next found, idle, not_not]

/-- A name of 256 letters. -/
def overlongName : Text := List.replicate 256 'a'

/-- The relative path that the name stands for. -/
def overlongPath : Path := ⟨"", [String.ofList overlongName]⟩

theorem proper_overlongPath : overlongPath.Proper := by
  have chars : overlongName ≠ [] ∧ overlongName ≠ ['.'] ∧ '/' ∉ overlongName := by decide +kernel
  refine ⟨.inl rfl, fun c hc => ?_⟩
  rw [List.mem_singleton.mp hc, Ne, Ne, String.toList_ofList, ← String.toList_inj,
    ← String.toList_inj, String.toList_ofList]
  exact chars

theorem text_overlongPath : overlongPath.text = String.ofList overlongName := by
  rw [← String.toList_inj, Path.toList_text rfl (List.cons_ne_nil _ _) fun c hc =>
    (proper_overlongPath.parts c hc).1]
  exact List.intercalate_singleton

/-- No directory looks the name up. -/
theorem isFile_overlongPath (workDir : Trail) :
    Disk.isFile ⟨[], workDir, []⟩ overlongPath = .error .tooLong := by
  have size : (String.ofList overlongName).utf8ByteSize = 256 := by decide +kernel
  have parts : slashParts (String.ofList overlongName) = [String.ofList overlongName] := by
    have whole : Text.splitAt '/' overlongName = [overlongName] := by decide +kernel
    rw [slashParts, String.toList_ofList, whole]
    rfl
  have named : (String.ofList overlongName).isEmpty = false := by
    rw [String.isEmpty_eq_false_iff, Ne, ← String.toList_inj, String.toList_ofList]
    decide +kernel
  have relative : (String.ofList overlongName).toList.head? ≠ some '/' := by
    rw [String.toList_ofList]
    decide +kernel
  have here : Disk.entryAt? ⟨[], workDir, []⟩ workDir = some .directory := by
    simp [Disk.entryAt?]
  have trail : Disk.trailOf ⟨[], workDir, []⟩ (String.ofList overlongName) = .error .tooLong := by
    simp only [Disk.trailOf, named, size, relative, parts, Disk.descend, here, Disk.fault?,
      List.lookup_nil, Disk.pathLimit, Disk.nameLimit, Bool.false_eq_true, ↓reduceIte, Nat.reduceLT]
  have plain : overlongName.contains '\x00' = false := by decide +kernel
  have found : Disk.find ⟨[], workDir, []⟩ (String.ofList overlongName) = .error .tooLong := by
    unfold Disk.find
    rw [trail]
    rfl
  rw [Disk.isFile, text_overlongPath, String.toList_ofList, plain, found]
  rfl

/-- Where there are no files at all, an `include` line with that name stops the
splicing. -/
theorem inclusion?_overlongName {idle : List String} {line : Text}
    (names : includeName? line = some overlongName) :
    Search.inclusion? ⟨⟨[], ["w"], []⟩, []⟩ idle "main.tc" 0 line =
      .error (.unsearchable overlongPath .tooLong) := by
  have base : Search.baseOf "main.tc" = ⟨"", []⟩ := by decide
  have path : Path.ofString (String.ofList overlongName) = overlongPath := by
    rw [← text_overlongPath]
    exact proper_overlongPath.ofString_text rfl
  have joined : Path.join ⟨"", []⟩ overlongPath = overlongPath := rfl
  have located : Search.locate ⟨⟨[], ["w"], []⟩, []⟩ "main.tc" (String.ofList overlongName) =
      .error (.unsearchable overlongPath .tooLong) := by
    simp only [Search.locate, Search.candidates, Search.directories, base, path, joined,
      List.map_cons, List.map_nil, Search.firstFile, isFile_overlongPath]
  have named : overlongName.isEmpty = false := rfl
  simp only [Search.inclusion?, names, named, located, Bool.false_eq_true, ↓reduceIte]

/-- The stop is not one of the faults that an `include` line can have. -/
theorem expansion_stops_overlongName :
    Search.expand ⟨⟨[], ["w"], []⟩, []⟩ ("include ".toList ++ overlongName) "main.tc" [] =
      .error (.unsearchable overlongPath .tooLong) [] ∧
    (Stop.unsearchable overlongPath .tooLong).isForeseen = false := by
  refine ⟨?_, rfl⟩
  have lines : Text.lines ("include ".toList ++ overlongName) =
      ["include ".toList ++ overlongName] := by
    decide +kernel
  have names : includeName? ("include ".toList ++ overlongName) = some overlongName := by
    decide +kernel
  have first (idle : List String) : Search.spliceLine ⟨⟨[], ["w"], []⟩, []⟩ idle "main.tc" 0
      ("include ".toList ++ overlongName) [] =
        .error (.unsearchable overlongPath .tooLong) [] := by
    rw [Search.spliceLine, inclusion?_overlongName names]
    rfl
  rw [Search.expand, Search.splice_eq, lines, Search.spliceFrom, Outcome.bind_of_error (first _)]

end Micro51
