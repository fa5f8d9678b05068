/- # Included files

A line `include name` stands for the lines of another file, which is looked
for in the directory of the including file and then in the directories the
user named. Every line of the result knows where it came from.

A file whose lines are being spliced in cannot be included again before its
last line. So the files that can still be included get fewer on the way
down, and the splicing ends.

Key definitions: `includeName?`, `Splice`, `Search`, `Search.key`,
`Search.firstFile`,
`Search.locate`, `Search.inclusion?`, `Search.splice`, `Search.expand`.
Key theorems: `Search.key_mem_of_inclusion?`.
-/
import Micro51.Disk
import Micro51.Event

namespace Micro51

/-- The small letter and what else counts as the letter in the word
`include`: its capital, and for the `i` its dotted capital and its dotless
form. -/
def isIncludeLetter (letter c : Char) : Bool :=
  c == letter || c == letter.toUpper ||
    (letter == 'i' && (c.toNat == 0x130 || c.toNat == 0x131))

/-- The text behind a word at the start of a text. -/
def afterWord? : (word t : Text) → Option Text
  | [], t => some t
  | _ :: _, [] => none
  | w :: ws, c :: t => if isIncludeLetter w c then afterWord? ws t else none

/-- The file name of an `include` line; `none` for any other line. A comment
is no part of it, and quotes around it are dropped. -/
def includeName? (line : Text) : Option Text :=
  match afterWord? "include".toList (Text.trimLeft (line.takeWhile (· != ';'))) with
  | some (c :: rest) =>
    if Text.isBlank c then some (Text.strip '"' (Text.trim rest)) else none
  | _ => none

/-- A line and where it came from. -/
structure Splice where
  line : Text
  origin : Location
  deriving DecidableEq, Repr, Inhabited

/-- Why a compilation stopped, or the splicing before it. -/
inductive Stop where
  | refused (d : Diagnostic)
  /-- An included file is not UTF-8. -/
  | undecodable (fault : Utf8.Fault)
  /-- Whether there is a file to include cannot be found out. -/
  | unsearchable (path : Path) (fault : FileFault)
  /-- A number in the program has more digits than can be read. -/
  | overlong (digits : Nat)
  /-- The assembly cannot be written. -/
  | unwritable (path : Path) (fault : FileFault)
  deriving DecidableEq, Repr, Inhabited

/-- Splicing reports what it includes, and may stop. -/
abbrev Splicing := EStateM Stop (List Event)

/-- The text of a file, its line ends made newlines. -/
def fileText (bytes : List UInt8) : Except Utf8.Fault Text :=
  (Utf8.decode bytes).map Text.foldNewlines

/-- Does the name stand for a text that comes from no file? Such names are
written in angle brackets. -/
def isPseudoName (name : String) : Bool := name.toList.head? == some '<'

/-- Where included files are looked for: on a disk, in the directory of the
including file and in the given ones. -/
structure Search where
  disk : Disk
  paths : List Path
  deriving Repr, Inhabited

namespace Search

/-- What tells a file from others: its trail; a name in angle brackets only
stands for itself. -/
def key (s : Search) (name : String) : String :=
  if isPseudoName name then name else Trail.text (s.disk.absolute (Path.ofString name))

/-- The directory that names in a file are relative to. -/
def baseOf (file : String) : Path :=
  if isPseudoName file then Path.ofString "." else (Path.ofString file).parent

/-- The directories searched for a name in a file. -/
def directories (s : Search) (file : String) : List Path := baseOf file :: s.paths

/-- The paths that a name in a file may mean, in the order of the search. -/
def candidates (s : Search) (file name : String) : List Path :=
  (s.directories file).map fun dir => dir.join (Path.ofString name)

/-- The first of the paths that is a file. The search stops where that cannot
be found out. -/
def firstFile (d : Disk) : List Path → Except Stop (Option Path)
  | [] => .ok none
  | p :: ps =>
    match d.isFile p with
    | .error fault => .error (.unsearchable p fault)
    | .ok true => .ok (some p)
    | .ok false => firstFile d ps

/-- The file that an included name leads to. -/
def locate (s : Search) (file name : String) : Except Stop (Option Path) :=
  firstFile s.disk (s.candidates file name)

/-- The names in all `include` lines of the given lines and of the files on
the disk. -/
def includedNames (s : Search) (lines : List Text) : List String :=
  let onDisk := s.disk.files.flatMap fun f =>
    match fileText f.2 with
    | .ok t => Text.lines t
    | .error _ => []
  (lines ++ onDisk).filterMap fun l => (includeName? l).map String.ofList

/-- The keys that a file included from the lines of `file`, at any depth, can
have: the trail of a file on the disk, or a path in angle brackets. Such a
path comes from the working directory, from that of `file`, or from a given
one. -/
def keys (s : Search) (file : String) (lines : List Text) : List String :=
  s.disk.files.map (fun f => Trail.text f.1) ++
    ((s.includedNames lines).flatMap fun n =>
      (Path.ofString "." :: s.directories file).map fun dir =>
        (dir.join (Path.ofString n)).text).filter isPseudoName

/-- The fault of an `include` line. -/
def refuse (file : String) (index : Nat) (line name : Text) (fault : IncludeFault) : Stop :=
  .refused
    { cause := .includeFailed (String.ofList name) fault
      location := some ⟨file, index + 1, 0⟩
      sourceLine := some (String.ofList (Text.trim line)) }

/-- The keys that are left once `k` is taken out. -/
def without (ks : List String) (k : String) : List String := ks.filter (· != k)

theorem length_without_lt {ks : List String} {k : String} (h : k ∈ ks) :
    (without ks k).length < ks.length :=
  List.length_filter_lt_length_iff_exists.mpr ⟨k, h, by simp⟩

/-- The file that a line of `file` includes, if it is an `include` line: its
path and its text. The keys in `idle` are those of the files that are not
being spliced in already. -/
def inclusion? (s : Search) (idle : List String) (file : String) (index : Nat) (line : Text) :
    Except Stop (Option (Path × Text)) :=
  match includeName? line with
  | none => .ok none
  | some name =>
    if name.isEmpty then .error (refuse file index line name .unnamed)
    else match s.locate file (String.ofList name) with
      | .error stop => .error stop
      | .ok none =>
        .error (refuse file index line name (.notFound ((s.directories file).map Path.text)))
      | .ok (some path) =>
        if s.key path.text ∈ idle then
          match s.disk.read path with
          | .error fault =>
            .error (refuse file index line name (.unreadable (fault.message path.text)))
          | .ok bytes =>
            match fileText bytes with
            | .error fault => .error (.undecodable fault)
            | .ok text => .ok (some (path, text))
        else .error (refuse file index line name .circular)

theorem key_mem_of_inclusion? {s : Search} {idle : List String} {file : String} {index : Nat}
    {line : Text} {path : Path} {text : Text}
    (h : s.inclusion? idle file index line = .ok (some (path, text))) : s.key path.text ∈ idle := by
  unfold inclusion? at h
  split at h
  · cases h
  · split at h
    · cases h
    · split at h
      · cases h
      · cases h
      · split at h
        · next hk =>
          split at h
          · cases h
          · split at h
            · cases h
            · cases h
              exact hk
        · cases h

/-- Splices included files into the lines of a file. -/
def splice (s : Search) (idle : List String) (file : String) (lines : List Text) :
    Splicing (List Splice) := do
  let parts ← lines.zipIdx.mapM fun (line, index) =>
    match h : s.inclusion? idle file index line with
    | .error stop => throw stop
    | .ok none => return [⟨line, ⟨file, index + 1, 0⟩⟩]
    | .ok (some (path, text)) => do
      modify (· ++ [.including path.text ⟨file, index + 1, 0⟩])
      splice s (without idle (s.key path.text)) path.text (Text.lines text)
  return parts.flatten
termination_by idle.length
decreasing_by exact length_without_lt (key_mem_of_inclusion? h)

/-- Splices included files into a source text of the given name. -/
def expand (s : Search) (source : Text) (file : String) : Splicing (List Splice) :=
  let lines := Text.lines source
  s.splice (without (s.keys file lines) (s.key file)) file lines

end Search

/-- The text of spliced lines. -/
def splicedText (splices : List Splice) : Text := Text.joinLines (splices.map (·.line))

/-- The files, other than the main one, that gave a line, each once and in
order. -/
def includedFiles (splices : List Splice) (main : String) : List String :=
  ((splices.map (·.origin.file)).filter (· ≠ main)).eraseDups.mergeSort fun a b => decide (a ≤ b)

end Micro51
