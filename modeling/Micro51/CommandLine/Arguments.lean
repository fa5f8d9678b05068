/- # Arguments of the command

The words after the command are options, values of options, and file names.
A short option is a dash and a letter; several can share a dash, and a value
can follow its letter at once. A long option starts with two dashes, and its
value may follow an equals sign. Two dashes alone end the options.

Where a long option is not known, those that look like it are named. Two names
look alike by the runs that they share: the longest run first, then those on
both sides of it.

Key definitions: `Switch`, `Setting`, `Item`, `UsageFault`, `closeOptions`,
`readItems`.
-/
import Micro51.Text.Quoted

namespace Micro51
namespace CommandLine

/-- The options without a value. -/
inductive Switch where
  | ast
  | noGuard
  | comments
  | verbose
  | version
  | help
  deriving DecidableEq, Repr, Inhabited

/-- The options with a value. -/
inductive Setting where
  | output
  | includeDir
  deriving DecidableEq, Repr, Inhabited

/-- An option, with a value or without. -/
inductive Opt where
  | switch (s : Switch)
  | setting (s : Setting)
  deriving DecidableEq, Repr, Inhabited

/-- The letters of the short options. -/
def shortOptions : List (Char × Opt) :=
  [('o', .setting .output), ('I', .setting .includeDir), ('c', .switch .comments),
   ('v', .switch .verbose)]

/-- The names of the long options. -/
def longOptions : List (String × Opt) :=
  [("--output", .setting .output), ("--include", .setting .includeDir), ("--ast", .switch .ast),
   ("--no-guard", .switch .noGuard), ("--comments", .switch .comments),
   ("--verbose", .switch .verbose), ("--version", .switch .version), ("--help", .switch .help)]

/-- What the arguments say, item by item. -/
inductive Item where
  | switch (s : Switch)
  | setting (s : Setting) (value : String)
  | argument (value : String)
  deriving DecidableEq, Repr, Inhabited

/-! ### Names that look alike -/

/-- How many characters two texts share at their start. -/
def sharedStart : Text → Text → Nat
  | c :: s, d :: t => if c = d then sharedStart s t + 1 else 0
  | _, _ => 0

/-- The longest run that two texts share: where it starts in each, and its
length. Of several the first in the first text is taken, then in the second. -/
def longestRun (s t : Text) : Nat × Nat × Nat :=
  ((List.range s.length).flatMap fun i => (List.range t.length).map fun j =>
    (i, j, sharedStart (s.drop i) (t.drop j))).foldl
      (fun best run => if best.2.2 < run.2.2 then run else best) (0, 0, 0)

/-- How many characters two texts share, run by run, in at most `fuel` runs one
inside the other. -/
def shared : (fuel : Nat) → Text → Text → Nat
  | 0, _, _ => 0
  | fuel + 1, s, t =>
    match longestRun s t with
    | (_, _, 0) => 0
    | (i, j, n) =>
      n + shared fuel (s.take i) (t.take j) + shared fuel (s.drop (i + n)) (t.drop (j + n))

/-- The known names that look like a name, three at most: at least three fifths
of the characters of both are shared. -/
def closeOptions (name : String) : List String :=
  let scored := longOptions.filterMap fun (known, _) =>
    let both := known.length + name.length
    let common := shared known.length known.toList name.toList
    if 3 * both ≤ 10 * common then some (common, both, known) else none
  let before (a b : Nat × Nat × String) : Bool :=
    if a.1 * b.2.1 = b.1 * a.2.1 then decide (b.2.2 ≤ a.2.2) else b.1 * a.2.1 < a.1 * b.2.1
  (((scored.mergeSort before).take 3).map (·.2.2)).mergeSort fun a b => decide (a ≤ b)

/-! ### Reading the words -/

/-- Why the arguments are refused. -/
inductive UsageFault where
  | noSuchOption (name : String) (close : List String)
  | valueMissing (name : String)
  | valueUnwanted (name : String)
  | argumentMissing
  | invalidValue (parameter problem : String)
  | extraArguments (values : List String)
  deriving DecidableEq, Repr, Inhabited

/-- The fault in words. -/
def UsageFault.message : UsageFault → String
  | noSuchOption n [] => "No such option: " ++ n
  | noSuchOption n [close] => "No such option: " ++ n ++ " Did you mean " ++ close ++ "?"
  | noSuchOption n close =>
    "No such option: " ++ n ++ " (Possible options: " ++ ", ".intercalate close ++ ")"
  | valueMissing n => "Option " ++ Text.quotedName n ++ " requires an argument."
  | valueUnwanted n => "Option " ++ Text.quotedName n ++ " does not take a value."
  | argumentMissing => "Missing argument 'INPUT_FILE'."
  | invalidValue p problem => "Invalid value for " ++ p ++ ": " ++ problem
  | extraArguments vs =>
    "Got unexpected extra argument" ++ (if vs.length = 1 then "" else "s") ++
      " (" ++ " ".intercalate vs ++ ")"

/-- The items of one word, and the option whose value is the next word. -/
abbrev Word := List Item × Option (String × Setting)

/-- Reads the letters behind a single dash. -/
def readShort : Text → Except UsageFault Word
  | [] => .ok ([], none)
  | c :: rest =>
    let name := String.ofList ['-', c]
    match shortOptions.lookup c with
    | none => .error (.noSuchOption name [])
    | some (.switch s) => do
      let (items, next) ← readShort rest
      .ok (.switch s :: items, next)
    | some (.setting s) =>
      if rest.isEmpty then .ok ([], some (name, s))
      else .ok ([.setting s (String.ofList rest)], none)

/-- Reads a word that starts with two dashes. -/
def readLong (word : Text) : Except UsageFault Word :=
  let (name, value) := match Text.cutFirst? '=' word with
    | some (name, value) => (String.ofList name, some (String.ofList value))
    | none => (String.ofList word, none)
  match longOptions.lookup name, value with
  | none, _ => .error (.noSuchOption name (closeOptions name))
  | some (.switch s), none => .ok ([.switch s], none)
  | some (.switch _), some _ => .error (.valueUnwanted name)
  | some (.setting s), some v => .ok ([.setting s v], none)
  | some (.setting s), none => .ok ([], some (name, s))

/-- Reads one word. A dash alone is a file name. -/
def readWord (word : String) : Except UsageFault Word :=
  match word.toList with
  | '-' :: '-' :: rest => readLong ('-' :: '-' :: rest)
  | '-' :: c :: rest => readShort (c :: rest)
  | _ => .ok ([.argument word], none)

/-- Reads all words. -/
def readItems : List String → Except UsageFault (List Item)
  | [] => .ok []
  | word :: rest =>
    if word = "--" then .ok (rest.map .argument)
    else do
      match ← readWord word with
      | (items, none) => .ok (items ++ (← readItems rest))
      | (items, some (name, s)) =>
        match rest with
        | [] => .error (.valueMissing name)
        | value :: rest => .ok (items ++ .setting s value :: (← readItems rest))

end CommandLine
end Micro51
