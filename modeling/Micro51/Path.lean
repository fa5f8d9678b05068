/- # Paths

A path is a root and the components below it. Empty components and single
dots mean nothing and are dropped; two dots are kept, because what they mean
depends on the disk.

Key definitions: `Path`, `Path.ofString`, `Path.text`, `Path.join`,
`Path.parent`, `Path.withSuffix`.
-/
import Micro51.Text.Basic

namespace Micro51

/-- A path, relative or from a root. -/
structure Path where
  /-- Empty for a relative path. -/
  root : String := ""
  parts : List String
  deriving DecidableEq, Repr, Inhabited

/-- The texts between the slashes. -/
def slashParts (s : String) : List String := (Text.splitAt '/' s.toList).map String.ofList

namespace Path

/-- The root that a text starts with. Exactly two slashes are a root of
their own. -/
def rootOf (s : String) : String :=
  match (s.toList.takeWhile (· == '/')).length with
  | 0 => ""
  | 2 => "//"
  | _ => "/"

/-- The path that a text writes. -/
def ofString (s : String) : Path :=
  ⟨rootOf s, (slashParts s).filter fun p => p ≠ "" && p ≠ "."⟩

/-- The path as text; the empty path is a dot. -/
def text (p : Path) : String :=
  let t := p.root ++ "/".intercalate p.parts
  if t.isEmpty then "." else t

/-- A path seen from the directory `base`; one with a root stays as it is. -/
def join (base p : Path) : Path :=
  if p.root.isEmpty then ⟨base.root, base.parts ++ p.parts⟩ else p

/-- The directory that a path stands in. -/
def parent (p : Path) : Path := ⟨p.root, p.parts.dropLast⟩

/-- A file name up to its suffix. The suffix starts at the last dot; a dot
at the start or at the end of the name starts none. -/
def stem (name : String) : String :=
  match Text.cutLast? '.' name.toList with
  | some (before, after) =>
    if before.isEmpty || after.isEmpty then name else String.ofList before
  | none => name

/-- The path with the suffix of its last component replaced. -/
def withSuffix (p : Path) (suffix : String) : Path :=
  match p.parts.getLast? with
  | some name => ⟨p.root, p.parts.dropLast ++ [stem name ++ suffix]⟩
  | none => p

end Path

end Micro51
