/- # What a run looks at

A run sees only the disk it is given, so before it starts the files it may
ask for have to be put on that disk: those that the arguments name, and those
that the `include` lines of the files already there may lead to. Asking again
until nothing new comes up gives a disk on which the run sees all it would
see on the whole one.

Key definitions: `CommandLine.lookups`.
-/
import Micro51.CommandLine.Usage

namespace Micro51
namespace CommandLine

/-- The trails met on the way from a trail along components. -/
def trailsAlong (t : Trail) : List String → List Trail
  | [] => []
  | c :: cs => Trail.step t c :: trailsAlong (Trail.step t c) cs

/-- The trails met on the way to a path text, from a directory unless the
text starts at the root. -/
def trailsTo (base : Trail) (name : String) : List Trail :=
  trailsAlong (if name.toList.head? = some '/' then [] else base) (slashParts name)

/-- The path texts that the items name. -/
def namedPaths (items : List Item) : List String :=
  let outputs := (argumentsOf items).map fun n => ((Path.ofString n).withSuffix ".asm").text
  argumentsOf items ++ valuesOf .output items ++ valuesOf .includeDir items ++ outputs

/-- The trails that a run may look at because of the files already on the
disk. A file in angle brackets looks from the working directory. -/
def includeLookups (d : Disk) (directories : List Trail) : List Trail :=
  d.files.flatMap fun f =>
    match fileText f.2 with
    | .error _ => []
    | .ok t =>
      ((Text.lines t).filterMap includeName?).flatMap fun n =>
        (f.1.dropLast :: d.workDir :: directories).flatMap fun base =>
          trailsTo base (String.ofList n)

/-- The trails that a run with the given arguments may look at. -/
def lookups (d : Disk) (words : List String) : List Trail :=
  match readItems words with
  | .error _ => []
  | .ok items =>
    let directories := (valuesOf .includeDir items).map fun n => d.absolute (Path.ofString n)
    (namedPaths items).flatMap (trailsTo d.workDir) ++ includeLookups d directories

end CommandLine
end Micro51
