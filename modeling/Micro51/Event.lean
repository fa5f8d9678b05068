/- # Events of a compilation

What a compilation reports while it runs. A warning is always shown; the
other events only to a user who asked for them, with the part of the
compiler that reports.

Key definitions: `Event`, `Event.message`, `Event.shown?`.
-/
import Micro51.Diagnostic

namespace Micro51

/-- Something worth a report. -/
inductive Event where
  | unreadable (file reason : String)
  | including (file : String) (site : Location)
  | compiling (file : String)
  | collected (methods bindings : Nat)
  | parsed (lines : Nat)
  | failed (file message : String)
  deriving DecidableEq, Repr, Inhabited

namespace Event

/-- The event in words. -/
def message : Event → String
  | unreadable f r => "Cannot read " ++ f ++ ": " ++ r
  | including f l => "Including " ++ f ++ " from " ++ l.text
  | compiling f => "Compiling " ++ f
  | collected m b =>
    "Collected " ++ toString m ++ " method(s) and " ++ toString b ++ " interrupt binding(s)"
  | parsed n => "Parsed " ++ toString n ++ " line(s)"
  | failed f m => "Compilation of " ++ f ++ " failed: " ++ m

/-- The part of the compiler that reports the event. -/
def reporter : Event → String
  | unreadable .. | including .. => "tcode.compiler.preprocessor"
  | compiling _ | failed .. => "tcode.compiler.compiler"
  | collected .. | parsed _ => "tcode.compiler.parser"

/-- The line that the user sees of an event. -/
def shown? (verbose : Bool) (e : Event) : Option String :=
  if verbose then some (e.reporter ++ ": " ++ e.message)
  else match e with
    | unreadable .. => some e.message
    | _ => none

end Event

end Micro51
