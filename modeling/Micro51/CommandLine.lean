/- # The command `tcc`

A run of the command is a function of the disk and of what the user asks for:
it yields an exit code, what goes to the two output streams, and the disk behind
it, which differs from the one before at most in the output file.

Two things around it are left open. How the words of a command line are read is
the business of a front end, which makes a request of them or answers itself. And
a message passes through the console on its way to a stream; all that is known of
a console is that it shows a message without terminal escapes as it is.

Key definitions: `CommandLine.Request`, `CommandLine.Trouble`,
`CommandLine.Failure`, `CommandLine.Console`, `CommandLine.Run`,
`CommandLine.runRequest`, `CommandLine.run`.
-/
import Micro51.Compiler
import Micro51.Text.Escapes
import Micro51.Tree

namespace Micro51
namespace CommandLine

/-- What the user asks for. -/
structure Request where
  input : Path
  output : Option Path := none
  includes : List Path := []
  ast : Bool := false
  guard : Bool := true
  comments : Bool := false
  verbose : Bool := false
  deriving DecidableEq, Repr, Inhabited

namespace Request

/-- Where the assembly goes: beside the input unless told otherwise. -/
def outputPath (r : Request) : Path := r.output.getD (r.input.withSuffix ".asm")

/-- What the request says about the assembly. -/
def options (r : Request) : Options := { comments := r.comments, guard := r.guard }

end Request

/-- What can go wrong in a run. -/
inductive Trouble where
  /-- The program was refused, with a diagnostic that is written like this. -/
  | refused (text : String)
  /-- The front end takes exception to an argument. -/
  | badParameter (message : String)
  /-- The system reports a fault. -/
  | system (fault : FileFault) (message : String)
  | unexpected (message : String)
  deriving DecidableEq, Repr, Inhabited

/-- The trouble when a compilation stops, or the assembly cannot be written. -/
def Trouble.ofStop : Stop → Trouble
  | .refused d => refused d.text
  | .undecodable fault => unexpected fault.message
  | .unsearchable path fault | .unwritable path fault => system fault (fault.message path.text)
  | .overlong n => unexpected (Cause.digitsExceeded n).message

/-- Why a run fails. -/
inductive Failure where
  /-- The program was refused. -/
  | program (text : String)
  /-- The arguments do not fit the disk. -/
  | arguments (message : String)
  | internal (message : String)
  deriving DecidableEq, Repr, Inhabited

namespace Failure

/-- What kind of failure a trouble is. Of the faults of the system, a file that
is not there and one that may not be used are the fault of the arguments. -/
def ofTrouble : Trouble → Failure
  | .refused text => program text
  | .badParameter message => arguments message
  | .system .missing message | .system .denied message => arguments message
  | .system _ message => internal message
  | .unexpected message => internal message

/-- The exit code by which the failure is known. -/
def exitCode : Failure → Nat
  | program _ => 1
  | arguments _ => 2
  | internal _ => 3

/-- What the user is told. -/
def text : Failure → String
  | program t => t
  | arguments m => "Error: " ++ m
  | internal m => "Internal error: " ++ m

end Failure

/-- How messages reach the two output streams. -/
structure Console where
  /-- What goes to the standard output for a message. -/
  out : String → String
  /-- What goes to the standard error stream for a message. -/
  err : String → String
  out_plain : ∀ m : String, Text.escape ∉ m.toList → out m = m ++ "\n"
  err_plain : ∀ m : String, Text.escape ∉ m.toList → err m = m ++ "\n"

/-- What goes to a stream for a message where escapes are left out. -/
def strippedLine (m : String) : String := String.ofList (Text.withoutEscapes m.toList) ++ "\n"

/-- What goes to a terminal for a message. -/
def wholeLine (m : String) : String := m ++ "\n"

theorem strippedLine_plain {m : String} (h : Text.escape ∉ m.toList) :
    strippedLine m = m ++ "\n" := by
  rw [strippedLine, Text.withoutEscapes_of_notMem h, String.ofList_toList]

/-- The console whose streams are terminals or not: only a terminal is sent
escapes. -/
def Console.ofTerminals (out err : Bool) : Console where
  out := if out then wholeLine else strippedLine
  err := if err then wholeLine else strippedLine
  out_plain m h := by
    cases out
    · exact strippedLine_plain h
    · rfl
  err_plain m h := by
    cases err
    · exact strippedLine_plain h
    · rfl

/-- What a run leaves behind. -/
structure Run where
  exitCode : Nat := 0
  out : String := ""
  err : String := ""
  disk : Disk
  deriving DecidableEq, Repr, Inhabited

/-- What a verbose run says before it compiles. -/
def announcement (r : Request) : List String :=
  if r.verbose then
    ("Compiling " ++ r.input.text ++ "...") ::
      if r.includes.isEmpty then []
      else ["Include paths: " ++ ", ".intercalate (r.includes.map Path.text)]
  else []

/-- What a run says once the output is written. -/
def report (r : Request) (c : Compiled) : List String :=
  (if r.verbose then
    ["Wrote " ++ toString c.assembly.length ++ " bytes to " ++ r.outputPath.text,
     "Parsed: " ++ toString c.program.commands.length ++ " commands, " ++
       toString c.program.methods.length ++ " methods, " ++
       toString c.program.interrupts.length ++ " interrupt handlers"]
   else []) ++
  ["Compiled " ++ r.input.text ++ " -> " ++ r.outputPath.text]

/-- Compiles what a request names. -/
def compileRequest (d : Disk) (r : Request) : FileCompilation :=
  compileFile ⟨d, r.includes⟩ r.options r.input.text

/-- What is left to do once the input is compiled: show the tree, or write
the assembly. -/
def finish (d : Disk) (r : Request) (c : Compiled) : Except Stop (List String × Disk) :=
  if r.ast then .ok ([c.program.tree], d)
  else
    match d.write r.outputPath (Utf8.encode c.assembly.toList) with
    | .error fault => .error (.unwritable r.outputPath fault)
    | .ok d' => .ok (report r c, d')

/-- Events are logged one on a line, past the console. -/
def logText (events : List String) : String := String.join (events.map (· ++ "\n"))

/-- Runs a request. -/
def runRequest (console : Console) (d : Disk) (r : Request) : Run :=
  let compilation := compileRequest d r
  let events := compilation.events.filterMap (Event.shown? r.verbose)
  match compilation.result.bind (finish d r) with
  | .error stop =>
    let failure := Failure.ofTrouble (.ofStop stop)
    { exitCode := failure.exitCode
      out := String.join ((announcement r).map console.out)
      err := logText events ++ console.err failure.text
      disk := d }
  | .ok (lines, d') =>
    { out := String.join ((announcement r ++ lines).map console.out)
      err := logText events
      disk := d' }

/-- What a front end answers to words that make no request. -/
structure Answer where
  exitCode : Nat := 0
  out : String := ""
  err : String := ""
  deriving DecidableEq, Repr, Inhabited

/-- Reads the words of a command line, and may look at the disk for it. -/
abbrev FrontEnd := Disk → List String → Except Answer Request

/-- Runs the command with the words that follow it. -/
def run (front : FrontEnd) (console : Console) (d : Disk) (words : List String) : Run :=
  match front d words with
  | .error answer =>
    { exitCode := answer.exitCode, out := answer.out, err := answer.err, disk := d }
  | .ok request => runRequest console d request

end CommandLine
end Micro51
