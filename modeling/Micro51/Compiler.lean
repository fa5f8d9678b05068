/- # Compiling

A source text becomes assembly, or is refused with one diagnostic. A file is
compiled with the files it includes spliced in, and its diagnostic is placed
in the file that the user wrote the line in. A file that cannot be read is
compiled as if it were empty. A number with too many digits breaks the
compilation off without a diagnostic.

Key definitions: `Fault.stop`, `compileSource`, `readSource`, `Stop.toOrigin`,
`compileFile`, `compileTo`.
-/
import Micro51.Parse
import Micro51.Code
import Micro51.Include

namespace Micro51

/-- What a compilation yields. -/
structure Compiled where
  program : Program
  assembly : String
  deriving Repr, Inhabited

/-- How the compilation of a text went. -/
structure Compilation where
  events : List Event
  result : Except Stop Compiled

/-- The events of reading a program. -/
def Transcript.events : Transcript → List Event
  | refused _ => []
  | read sigs _ steps halt =>
    .collected sigs.methods.length sigs.interrupts.length ::
      if halt.isSome then [] else [.parsed steps.length]

/-- How a fault of a program stops its compilation: it is refused with a
diagnostic, unless the fault is in the reading of numbers itself. -/
def Fault.stop (f : Fault) (raw : List Text) (file : String) : Stop :=
  match f.cause with
  | .digitsExceeded n => .overlong n
  | _ => .refused (f.diagnostic raw file)

/-- The result of a program that was read or not. -/
def compiled (o : Options) (raw : List Text) (file : String) :
    Except Fault Program → Except Stop Compiled
  | .error fault => .error (fault.stop raw file)
  | .ok p =>
    match p.assemble o with
    | .error cause => .error (.refused { cause })
    | .ok assembly => .ok ⟨p, assembly⟩

/-- The event of a compilation that was refused. -/
def failureEvents (file : String) : Except Stop Compiled → List Event
  | .error (.refused d) => [.failed file d.cause.message]
  | _ => []

/-- Compiles a source text that goes by the name `file`. -/
def compileSource (o : Options) (source : Text) (file : String) : Compilation :=
  let raw := Text.lines source
  let transcript := Transcript.of raw {}
  let result := compiled o raw file (transcript.program raw)
  ⟨.compiling file :: transcript.events ++ failureEvents file result, result⟩

/-- The text of a source file, empty with a warning if there is none. -/
def readSource (d : Disk) (file : String) : List Event × Text :=
  let path := Path.ofString file
  match d.read path with
  | .error fault => ([.unreadable file (fault.message path.text)], [])
  | .ok bytes =>
    match fileText bytes with
    | .error fault => ([.unreadable file fault.message], [])
    | .ok t => ([], t)

/-- Moves a diagnostic from a line of the spliced text to where that line
came from. -/
def toOrigin (splices : List Splice) (d : Diagnostic) : Diagnostic :=
  match d.lineIndex with
  | some i =>
    if i < 0 then d
    else match splices[i.toNat]? with
      | some s => d.relocate s.origin none
      | none => d
  | none => d

/-- Moves the diagnostic of a stop, if it has one. -/
def Stop.toOrigin (splices : List Splice) : Stop → Stop
  | refused d => refused (Micro51.toOrigin splices d)
  | stop => stop

/-- How the compilation of a file went. -/
structure FileCompilation where
  events : List Event
  /-- The text with the included files spliced in, or without them if that
  failed. -/
  source : Text
  result : Except Stop Compiled

/-- Compiles a file and the files it includes. -/
def compileFile (s : Search) (o : Options) (file : String) : FileCompilation :=
  let (warnings, source) := readSource s.disk file
  match s.expand source file warnings with
  | .error stop events => ⟨events, source, .error stop⟩
  | .ok splices events =>
    let text := splicedText splices
    let c := compileSource o text file
    ⟨events ++ c.events, text, c.result.mapError (Stop.toOrigin splices)⟩

/-- Compiles a file and the files it includes, and writes the assembly to the
output file, if one is named. -/
def compileTo (s : Search) (file output : String) : Except Stop (String × Disk) := do
  let c ← (compileFile s {} file).result
  if output.isEmpty then .ok (c.assembly, s.disk)
  else
    match s.disk.write (Path.ofString output) (Utf8.encode c.assembly.toList) with
    | .error fault => .error (.unwritable (Path.ofString output) fault)
    | .ok d => .ok (c.assembly, d)

end Micro51
