/- # The front end of the command

Reads the words behind the command, checks them against the disk, and answers
by itself where they ask about the command or make no sense.

Key definitions: `CommandLine.readRequest`, `CommandLine.helpText`,
`CommandLine.usageErrorText`, `CommandLine.readWords`.
-/
import Micro51.CommandLine
import Micro51.CommandLine.Arguments

namespace Micro51
namespace CommandLine

/-! ### The request -/

/-- The input must be a file. -/
def checkInput (d : Disk) (name : String) : Except UsageFault Unit :=
  let refuse (problem : String) : Except UsageFault Unit :=
    .error (.invalidValue "'INPUT_FILE'" ("File " ++ Text.quotedName name ++ problem))
  match d.find name with
  | .ok (.file _) => .ok ()
  | .ok .directory => refuse " is a directory."
  | .error _ => refuse " does not exist."

/-- The output may not be a directory. -/
def checkOutput (d : Disk) (name : String) : Except UsageFault Unit :=
  match d.find name with
  | .ok .directory =>
    .error (.invalidValue "'-o' / '--output'"
      ("File " ++ Text.quotedName name ++ " is a directory."))
  | _ => .ok ()

/-- A place to search must be a directory. -/
def checkInclude (d : Disk) (name : String) : Except UsageFault Unit :=
  let refuse (problem : String) : Except UsageFault Unit :=
    .error (.invalidValue "'-I' / '--include'"
      ("Directory " ++ Text.quotedName name ++ problem))
  match d.find name with
  | .ok .directory => .ok ()
  | .ok (.file _) => refuse " is a file."
  | .error _ => refuse " does not exist."

/-- The values that an option was given, in order. -/
def valuesOf (s : Setting) (items : List Item) : List String :=
  items.filterMap fun
    | .setting s' value => if s' = s then some value else none
    | _ => none

/-- The file names among the items. -/
def argumentsOf (items : List Item) : List String :=
  items.filterMap fun
    | .argument value => some value
    | _ => none

/-- Checks the values of an option: of outputs the last counts, of
directories every one. -/
def checkSetting (d : Disk) (items : List Item) : Setting → Except UsageFault Unit
  | .output =>
    match (valuesOf .output items).getLast? with
    | some name => checkOutput d name
    | none => .ok ()
  | .includeDir => (valuesOf .includeDir items).forM (checkInclude d)

/-- The options with values in the order in which they first occur. -/
def settingsIn (items : List Item) : List Setting :=
  (items.filterMap fun
    | .setting s _ => some s
    | _ => none).eraseDups

/-- The request that the items make. The options are checked in the order in
which they occur, then the file name, and then that there is only one. -/
def readRequest (d : Disk) (items : List Item) : Except UsageFault Request := do
  (settingsIn items).forM (checkSetting d items)
  match argumentsOf items with
  | [] => .error .argumentMissing
  | name :: extra =>
    checkInput d name
    if !extra.isEmpty then .error (.extraArguments extra)
    else
      .ok
        { input := Path.ofString name
          output := (valuesOf .output items).getLast?.map Path.ofString
          includes := (valuesOf .includeDir items).map Path.ofString
          ast := items.contains (.switch .ast)
          guard := !items.contains (.switch .noGuard)
          comments := items.contains (.switch .comments)
          verbose := items.contains (.switch .verbose) }

/-! ### Answers -/

/-- The answer to `--version`. -/
def versionText : String := logText ["tcc, version 1.0.0"]

/-- How the command is called. -/
def usageLine : String := "Usage: tcc [OPTIONS] INPUT_FILE"

/-- The answer to `--help`. -/
def helpText : String := logText
  [usageLine,
   "",
   "  Compile TCode source for the 8051 microcontroller.",
   "",
   "  INPUT_FILE is the TCode source file to compile.",
   "",
   "  The compiler produces 8051 assembly that includes the register definition file",
   "  reg8051.inc and can be fed to any 8051 assembler.",
   "",
   "  Examples:",
   "      tcc blink.tc                 # Outputs blink.asm",
   "      tcc blink.tc -o out.asm      # Specify output file",
   "      tcc -I lib/ blink.tc         # Add include path",
   "      tcc --ast blink.tc           # Print command tree",
   "      tcc -v blink.tc              # Verbose output",
   "",
   "  Language features:",
   "      - bool, int, char and cint variables mapped onto internal RAM",
   "      - if/else, while, fortil loops and plain blocks",
   "      - Methods with parameters and return values",
   "      - Timer, counter and external interrupt handlers",
   "",
   "Options:",
   "  -o, --output FILE        Output assembly file (default: input.asm)",
   "  -I, --include DIRECTORY  Add include search path (can be repeated)",
   "  --ast                    Print the parsed command tree and exit (for",
   "                           debugging)",
   "  --no-guard               Do not disable interrupts around main-program",
   "                           commands",
   "  -c, --comments           Echo each source line as a comment in the assembly",
   "  -v, --verbose            Verbose output",
   "  --version                Show the version and exit.",
   "  --help                   Show this message and exit."]

/-- The first of the options that only ask about the command. -/
def question? (items : List Item) : Option String :=
  items.findSome? fun
    | .switch .version => some versionText
    | .switch .help => some helpText
    | _ => none

/-- What is shown when the arguments are refused. -/
def usageErrorText (console : Console) (f : UsageFault) : String :=
  String.join ([usageLine, "Try 'tcc --help' for help.", "", "Error: " ++ f.message].map console.err)

/-- Reads the words of a command line. -/
def readWords (console : Console) : FrontEnd := fun d words =>
  let refused (f : UsageFault) : Answer := { exitCode := 2, err := usageErrorText console f }
  match readItems words with
  | .error fault => .error (refused fault)
  | .ok items =>
    match question? items with
    | some answer => .error { out := answer }
    | none => (readRequest d items).mapError refused

end CommandLine
end Micro51
