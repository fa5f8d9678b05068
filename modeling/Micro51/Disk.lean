/- # The disk

The files that a run of the compiler can see, and the directory that relative
paths start from. Every entry stands under its trail, the components from the
root of the disk down to it. A directory is there if it is an entry, or if
the working directory or another entry lies below it. The system limits how
long the name of an entry and the text of a path can be, and it may refuse to
let a directory be searched, a file be read or a place be written to, for
whatever reason it has.

Key definitions: `Disk`, `Disk.entryAt?`, `Disk.fault?`, `Disk.descend`,
`Disk.find`, `Disk.isFile`, `Disk.read`, `Disk.write`, `Disk.absolute`,
`FileFault.message`.
-/
import Micro51.Path
import Micro51.Text.Quoted
import Micro51.Text.Utf8

namespace Micro51

/-- What can stand on a disk. -/
inductive Entry where
  | file (bytes : List UInt8)
  | directory
  deriving DecidableEq, Repr, Inhabited

/-- The components from the root of a disk down to a place on it. -/
abbrev Trail := List String

/-- Why a file cannot be used. -/
inductive FileFault where
  | missing
  | notDirectory
  | isDirectory
  | tooLong
  | denied
  /-- Any other fault, by its number and in the words of the system. -/
  | other (number : Nat) (words : String)
  deriving DecidableEq, Repr, Inhabited

/-- The fault in the words of the system. -/
def FileFault.message (name : String) : FileFault → String
  | missing => "[Errno 2] No such file or directory: " ++ Text.quotedName name
  | notDirectory => "[Errno 20] Not a directory: " ++ Text.quotedName name
  | isDirectory => "[Errno 21] Is a directory: " ++ Text.quotedName name
  | tooLong => "[Errno 36] File name too long: " ++ Text.quotedName name
  | denied => "[Errno 13] Permission denied: " ++ Text.quotedName name
  | other number words =>
    "[Errno " ++ toString number ++ "] " ++ words ++ ": " ++ Text.quotedName name

/-- Does the fault only say that there is nothing? A name that is no open file
and a circle of links count too. -/
def FileFault.leadsNowhere : FileFault → Bool
  | missing | notDirectory => true
  | other number _ => number == 9 || number == 40
  | _ => false

/-- What a place on a disk can be used for. -/
inductive Use where
  | search
  | read
  | write
  deriving DecidableEq, Repr, Inhabited

/-- The files that can be seen. -/
structure Disk where
  entries : List (Trail × Entry)
  /-- The working directory. -/
  workDir : Trail
  /-- The uses that the system refuses from the start, and why. -/
  faults : List ((Trail × Use) × FileFault) := []
  deriving DecidableEq, Repr, Inhabited

/-- The trail one component further: two dots go up, one dot and nothing
stay. -/
def Trail.step (t : Trail) (component : String) : Trail :=
  if component = "" || component = "." then t
  else if component = ".." then t.dropLast
  else t ++ [component]

/-- A trail as text. -/
def Trail.text (t : Trail) : String := "/" ++ "/".intercalate t

namespace Disk

/-- How many bytes the name of an entry can have. -/
def nameLimit : Nat := 255

/-- How many bytes the text of a path can have. -/
def pathLimit : Nat := 4095

/-- What stands at a trail. -/
def entryAt? (d : Disk) (t : Trail) : Option Entry :=
  match d.entries.lookup t with
  | some e => some e
  | none =>
    if t.isPrefixOf d.workDir || d.entries.any (fun e => t.isPrefixOf e.1) then some .directory
    else none

/-- Why a place cannot be used, if the system refuses it. -/
def fault? (d : Disk) (t : Trail) (u : Use) : Option FileFault := d.faults.lookup (t, u)

/-- Follows components from a trail on. Each of them has to be looked up in
a directory that is there and can be searched, also one that leads up again,
and no directory looks up a name over the limit. -/
def descend (d : Disk) (t : Trail) : List String → Except FileFault Trail
  | [] => .ok t
  | c :: cs =>
    match d.entryAt? t with
    | some .directory =>
      match d.fault? t .search with
      | some fault => .error fault
      | none =>
        if nameLimit < c.utf8ByteSize then .error .tooLong else descend d (Trail.step t c) cs
    | some (.file _) => .error .notDirectory
    | none => .error .missing

/-- The trail that a path text leads to. Nothing but its directories has to
be there. -/
def trailOf (d : Disk) (name : String) : Except FileFault Trail :=
  if name.isEmpty then .error .missing
  else if pathLimit < name.utf8ByteSize then .error .tooLong
  else d.descend (if name.toList.head? = some '/' then [] else d.workDir) (slashParts name)

/-- What a path text leads to. -/
def find (d : Disk) (name : String) : Except FileFault Entry := do
  match d.entryAt? (← d.trailOf name) with
  | some e => .ok e
  | none => .error .missing

/-- Is there a file at a path? A path that leads nowhere or to a directory has
none, and no file has a null character in its name. -/
def isFile (d : Disk) (p : Path) : Except FileFault Bool :=
  if p.text.toList.contains '\x00' then .ok false
  else match d.find p.text with
    | .ok (.file _) => .ok true
    | .ok .directory => .ok false
    | .error fault => if fault.leadsNowhere then .ok false else .error fault

/-- The bytes of a file. -/
def read (d : Disk) (p : Path) : Except FileFault (List UInt8) := do
  let t ← d.trailOf p.text
  match d.entryAt? t with
  | none => .error .missing
  | some .directory => .error .isDirectory
  | some (.file bytes) =>
    match d.fault? t .read with
    | some fault => .error fault
    | none => .ok bytes

/-- The disk with an entry in place of the one at its trail, if any. -/
def put (d : Disk) (t : Trail) (e : Entry) : Disk :=
  if d.entries.any (·.1 == t) then
    { d with entries := d.entries.map fun old => if old.1 == t then (t, e) else old }
  else { d with entries := d.entries ++ [(t, e)] }

/-- Writes a file, which may be there already. -/
def write (d : Disk) (p : Path) (bytes : List UInt8) : Except FileFault Disk := do
  let t ← d.trailOf p.text
  match d.entryAt? t with
  | some .directory => .error .isDirectory
  | _ =>
    match d.fault? t .write with
    | some fault => .error fault
    | none => .ok (d.put t (.file bytes))

/-- The trail of a path, read off the path alone. -/
def absolute (d : Disk) (p : Path) : Trail :=
  p.parts.foldl Trail.step (if p.root.isEmpty then d.workDir else [])

/-- The files of the disk. -/
def files (d : Disk) : List (Trail × List UInt8) :=
  d.entries.filterMap fun e =>
    match e.2 with
    | .file bytes => some (e.1, bytes)
    | .directory => none

end Disk

end Micro51
