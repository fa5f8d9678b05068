/- # The program `tcc`

Collects the files that a run may look at, runs the command on them, and
carries out what it decided: writes the output file, prints, exits.
-/
import Micro51.CommandLine.Lookups

namespace Micro51

/-- What stands at a trail. -/
def probe (t : Trail) : IO (Option Entry) := do
  let path := (← IO.currentDir) / Trail.text t
  if ← path.isDir then return some .directory
  try
    return some (.file (← IO.FS.readBinFile path).data.toList)
  catch _ =>
    return none

/-- Adds to a disk all that a run may look at; `seen` has been looked at. -/
partial def collect (words : List String) (seen : List Trail) (d : Disk) : IO Disk := do
  let fresh := ((CommandLine.lookups d words).filter (!seen.contains ·)).eraseDups
  if fresh.isEmpty then return d
  let mut d := d
  for t in fresh do
    if let some e ← probe t then d := d.put t e
  collect words (seen ++ fresh) d

/-- Writes the files that differ from those before the run. -/
def save (before after : Disk) : IO Unit := do
  for (t, bytes) in after.files do
    if before.entries.lookup t != some (.file bytes) then
      IO.FS.writeBinFile ((← IO.currentDir) / Trail.text t) ⟨bytes.toArray⟩

end Micro51

open Micro51 in
/-- Runs the command. -/
def main (words : List String) : IO UInt32 := do
  let workDir := (slashParts (← IO.currentDir).toString).filter (· ≠ "")
  let d ← collect words [] { entries := [], workDir }
  let console := .ofTerminals (← (← IO.getStdout).isTty) (← (← IO.getStderr).isTty)
  let r := CommandLine.run (CommandLine.readWords console) console d words
  try
    save d r.disk
  catch e =>
    let failure := CommandLine.Failure.arguments (toString e)
    IO.eprint (console.err failure.text)
    return failure.exitCode.toUInt32
  IO.print r.out
  IO.eprint r.err
  return r.exitCode.toUInt32
