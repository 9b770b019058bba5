import Wildpath.Command.Run
import Wildpath.FileSystem.Manifest

/-!
# The program

The command, run on a tree that standard input lists: one path a line, with a slash at the end of a
directory. The file named for output is the only one that is written.
-/

set_option autoImplicit false

namespace Wildpath

partial def readLines (input : IO.FS.Stream) (before : String) : IO String := do
  let line ← input.getLine
  if line.isEmpty then return before
  readLines input (before ++ line)

/-- Writes the file that the command line names for output, if the command has made it. -/
def saveOutput (argv : List Text) (result : Command.Result) : IO Unit := do
  if let .ok settings := Command.Settings.read argv then
    if let some name := settings.output then
      if let .ok bytes := result.fs.bytesAt [] (Path.ofText name) then
        IO.FS.writeBinFile (String.ofList name) ⟨bytes.toArray⟩

def fail (message : Text) : IO UInt32 := do
  IO.eprintln (String.ofList message)
  return 1

end Wildpath

open Wildpath in
def main (args : List String) : IO UInt32 := do
  let argv := args.map String.toList
  let manifest ← readLines (← IO.getStdin) ""
  match FileSystem.ofManifest [] manifest.toList with
  | .error e => fail e.message
  | .ok fs =>
    let result := Command.result fs [] argv
    IO.print (String.ofList result.stdout)
    IO.eprint (String.ofList result.stderr)
    if result.code = 0 then saveOutput argv result
    return result.code.toUInt32
