import Debundle.Run.Command

/-!
# The program

Brings the input file into a store, runs the command there, and carries what has changed back to
the disk. There is no network here, so every lookup finds the registry out of reach.
-/
namespace Debundle.Main

/-- The store that holds the input, if it is there. -/
def load (cwd : List Char) (arguments : List String) : IO Store := do
  let store := Store.empty cwd
  let input := match Arguments.ofList arguments with
    | .ok a => a.input
    | .error _ => none
  match input with
  | none => return store
  | some file =>
    let path := file.toList
    try
      let text ← IO.FS.readFile file
      return (store.save cwd path text).1
    catch
      | .inappropriateType .. => return (Store.makeDirectories cwd (path.length + 1) path store).1
      | _ => return store

/-- Writes the changed files. -/
def carry (cwd : List Char) (before after : Store) : IO Unit :=
  for (path, text) in before.changes after cwd do
    let directory := String.ofList (Path.directory path.toList)
    if directory ≠ "" then IO.FS.createDirAll directory
    IO.FS.writeFile path text

def run (arguments : List String) : IO UInt32 := do
  let cwd := (← IO.currentDir).toString
  let before ← load cwd.toList arguments
  let result := Command.run ⟨cwd, fun _ => .disconnected⟩ before arguments
  IO.print result.output
  IO.eprint result.errors
  try
    carry cwd.toList before result.store
    match result.status with
    | .ok status => return status.toUInt32
    | .error _ => return 1
  catch e =>
    IO.eprintln ("Error: " ++ toString e)
    return 1

end Debundle.Main

def main (arguments : List String) : IO UInt32 :=
  Debundle.Main.run arguments
