import Debundle.Ordered
import Debundle.Text.Path
import Debundle.Text.Quoted

/-!
# Stores of files

A store holds files and directories by their places below the root. A path leads to a place
through directories that exist.
-/
namespace Debundle

/-- A place in a store: the components on the way from the root. -/
abbrev Location := List (List Char)

/-- Why a path cannot be used. -/
inductive FileFault where
  | missing | isDirectory | taken | notDirectory | tooLong | zeroByte
  deriving DecidableEq

structure FileError where
  fault : FileFault
  path : List Char
  deriving DecidableEq

namespace FileError

def reason : FileFault → String
  | .missing => "[Errno 2] No such file or directory: "
  | .isDirectory => "[Errno 21] Is a directory: "
  | .taken => "[Errno 17] File exists: "
  | .notDirectory => "[Errno 20] Not a directory: "
  | .tooLong => "[Errno 36] File name too long: "
  | .zeroByte => "embedded null byte: "

def message (e : FileError) : String :=
  reason e.fault ++ Text.quoted (String.ofList e.path)

end FileError

/-- What stands at a place. -/
inductive StoreEntry where
  | file (text : String)
  | directory
  deriving DecidableEq

structure Store where
  entries : List (Location × StoreEntry) := []
  deriving DecidableEq

namespace Store

/-- What stands at a place; at the root there is a directory. -/
def entry? (s : Store) (place : Location) : Option StoreEntry :=
  if place = [] then some .directory else Ordered.get? place s.entries

def put (s : Store) (place : Location) (entry : StoreEntry) : Store :=
  ⟨Ordered.put place entry s.entries⟩

/-- The number of bytes that a text takes. -/
def size (cs : List Char) : Nat :=
  (cs.map Char.utf8Size).foldr (· + ·) 0

/-- How many bytes a component may take. -/
def maxComponent : Nat := 255

/-- How many bytes a path may take. -/
def maxPath : Nat := 4095

/-- Goes on from a place, which has to be a directory. -/
def step (s : Store) (place : Location) (part : List Char) : Except FileFault Location :=
  match s.entry? place with
  | none => .error .missing
  | some (.file _) => .error .notDirectory
  | some .directory =>
    if part = [] || part = Path.here then .ok place
    else if part = Path.up then .ok place.dropLast
    else if maxComponent < size part then .error .tooLong
    else .ok (place ++ [part])

def ofAbsolute (p : List Char) : Location :=
  (Path.components p).filter (· ≠ [])

/-- The place to which a path leads. -/
def locate (s : Store) (cwd p : List Char) : Except FileFault Location :=
  if p = [] then .error .missing
  else if p.contains '\x00' then .error .zeroByte
  else if maxPath < size p then .error .tooLong
  else (Path.components p).foldlM s.step (if Path.isAbsolute p then [] else ofAbsolute cwd)

def at? (s : Store) (cwd p : List Char) : Option StoreEntry :=
  match s.locate cwd p with
  | .ok place => s.entry? place
  | .error _ => none

/-- The text of a file. -/
def read (s : Store) (cwd p : List Char) : Except FileError String :=
  match s.locate cwd p with
  | .error fault => .error ⟨fault, p⟩
  | .ok place =>
    match s.entry? place with
    | none => .error ⟨.missing, p⟩
    | some .directory => .error ⟨.isDirectory, p⟩
    | some (.file text) => .ok text

/-- Makes a directory in one that exists. -/
def makeDirectory (s : Store) (cwd p : List Char) : Except FileError Store :=
  match s.locate cwd p with
  | .error fault => .error ⟨fault, p⟩
  | .ok place =>
    match s.entry? place with
    | some _ => .error ⟨.taken, p⟩
    | none => .ok (s.put place .directory)

/-- The directory of a path and its last component, slashes at the end apart. -/
def splitLast (p : List Char) : List Char × List Char :=
  if Path.base p = [] then
    (Path.directory (Path.directory p), Path.base (Path.directory p))
  else (Path.directory p, Path.base p)

/-- Makes a directory unless there is one. -/
def ensureDirectory (s : Store) (cwd p : List Char) : Store × Option FileError :=
  match s.makeDirectory cwd p with
  | .ok s => (s, none)
  | .error e => (s, if s.at? cwd p = some .directory then none else some e)

/-- Makes a directory and those on the way to it. The number bounds how many there are. -/
def makeDirectories (cwd : List Char) : Nat → List Char → Store → Store × Option FileError
  | 0, _, s => (s, none)
  | bound + 1, p, s =>
    let (head, tail) := splitLast p
    if head ≠ [] && tail ≠ [] && (s.at? cwd head).isNone then
      match makeDirectories cwd bound head s with
      | (s, some e) =>
        if e.fault ≠ .taken then (s, some e)
        else if tail = Path.here then (s, none)
        else s.ensureDirectory cwd p
      | (s, none) => if tail = Path.here then (s, none) else s.ensureDirectory cwd p
    else s.ensureDirectory cwd p

/-- Writes a file in a directory that exists. -/
def write (s : Store) (cwd p : List Char) (text : String) : Except FileError Store :=
  match s.locate cwd p with
  | .error fault => .error ⟨fault, p⟩
  | .ok place =>
    match s.entry? place with
    | some .directory => .error ⟨.isDirectory, p⟩
    | _ => .ok (s.put place (.file text))

/-- Writes a file, and makes the directories on the way to it. -/
def save (s : Store) (cwd p : List Char) (text : String) : Store × Option FileError :=
  let directory := Path.directory p
  let (s, error) := if directory = [] then (s, none)
    else makeDirectories cwd (directory.length + 1) directory s
  match error with
  | some e => (s, some e)
  | none =>
    match s.write cwd p text with
    | .ok s => (s, none)
    | .error e => (s, some e)

/-- The store in which the working directory exists and is empty. -/
def empty (cwd : List Char) : Store :=
  (makeDirectories [] (cwd.length + 1) cwd {}).1

def ofFiles (cwd : List Char) (files : List (String × String)) : Store :=
  files.foldl (fun s (path, text) => (s.save cwd path.toList text).1) (empty cwd)

def files (s : Store) : List (Location × String) :=
  s.entries.filterMap fun (place, entry) =>
    match entry with
    | .file text => some (place, text)
    | .directory => none

/-- The files of a store that another one does not hold or holds with another text, by their paths
from the working directory. -/
def changes (before after : Store) (cwd : List Char) : List (String × String) :=
  (after.files.filter fun (place, text) => before.entry? place ≠ some (.file text)).map
    fun (place, text) =>
      let path := '/' :: Path.ofComponents place
      (String.ofList ((Path.relative? cwd path cwd).getD path), text)

end Store

end Debundle
