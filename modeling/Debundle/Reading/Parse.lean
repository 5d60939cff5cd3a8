import Debundle.Log
import Debundle.Reading.Build
import Debundle.Reading.Reader

/-!
# Reading programs

`parse` takes a text to its tree, and tells where semicolons were supplied on the way.
-/
namespace Debundle

/-- Why a text has no tree. -/
inductive ReadFailure where
  | problem (problem : Problem)
  | literal (place : Build.Place) (fault : Literal.Fault)

structure Reading where
  result : Except ReadFailure Node
  /-- Supplied semicolons, in the order of the text. -/
  insertions : List Insertion

/-- What is logged about a supplied semicolon. -/
def Insertion.entry (i : Insertion) : Log.Entry :=
  ⟨.debug, "Inserting semicolon before " ++ i.terminal.title ++ " at line " ++ toString i.line⟩

def Reading.logged (r : Reading) : Logged ReadFailure Node :=
  ⟨r.insertions.map Insertion.entry, r.result⟩

/-- A first line that starts with `#!` is a comment. -/
def maskHashbang : List Char → List Char
  | '#' :: '!' :: rest => '/' :: '/' :: rest
  | cs => cs

namespace ReadFailure

def ofStop (file source : String) : Reader.Stop → ReadFailure
  | .token t =>
    let cause := if t.terminal = .finish then Cause.unexpectedEnd else .unexpectedToken t.text
    .problem ⟨cause, file, t.line, t.column, lineContext source t.line⟩
  | .character c line column =>
    .problem ⟨.unexpectedCharacter c, file, line, column, lineContext source line⟩
  | .newlineAfterThrow t =>
    .problem ⟨.newlineAfterThrow, file, t.line, t.column, lineContext source t.line⟩
  | .broken => .problem ⟨.unexpectedEnd, file, none, none, none⟩

def ofFault (file source : String) : Build.Fault → ReadFailure
  | .literal place fault => .literal place fault
  | .forHeader line column =>
    .problem ⟨.forHeader, file, line, column, lineContext source line⟩
  | .strayWord word line column =>
    .problem ⟨.strayWord word, file, line, column, lineContext source line⟩
  | .misfit => .problem ⟨.unexpectedEnd, file, none, none, none⟩

end ReadFailure

/-- The name of a text that comes from no file. -/
def unnamedFile : String := "<input>"

/-- Reads a program. -/
def parse (file text : String) : Reading :=
  let cs := maskHashbang text.toList
  let source := String.ofList cs
  let (outcome, reader) := Reader.read cs
  let result := match outcome with
    | .error stop => .error (ReadFailure.ofStop file source stop)
    | .ok derivation =>
      match Build.tree derivation with
      | .ok node => .ok node
      | .error fault => .error (ReadFailure.ofFault file source fault)
  ⟨result, reader.insertions.reverse⟩

end Debundle
