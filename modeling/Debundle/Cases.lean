import Debundle.Normal.Normalize
import Debundle.Reading.Parse
import Debundle.Scope.Resolve
import Debundle.Tree.Slots
import Debundle.Writing.Layout

/-!
# Rule cases

A file of cases is a program of labelled blocks. Each block is a case: it may hold a description,
an input and what the input is expected to become.
-/
namespace Debundle

structure RuleCase where
  name : String
  description : Option String := none
  input : Option Node := none
  expect : Option Node := none

namespace RuleCase

/-- What a case is called: its description, or else its label. -/
def title (c : RuleCase) : String :=
  match c.description with
  | some text => if text = "" then c.name else text
  | none => c.name

/-- Takes in one labelled part of a case. -/
def addPart (file : String) (c : RuleCase) (part : Node) : Except Problem RuleCase :=
  match part.form with
  | .labeled "description" body =>
    match body.form with
    | .simple (.mk _ (.string text)) => .ok { c with description := some text }
    | _ => .error { cause := .badDescription, file := file, line := part.line }
  | .labeled "input" body => .ok { c with input := some body }
  | .labeled "expect" body => .ok { c with expect := some body }
  | .labeled label _ =>
    .error { cause := .unsupportedLabel label, file := file, line := part.line }
  | form => .error { cause := .unsupportedPart form.kindName, file := file, line := part.line }

def ofStatement (file : String) (statement : Node) : Except Problem RuleCase :=
  match statement.form with
  | .labeled label body =>
    let parts := match body.form with
      | .block parts => parts
      | _ => [body]
    parts.foldlM (addPart file) { name := label }
  | form =>
    .error { cause := .unsupportedStatement form.kindName, file := file, line := statement.line }

def statements (program : Node) : List Node :=
  match program.form with
  | .program body => Scope.resolveBody body
  | _ => []

/-- The cases of a file with a given text, in their order. -/
def load (file text : String) : Except ReadFailure (List RuleCase) := do
  let program ← (parse file (String.ofList (Text.unifyLines text.toList))).result
  ((statements program).mapM (ofStatement file)).mapError .problem

/-- The input as it is after normalisation, and what was expected. -/
def run (rules : Normal.Rules) (style : Style) (c : RuleCase) :
    Except Defect (String × String) := do
  let actual ← ((c.input.getD .missing).normalize rules).print style
  let expected ← (c.expect.getD .missing).print style
  return (actual, expected)

end RuleCase

end Debundle
