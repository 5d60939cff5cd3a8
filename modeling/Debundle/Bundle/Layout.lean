import Debundle.Ordered
import Debundle.Report
import Debundle.Tree.Node

/-!
# Layout of bundles

A bundle is a program with one outermost call. Its first argument maps the ids of modules to their
functions and require maps, its third one lists the ids of the entries.
-/
namespace Debundle

/-- Why a bundle cannot be taken apart, if not for a cause that is reported. -/
inductive BundleFault where
  | problem (problem : Problem)
  /-- An id is a number too large to be written. -/
  | oversizedId
  /-- A module without a name is required. -/
  | namelessTarget
  deriving DecidableEq

/-- The calls of a program that are in no function and in no other call. -/
def Node.outermostCalls (n : Node) : List Node :=
  (n.walk fun n => n.form.isCall || n.form.isFunction).filter (·.form.isCall)

/-- The module map and the entry list of a bundle. -/
structure Bundle where
  modules : List Node
  entries : List Node

/-- A module of a bundle: its function and its require map. -/
structure Source where
  function : Node
  requires : Node

namespace Bundle

/-- The only outermost call of a program, if there is one. -/
def kernel? (file : Option String) (program : Node) : Except Problem (Option Node) :=
  match program.outermostCalls with
  | [] => .ok none
  | [call] => .ok (some call)
  | first :: second :: _ =>
    .error { cause := .severalCalls first.line, file := file, line := second.line }

def arguments (call : Node) : List Node :=
  match call.form with
  | .call _ arguments | .construct _ arguments => arguments
  | _ => []

def callee (call : Node) : Node :=
  match call.form with
  | .call callee _ | .construct callee _ => callee
  | _ => .missing

/-- Takes the arguments of the outermost call apart. -/
def ofKernel (file : Option String) (call : Node) : Except Problem Bundle :=
  match arguments call with
  | map :: _ :: list :: _ =>
    match map.form, list.form with
    | .object modules, .array entries => .ok ⟨modules, entries⟩
    | .object _, _ =>
      .error { cause := .entriesNotArray, file := file, line := list.line <|> call.line }
    | _, _ => .error { cause := .mapNotObject, file := file, line := map.line <|> call.line }
  | few => .error { cause := .fewArguments few.length, file := file, line := call.line }

/-- The module id that a literal denotes; other expressions denote none. -/
def id? (n : Node) : Except BundleFault (Option String) :=
  let text := fun (t : Option String) =>
    match t with
    | some t => .ok (some t)
    | none => .error .oversizedId
  match n.form with
  | .string value => .ok (some value)
  | .number (.whole n) => text (Numeral.wholeText? n)
  | .number (.double d) =>
    match d.toInt? with
    | some n => text (Numeral.wholeText? n)
    | none => text (Numeral.plain? (.double d))
  | _ => .ok none

/-- One property of the module map. -/
def source (file : Option String) (property : Node) : Except Problem (String × Source) :=
  match property.form with
  | .property .keyValue key value =>
    let malformed := Except.error
      ({ cause := .mapEntry key, file := file, line := property.line } : Problem)
    match value.form with
    | .array (function :: requires :: _) =>
      match function.form, requires.form with
      | .function .expression .., .object _ => .ok (key, ⟨function, requires⟩)
      | .function .expression .., _ =>
        .error { cause := .noRequireMap key, file := file, line := value.line }
      | _, _ => malformed
    | _ => malformed
  | _ => .error { cause := .accessorInMap, file := file, line := property.line }

/-- The modules by their ids. Of several with one id the last is taken. -/
def sources (file : Option String) (b : Bundle) : Except Problem (List (String × Source)) :=
  (b.modules.mapM (source file)).map Ordered.ofList

/-- The key of a property. -/
def key (property : Node) : String :=
  match property.form with
  | .property _ key _ => key
  | _ => ""

end Bundle

/-- A property of a require map: a specifier and the id of the module to which it leads, if it
leads to one. -/
structure Edge where
  specifier : String
  target : Except BundleFault (Option String)

def Source.edges (s : Source) : List Edge :=
  match s.requires.form with
  | .object properties => properties.map fun property =>
    match property.form with
    | .property .keyValue key value => ⟨key, Bundle.id? value⟩
    | _ => ⟨Bundle.key property, .ok none⟩
  | _ => []

end Debundle
