import Debundle.Bundle.Naming
import Debundle.Scope.Resolve

/-!
# Assembling modules

A module function becomes a program: its parameters are shown under the names that modules know
them by, and its `require` calls lead to the files of the modules that they name.
-/
namespace Debundle

/-- The names by which modules know the arguments of their functions. -/
def wrapperNames : List String :=
  ["require", "module", "exports", "moduleSource", "loadedModules", "mainIds"]

/-- A module with its name and with the names of what it requires. -/
structure ModuleRecord where
  id : String
  name : String
  function : Node
  requires : List (String × String)

namespace Source

/-- Names what a module named `name` requires. -/
def targets (file : Option String) (table : NameTable) (name : String) (line : Option Nat) :
    List Edge → Logged BundleFault (List (String × String))
  | [] => return []
  | edge :: rest =>
    match edge.target with
    | .error fault => .fail fault
    | .ok none => do
      Naming.skip edge.specifier
      targets file table name line rest
    | .ok (some target) =>
      match table.get? target with
      | none => .fail (.problem
          { cause := .unnamedTarget name edge.specifier target, file := file, line := line })
      | some targetName => do
        let others ← targets file table name line rest
        return (edge.specifier, targetName) :: others

/-- The record of a module. -/
def record (file : Option String) (table : NameTable) (id : String) (s : Source) :
    Logged BundleFault ModuleRecord := do
  match table.get? id with
  | none => .fail (.problem
      { cause := .unnamedModule id, file := file, line := s.function.line })
  | some name =>
    let requires ← targets file table name s.requires.line s.edges
    return ⟨id, name, s.function, requires⟩

end Source

namespace ModuleRecord

/-- The parameters of the module function that are shown under another name. -/
def shown (function : Node) : List (Symbol × String) :=
  match function.form with
  | .function _ _ parameters _ =>
    (parameters.zip wrapperNames).filterMap fun (parameter, name) =>
      match parameter.form with
      | .symbol s => if s.name = name then none else some (s, name)
      | _ => none
  | _ => []

/-- The name under which a parameter of the module function is shown. Of several parameters with
one name the last counts. -/
def shownAs (function : Node) (home : Home) (name : String) : Option String :=
  ((shown function).reverse.find? fun (s, _) => s.home = some home && s.name = name).map Prod.snd

def statements (function : Node) : List Node :=
  match function.form with
  | .function _ _ _ body => body
  | _ => []

/-- The statements of a module function, with its parameters under their proper names. -/
def unwrap (function : Node) : List Node :=
  (statements function).map (Node.showAs (shownAs function))

end ModuleRecord

namespace Node

def isRequire (n : Node) : Bool :=
  match n.form with
  | .symbol s => s.role = .reference && (s.name = "require" || s.shownAs = some "require")
  | _ => false

/-- The specifier of a call that requires a module. -/
def required? : Form Node → Option String
  | .call callee [.mk _ (.string specifier)] => if callee.isRequire then some specifier else none
  | _ => none

/-- Gives a call another text as its only argument. -/
def withSpecifier (specifier : String) : Form Node → Form Node
  | .call callee [.mk line _] => .call callee [.mk line (.string specifier)]
  | form => form

/-- Changes the specifiers of the calls that require a module. -/
def relink (link : String → Option String) : Node → Node :=
  foldUp fun line form =>
    mk line (match (required? (form.map Prod.fst)).bind link with
      | some specifier => withSpecifier specifier (form.map Prod.snd)
      | none => form.map Prod.snd)

end Node

namespace ModuleRecord

/-- The name of what the module requires by a specifier, if that is extracted too. -/
def ownTarget? (r : ModuleRecord) (specifier : String) : Option String :=
  match Ordered.get? specifier r.requires.reverse with
  | none => none
  | some target => if ModuleName.classify target = .own then some target else none

/-- The specifier that leads to the file of what the module requires. -/
def link (cwd : String) (r : ModuleRecord) (specifier : String) : Option String :=
  (r.ownTarget? specifier).bind (ModuleName.specifier? cwd r.name)

/-- Whether a node requires a module that has an empty name. -/
def requiresNameless (cwd : String) (r : ModuleRecord) (n : Node) : Bool :=
  match (Node.required? n.form).bind r.ownTarget? with
  | some target => (ModuleName.specifier? cwd r.name target).isNone
  | none => false

/-- The statements of the module as a program of its own. -/
def program (cwd : String) (r : ModuleRecord) : Except BundleFault (List Node) :=
  let body := unwrap r.function
  if body.any fun n => n.preorder.any (r.requiresNameless cwd) then .error .namelessTarget
  else .ok (body.map (Node.relink (r.link cwd)))

end ModuleRecord

/-- The programs of a bundle by their names, and the packages on which they depend. -/
structure Assembly where
  modules : List (String × List Node)
  dependencies : List String := []

namespace Assembly

/-- Every entry name has a program at first, an empty one. -/
def start (table : NameTable) (known : List String) : Assembly :=
  ⟨Ordered.ofList (table.entries.map (·, [])), known⟩

/-- Adds statements to the program with a name. -/
def append (a : Assembly) (name : String) (body : List Node) : Assembly :=
  { a with
    modules := Ordered.put name (((Ordered.get? name a.modules).getD []) ++ body) a.modules }

def depend (a : Assembly) (package : String) : Assembly :=
  if package ∈ a.dependencies then a else { a with dependencies := a.dependencies ++ [package] }

/-- Takes in a module of a bundle. -/
def add (cwd : String) (file : Option String) (table : NameTable) (a : Assembly) :
    String × Source → Logged BundleFault Assembly
  | (id, source) =>
    match table.get? id with
    | none => do
      .debug ("Skipping unreachable module " ++ id)
      return a
    | some name =>
      match ModuleName.classify name with
      | .builtin => do
        .debug ("Skipping builtin module " ++ name)
        return a
      | .dependency => do
        let package := (ModuleName.package? name).getD ""
        .debug ("Recording dependency " ++ package)
        return a.depend package
      | .own => do
        let record ← source.record file table id
        let body ← .ofExcept (record.program cwd)
        return a.append record.name body

/-- Assembles the modules of a bundle that have a name. Dependencies that are `known` before are
kept. -/
def ofBundle (cwd : String) (file : Option String) (table : NameTable) (b : Bundle)
    (known : List String := []) : Logged BundleFault Assembly := do
  let sources ← .ofExcept ((b.sources file).mapError .problem)
  sources.foldlM (add cwd file table) (start table known)

/-- The programs as trees. -/
def programs (a : Assembly) : List (String × Node) :=
  a.modules.map fun (name, body) => (name, .mk none (.program body))

/-- The dependencies in the order of their code points. -/
def sortedDependencies (a : Assembly) : List String :=
  a.dependencies.mergeSort (fun x y => decide (x ≤ y))

end Assembly

end Debundle
