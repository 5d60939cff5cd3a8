import Debundle.Scope.Resolve
import Debundle.Tree.Slots

/-!
# Tables of scopes and definitions

All scopes of a resolved program, and for every definition where it is declared and used. Scopes
and names are numbered from the top down.
-/
namespace Debundle

namespace Scope

structure Opened where
  kind : String
  line : Option Nat
  address : List Nat
  parent : Option (List Nat)
  names : List String

/-- The scopes that a node opens at an address, inside the scope `parent`. -/
def openedIn : Node → Option (List Nat) → List Nat → List Opened :=
  Node.foldUp fun line form parent address =>
    let below := fun (parent : Option (List Nat)) =>
      (form.enumerate.children.map fun child => child.2.2 parent (address ++ [child.1])).flatten
    let kind := form.kindName
    match form with
    | .program body =>
      ⟨kind, line, address, parent, programNames (body.map Prod.fst)⟩ :: below (some address)
    | .function k name parameters body =>
      ⟨kind, line, address, parent, functionNames k (name.map Prod.fst)
        (parameters.map Prod.fst) (body.map Prod.fst)⟩ :: below (some address)
    | .handler caught _ =>
      ⟨kind, line, address, parent, symbolNames caught.1⟩ :: below (some address)
    | _ => below parent

def opened (n : Node) : List Opened :=
  openedIn n none []

/-- The names of a tree with their lines, from the top down. -/
def symbols (n : Node) : List (Symbol × Option Nat) :=
  n.preorder.filterMap fun n =>
    match n.form with
    | .symbol s => some (s, n.line)
    | _ => none

/-- A definition: a name and its home. -/
structure Definition where
  home : Home
  name : String
  deriving DecidableEq

def definition? (s : Symbol) : Option Definition :=
  s.home.map (⟨·, s.name⟩)

/-- The definitions of a tree in the order in which they first appear. -/
def definitions (n : Node) : List Definition :=
  ((symbols n).filterMap fun s => definition? s.1).eraseDups

/-- The positions, among the names of a tree, of those of a definition that have one of the given
roles. -/
def positions (n : Node) (d : Definition) (roles : List Role) : List Nat :=
  (symbols n).zipIdx.filterMap fun s =>
    if definition? s.1.1 = some d && decide (s.1.1.role ∈ roles) then some s.2 else none

/-- Where a definition is declared. A function's own name declares it only if nothing else in the
function does. -/
def declarations (n : Node) (d : Definition) : List Nat :=
  match positions n d [.variable, .parameter, .functionName, .caught] with
  | [] => positions n d [.ownName]
  | others => others

def references (n : Node) (d : Definition) : List Nat :=
  positions n d [.reference]

/-- Names that are used but nowhere declared. -/
def freeNames (n : Node) : List String :=
  (definitions n).filterMap fun d => if d.home = .free then some d.name else none

end Scope

end Debundle
