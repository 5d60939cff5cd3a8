import Debundle.Text.Quoted
import Debundle.Tree.Slots

/-!
# Descriptions of trees

A tree as one line that names every kind and slot, and the record of a walk over a tree.
-/
namespace Debundle

namespace Slot

/-- A slot whose nodes are described already. -/
def describe : Slot (Except Defect String) → Except Defect String
  | .absent => .ok "None"
  | .node s => s
  | .nodes items => do return "[" ++ ", ".intercalate (← items.mapM id) ++ "]"
  | .text s => .ok (Text.quoted s)
  | .flag true => .ok "True"
  | .flag false => .ok "False"
  | .number n =>
    match n.plain? with
    | some s => .ok s
    | none => .error .oversizedNumber

end Slot

namespace Node

def describe : Node → Except Defect String :=
  foldUp fun _ form => do
    let slots ← (form.map Prod.snd).slots.mapM fun slot => do
      return slot.1 ++ "=" ++ (← slot.2.describe)
    return form.kindName ++ "(" ++ ", ".intercalate slots ++ ")"

/-- What happens on a walk: a node is met, with the kinds of its parent and grandparent, or left
after its children were walked on its own demand. -/
inductive Event where
  | met (kind : String) (line : Option Nat) (parent grandparent : Option String)
  | left (kind : String)
  deriving DecidableEq

/-- The record of a walk from the top down that passes over the children of some kinds, and
reports the end of some others. -/
def events (skipped reported : List String) (n : Node) : List Event :=
  let walk : Node → List String → List Event :=
    foldUp fun line form above =>
      let kind := form.kindName
      let below := (form.children.map fun child => child.2 (kind :: above)).flatten
      Event.met kind line above[0]? above[1]? ::
        if kind ∈ reported then below ++ [.left kind]
        else if kind ∈ skipped then []
        else below
  walk n []

end Node

end Debundle
