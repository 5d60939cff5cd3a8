import Debundle.Reading.Build

/-!
# Where nodes stand

What a node has to know of its surroundings to decide whether it needs parentheses.
-/
namespace Debundle

/-- The position of a node in its parent, as far as parentheses depend on it. -/
inductive Standing where
  | plain
  | header
  | callee (ofNew : Bool)
  | argument
  | operand
  | chained (operator : String) (right : Bool)
  | assigned
  | object (ofDot : Bool)
  | key
  | condition
  | choice
  | member
  deriving DecidableEq

/-- A place for a node: its standing, whether an expression statement starts with it, and whether
it belongs to the first part of a `for` header. -/
structure Place where
  standing : Standing
  leads : Bool
  forInit : Bool
  deriving DecidableEq

namespace Place

/-- A place with nothing around it. -/
def root : Place := ⟨.plain, false, false⟩

/-- A place inside an expression that stands at `p`. -/
def inside (p : Place) (standing : Standing) : Place := ⟨standing, false, p.forInit⟩

/-- The place of the part with which an expression at `p` begins. -/
def leading (p : Place) (standing : Standing) : Place := ⟨standing, p.leads, p.forInit⟩

end Place

namespace Node

/-- Whether the object from which properties are taken is in the end a call without `new`. -/
def startsWithCall : Node → Bool :=
  foldUp fun _ form =>
    match form with
    | .dot object _ => object.2
    | .index object _ => object.2
    | .loose (.dot _) (object :: _) => object.2
    | .call .. => true
    | _ => false

end Node

/-- Whether an operator chain needs parentheses inside another chain. -/
def Standing.encloses (parent : String) (right : Bool) (operator : String) :
    Except Defect Bool :=
  match precedence? parent, precedence? operator with
  | some outer, some inner => .ok (outer > inner || (outer == inner && right))
  | _, _ => .error .unknownOperator

/-- Whether a node needs parentheses at a place. -/
def Place.parenthesizes (place : Place) (form : Form Node) : Except Defect Bool :=
  let standing := place.standing
  match form with
  | .function .expression .. | .object _ => .ok place.leads
  | .sequence _ =>
    match standing with
    | .plain | .header => .ok false
    | _ => .ok true
  | .unary .. | .update .. =>
    match standing with
    | .object _ | .callee false => .ok true
    | _ => .ok false
  | .binary operator .. =>
    match standing with
    | .operand | .object _ | .callee _ => .ok true
    | .chained parent right => do
      if ← Standing.encloses parent right operator then return true
      return operator = "in" && place.forInit
    | _ => .ok (operator = "in" && place.forInit)
  | .assign .. | .conditional .. =>
    match standing with
    | .operand | .chained .. | .callee _ | .condition | .object _ => .ok true
    | _ => .ok false
  | .call .. => .ok (standing = .callee true)
  | .dot object _ | .index object _ => .ok (standing = .callee true && object.startsWithCall)
  | .loose (.dot _) (object :: _) => .ok (standing = .callee true && object.startsWithCall)
  | .number _ | .loose (.number _ _) _ => .ok (standing = .object true)
  | _ => .ok false

end Debundle
