import Debundle.Normal.Sequence

/-!
# Normal form of minified programs

Minifiers write `!0` for `true`, join statements by commas, and use operators in place of `if`.
`Node.normalize` takes this back, from the top of the tree down.
-/
namespace Debundle

namespace Normal

/-- Which rules are applied. -/
structure Rules where
  constants : Bool := true
  sequences : Bool := true
  conditionals : Bool := true
  deriving DecidableEq

/-- The value of a number. -/
def numeral? (n : Node) : Option Numeral :=
  match n.form with
  | .number value => some value
  | .loose (.number _ value) _ => value.map fun k => .whole k
  | _ => none

/-- The constants that `0/0`, `1/0`, `!0` and `!1` denote. -/
def constant : Form Node → Form Node
  | .binary "/" left right =>
    match numeral? left, numeral? right with
    | some a, some b =>
      if b.isZero && a.isZero then .nan
      else if b.isZero && a.isOne then .infinity
      else .binary "/" left right
    | _, _ => .binary "/" left right
  | .unary "!" operand =>
    match numeral? operand with
    | some a =>
      if a.isZero then .boolean true
      else if a.isOne then .boolean false
      else .unary "!" operand
    | none => .unary "!" operand
  | form => form

/-- The name `undefined`, unless declared in the program, or `void` of a number. -/
def isUndefined : Node → Bool
  | .mk _ (.symbol s) =>
    s.role = .reference && s.name = "undefined" && (s.home = none || s.home = some .free)
  | .mk _ (.unary "void" (.mk _ (.number _))) => true
  | .mk _ (.unary "void" (.mk _ (.loose (.number _ _) _))) => true
  | _ => false

def isMissing (n : Node) : Bool :=
  match n.form with
  | .absent .node => true
  | _ => false

def returning (line : Option Nat) (value : Node) : Node :=
  .mk line (.exit .returning (if isUndefined value || isMissing value then none else some value))

def negation (n : Node) : Node :=
  if n.form.isAbsent then .faulty .missingNode else .mk n.line (.unary "!" n)

/-- Operator statements and returned conditionals as `if` statements. -/
def choice (line : Option Nat) : Form Node → Form Node
  | .simple (.mk _ (.binary "&&" left right)) => .ifElse left right.asStatement none
  | .simple (.mk _ (.binary "||" left right)) =>
    .ifElse (negation left) right.asStatement none
  | .simple (.mk _ (.conditional condition consequent alternative)) =>
    .ifElse condition consequent.asStatement (some alternative.asStatement)
  | .exit .returning (some (.mk _ (.conditional condition consequent alternative))) =>
    .ifElse condition (returning line consequent) (some (returning line alternative))
  | form => form

/-- Literals, whose evaluation does nothing. -/
def isLiteral (n : Node) : Bool :=
  match n.form with
  | .string _ | .number _ | .regexp _ | .null | .nan | .infinity | .boolean _ => true
  | .loose .constant _ | .loose .atom _ | .loose .string _ | .loose (.regexp _) _
  | .loose (.number _ _) _ => true
  | _ => false

/-- Turns `return void x` into `x; return`. -/
def splitVoid : Node → List Node
  | .mk line (.exit .returning (some (.mk _ (.unary "void" operand)))) =>
    let bare := Node.mk line (.exit .returning none)
    if isLiteral operand then [bare] else [operand.asStatement, bare]
  | n => [n]

/-- The first fault among some nodes. -/
def firstFault? (ns : List Node) : Option Defect :=
  ns.findSome? (·.form.defect?)

/-- Several statements in the place of one. -/
def wrap (n : Node) (parts : List Node) : Node :=
  match firstFault? parts, parts with
  | some cause, _ => .faulty cause
  | none, [part] => part
  | none, parts => .mk n.line (.block parts)

/-- Splits every statement of a list. -/
def splitList (split : Node → List Node) (body : List Node) : List Node :=
  match Node.listFault? body with
  | some cause => [.faulty cause]
  | none => body.flatMap split

/-- Splits every statement of a list, and every statement under the control of another. Under a
label nothing is split where `labels` is false, since the label would come off. -/
def splitBodies (labels : Bool) (split : Node → List Node) (form : Form Node) : Form Node :=
  let single := fun n => wrap n (split n)
  let many := splitList split
  match form with
  | .program body => .program (many body)
  | .block body => .block (many body)
  | .switch subject branches => .switch subject (many branches)
  | .branch test body => .branch test (many body)
  | .tryBlock body caught last => .tryBlock (many body) caught last
  | .handler caught body => .handler caught (many body)
  | .finalizer body => .finalizer (many body)
  | .function kind name parameters body => .function kind name parameters (many body)
  | .loose .block body => .loose .block (many body)
  | .labeled label body => if labels then .labeled label (single body) else .labeled label body
  | .doWhile body condition => .doWhile (single body) condition
  | .whileLoop condition body => .whileLoop condition (single body)
  | .forLoop init condition step body => .forLoop init condition step (single body)
  | .forIn init object body => .forIn init object (single body)
  | .withObject object body => .withObject object (single body)
  | .ifElse condition body alternative =>
    .ifElse condition (single body) (alternative.map single)
  | .loose .controlling parts => .loose .controlling (parts.map single)
  | form => form

/-- A node is at fault where one of its children is. -/
def surface (form : Form Node) : Form Node :=
  match firstFault? form.children with
  | some cause => .defect cause
  | none => form

/-- Applies the rules to a node, not to what is below it. -/
def settle (rules : Rules) (line : Option Nat) (form : Form Node) : Form Node :=
  let form := if rules.constants then constant form else form
  let form := if rules.conditionals then surface (choice line form) else form
  let form := if rules.sequences then surface (splitBodies false expand form) else form
  if rules.conditionals then surface (splitBodies true splitVoid form) else form

/-- Applies the rules down to a given depth. -/
def normalizeUpTo (rules : Rules) : Nat → Node → Node
  | 0, n => n
  | fuel + 1, .mk line form =>
    .mk line ((settle rules line form).map (normalizeUpTo rules fuel))

end Normal

/-- Normalises a tree. -/
def Node.normalize (rules : Normal.Rules) (n : Node) : Node :=
  Normal.normalizeUpTo rules n.weight n

/-- Normalises a tree that may be at fault. -/
def Node.normalize? (rules : Normal.Rules) (n : Node) : Except Defect Node :=
  let normal := n.normalize rules
  match normal.fault? with
  | some cause => .error cause
  | none => .ok normal

end Debundle
