import Debundle.Tree.Node

/-!
# Nodes as named slots

Every kind of node has a name and named slots. This view serves descriptions of trees, and trees
that are given from outside slot by slot.
-/
namespace Debundle

/-- What stands in a slot. -/
inductive Slot (α : Type) where
  | absent
  | node (node : α)
  | nodes (nodes : List α)
  | text (text : String)
  | flag (value : Bool)
  | number (value : Numeral)

namespace Slot

variable {α : Type}

def ofOption : Option α → Slot α
  | none => .absent
  | some n => .node n

def ofText : Option String → Slot α
  | none => .absent
  | some s => .text s

def isNode : Slot α → Bool
  | .node _ => true
  | _ => false

end Slot

def Role.kindName : Role → String
  | .variable => "SymbolVar"
  | .parameter => "SymbolFunarg"
  | .functionName => "SymbolDefun"
  | .ownName => "SymbolLambda"
  | .caught => "SymbolCatch"
  | .reference => "SymbolRef"

def PropertyKind.kindName : PropertyKind → String
  | .keyValue => "ObjectKeyVal"
  | .getter => "ObjectGetter"
  | .setter => "ObjectSetter"

def LooseKind.kindName : LooseKind → String
  | .node => "Node"
  | .statement => "Statement"
  | .leaving => "Exit"
  | .block => "Block"
  | .controlling => "StatementWithBody"
  | .access => "PropAccess"
  | .operation => "Unary"
  | .entry => "ObjectProperty"
  | .symbol => "Symbol"
  | .constant => "Constant"
  | .atom => "Atom"
  | .dot _ => "Dot"
  | .property kind => kind.kindName
  | .name role _ => role.kindName
  | .string => "String"
  | .regexp _ => "RegExp"
  | .number _ _ => "Number"
  | .mistold true => "Statement"
  | .mistold false => "Node"

namespace Form

variable {α : Type}

/-- The name of the kind of a node. -/
def kindName : Form α → String
  | program _ => "Toplevel"
  | block _ => "BlockStatement"
  | empty => "EmptyStatement"
  | debugger => "Debugger"
  | simple _ => "SimpleStatement"
  | labeled .. => "LabeledStatement"
  | doWhile .. => "Do"
  | whileLoop .. => "While"
  | forLoop .. => "For"
  | forIn .. => "ForIn"
  | withObject .. => "With"
  | ifElse .. => "If"
  | exit .returning _ => "Return"
  | exit .throwing _ => "Throw"
  | jump .breaking _ => "Break"
  | jump .continuing _ => "Continue"
  | switch .. => "Switch"
  | branch none _ => "Default"
  | branch (some _) _ => "Case"
  | tryBlock .. => "Try"
  | handler .. => "Catch"
  | finalizer _ => "Finally"
  | declare .. => "Var"
  | definition .. => "VarDef"
  | function .expression .. => "Function"
  | function .accessor .. => "Accessor"
  | function .declaration .. => "Defun"
  | function .general .. => "Lambda"
  | call .. => "Call"
  | construct .. => "New"
  | sequence _ => "Sequence"
  | dot .. => "Dot"
  | index .. => "Sub"
  | unary .. => "UnaryPrefix"
  | update .. => "UnaryPostfix"
  | binary .. => "Binary"
  | assign .. => "Assign"
  | conditional .. => "Conditional"
  | array _ => "Array"
  | hole => "Hole"
  | object _ => "Object"
  | property kind .. => kind.kindName
  | symbol s => s.role.kindName
  | self => "This"
  | string _ => "String"
  | number _ => "Number"
  | regexp _ => "RegExp"
  | null => "Null"
  | nan => "NaN"
  | infinity => "Infinity"
  | boolean _ => "Boolean"
  | loose kind _ => kind.kindName
  | absent _ | defect _ => "NoneType"

/-- The named slots of a node, in order. -/
def slots : Form α → List (String × Slot α)
  | program body | block body | finalizer body | branch none body => [("body", .nodes body)]
  | simple body => [("body", .node body)]
  | labeled label body => [("label", .text label), ("body", .node body)]
  | doWhile body condition => [("body", .node body), ("condition", .node condition)]
  | whileLoop condition body => [("condition", .node condition), ("body", .node body)]
  | forLoop init condition step body =>
    [("init", .ofOption init), ("condition", .ofOption condition), ("step", .ofOption step),
      ("body", .node body)]
  | forIn init subject body =>
    [("init", .node init), ("object", .node subject), ("body", .node body)]
  | withObject subject body => [("expression", .node subject), ("body", .node body)]
  | ifElse condition body alternative =>
    [("condition", .node condition), ("body", .node body),
      ("alternative", .ofOption alternative)]
  | exit _ value => [("value", .ofOption value)]
  | jump _ label => [("label", .ofText label)]
  | switch subject branches => [("expression", .node subject), ("body", .nodes branches)]
  | branch (some test) body => [("expression", .node test), ("body", .nodes body)]
  | tryBlock body caught last =>
    [("body", .nodes body), ("bcatch", .ofOption caught), ("bfinally", .ofOption last)]
  | handler caught body => [("argname", .node caught), ("body", .nodes body)]
  | declare kind definitions => [("kind", .text kind), ("definitions", .nodes definitions)]
  | definition name value => [("name", .node name), ("value", .ofOption value)]
  | function _ name parameters body =>
    [("name", .ofOption name), ("argnames", .nodes parameters), ("body", .nodes body)]
  | call callee arguments | construct callee arguments =>
    [("expression", .node callee), ("args", .nodes arguments)]
  | sequence items => [("expressions", .nodes items)]
  | dot subject name => [("expression", .node subject), ("property", .text name)]
  | index subject key => [("expression", .node subject), ("property", .node key)]
  | unary operator operand | update operator operand =>
    [("operator", .text operator), ("expression", .node operand)]
  | binary operator left right | assign operator left right =>
    [("operator", .text operator), ("left", .node left), ("right", .node right)]
  | conditional condition consequent alternative =>
    [("condition", .node condition), ("consequent", .node consequent),
      ("alternative", .node alternative)]
  | array elements => [("elements", .nodes elements)]
  | object properties => [("properties", .nodes properties)]
  | property _ key value => [("key", .text key), ("value", .node value)]
  | symbol s => [("name", .text s.name)]
  | string value => [("value", .text value)]
  | number value => [("value", .number value)]
  | regexp source => [("value", .text source)]
  | boolean value => [("value", .flag value)]
  | loose _ parts => [("parts", .nodes parts)]
  | empty | debugger | hole | self | null | nan | infinity | absent _ | defect _ => []

end Form

/-- A node given from outside: the name of its kind and what its named slots hold. -/
structure Draft where
  kind : String
  slots : List (String × Slot Node)

namespace Draft

/-- The slots of every kind of node, also of the general kinds that have no text of their own. -/
def slotNames (kind : String) : List String :=
  if kind ∈ ["Toplevel", "BlockStatement", "Block", "SimpleStatement", "StatementWithBody",
      "IterationStatement", "SwitchBranch", "Default", "Finally"] then ["body"]
  else if kind = "LabeledStatement" then ["label", "body"]
  else if kind = "Do" then ["body", "condition"]
  else if kind = "While" then ["condition", "body"]
  else if kind = "For" then ["init", "condition", "step", "body"]
  else if kind = "ForIn" then ["init", "object", "body"]
  else if kind ∈ ["With", "Switch", "Case"] then ["expression", "body"]
  else if kind = "If" then ["condition", "body", "alternative"]
  else if kind ∈ ["Exit", "Return", "Throw", "Constant", "String", "Number", "RegExp", "Boolean"]
    then ["value"]
  else if kind ∈ ["LoopControl", "Break", "Continue"] then ["label"]
  else if kind = "Try" then ["body", "bcatch", "bfinally"]
  else if kind = "Catch" then ["argname", "body"]
  else if kind = "Var" then ["kind", "definitions"]
  else if kind = "VarDef" then ["name", "value"]
  else if kind ∈ ["Lambda", "Function", "Accessor", "Defun"] then ["name", "argnames", "body"]
  else if kind ∈ ["Call", "New"] then ["expression", "args"]
  else if kind = "Sequence" then ["expressions"]
  else if kind ∈ ["PropAccess", "Dot", "Sub"] then ["expression", "property"]
  else if kind ∈ ["Unary", "UnaryPrefix", "UnaryPostfix"] then ["operator", "expression"]
  else if kind ∈ ["Binary", "Assign"] then ["operator", "left", "right"]
  else if kind = "Conditional" then ["condition", "consequent", "alternative"]
  else if kind = "Array" then ["elements"]
  else if kind = "Object" then ["properties"]
  else if kind ∈ ["ObjectProperty", "ObjectKeyVal", "ObjectGetter", "ObjectSetter"]
    then ["key", "value"]
  else if kind ∈ ["Symbol", "SymbolDeclaration", "SymbolVar", "SymbolFunarg", "SymbolDefun",
      "SymbolLambda", "SymbolCatch", "SymbolRef"] then ["name"]
  else []

def slot (d : Draft) (name : String) : Slot Node :=
  ((d.slots.find? (·.1 = name)).map Prod.snd).getD .absent

/-- The node in a slot that has to hold one. -/
def node (d : Draft) (name : String) : Node :=
  match d.slot name with
  | .node n => n
  | .absent => .missing
  | _ => .misfit

/-- The node in a slot that may be left empty. -/
def option (d : Draft) (name : String) : Option Node :=
  match d.slot name with
  | .node n => some n
  | .absent => none
  | _ => some .misfit

/-- The nodes in a slot that has to hold a list. A text counts as the list of its characters. -/
def list (d : Draft) (name : String) : List Node :=
  match d.slot name with
  | .nodes ns => ns
  | .text s => s.toList.map fun _ => .misfit
  | _ => Node.missingList

/-- All nodes in the slots, in the order of the slots of the kind. -/
def inner (d : Draft) : List Node :=
  (slotNames d.kind).flatMap fun name =>
    match d.slot name with
    | .node n => [n]
    | .nodes ns => ns
    | _ => []

/-- Whether a slot holds more than nothing, a zero or an empty list. -/
def holds (d : Draft) (name : String) : Bool :=
  match d.slot name with
  | .absent => false
  | .node _ => true
  | .nodes ns => !ns.isEmpty
  | .text s => s ≠ ""
  | .flag b => b
  | .number n => !n.isZero

/-- A text that may be left out. -/
def text (d : Draft) (name : String) : String :=
  match d.slot name with
  | .text s => s
  | _ => ""

/-- Whether something other than a text stands in a slot. -/
def isFilled (d : Draft) (name : String) : Bool :=
  match d.slot name with
  | .text _ => false
  | _ => d.holds name

/-- A form that has a text in a slot, or else is loose. -/
def withText (d : Draft) (name : String) (make : String → Form Node) (kind : LooseKind) :
    Form Node :=
  match d.slot name with
  | .text s => make s
  | _ => .loose kind d.inner

/-- A form with a text, which may be left out but not replaced by something else. -/
def told (d : Draft) (name : String) (make : String → Form Node) : Form Node :=
  let form := make (d.text name)
  if d.isFilled name then .loose (.mistold form.isStatement) d.inner else form

def role? (kind : String) : Option Role :=
  [Role.variable, .parameter, .functionName, .ownName, .caught, .reference].find?
    (·.kindName = kind)

def property (d : Draft) (kind : PropertyKind) : Form Node :=
  d.withText "key" (fun key => .property kind key (d.node "value")) (.property kind)

def function (d : Draft) (kind : FunctionKind) : Form Node :=
  .function kind (d.option "name") (d.list "argnames") (d.list "body")

/-- A number. A truth value in its place counts as one or zero. -/
def number (d : Draft) : Form Node :=
  match d.slot "value" with
  | .number n => .number n
  | .text s => .loose (.number s none) []
  | .flag true => .loose (.number "True" (some 1)) []
  | .flag false => .loose (.number "False" (some 0)) []
  | _ => .loose (.number "None" none) []

def form (d : Draft) : Form Node :=
  match d.kind with
  | "Toplevel" => .program (d.list "body")
  | "BlockStatement" => .block (d.list "body")
  | "EmptyStatement" => .empty
  | "Debugger" => .debugger
  | "SimpleStatement" => .simple (d.node "body")
  | "LabeledStatement" => d.told "label" fun label => .labeled label (d.node "body")
  | "Do" => .doWhile (d.node "body") (d.node "condition")
  | "While" => .whileLoop (d.node "condition") (d.node "body")
  | "For" =>
    .forLoop (d.option "init") (d.option "condition") (d.option "step") (d.node "body")
  | "ForIn" => .forIn (d.node "init") (d.node "object") (d.node "body")
  | "With" => .withObject (d.node "expression") (d.node "body")
  | "If" => .ifElse (d.node "condition") (d.node "body") (d.option "alternative")
  | "Return" => .exit .returning (d.option "value")
  | "Throw" => .exit .throwing (d.option "value")
  | "Break" => d.told "label" fun label => .jump .breaking (some label)
  | "Continue" => d.told "label" fun label => .jump .continuing (some label)
  | "Switch" => .switch (d.node "expression") (d.list "body")
  | "Default" => .branch none (d.list "body")
  | "Case" => .branch (some (d.node "expression")) (d.list "body")
  | "Try" => .tryBlock (d.list "body") (d.option "bcatch") (d.option "bfinally")
  | "Catch" => .handler (d.node "argname") (d.list "body")
  | "Finally" => .finalizer (d.list "body")
  | "Var" => d.told "kind" fun kind => .declare kind (d.list "definitions")
  | "VarDef" => .definition (d.node "name") (d.option "value")
  | "Function" => d.function .expression
  | "Accessor" => d.function .accessor
  | "Defun" => d.function .declaration
  | "Lambda" => d.function .general
  | "Call" => .call (d.node "expression") (d.list "args")
  | "New" => .construct (d.node "expression") (d.list "args")
  | "Sequence" => .sequence (d.list "expressions")
  | "Dot" =>
    match d.slot "property" with
    | .text name => .dot (d.node "expression") name
    | _ =>
      let others := if (d.slot "expression").isNode then d.inner.drop 1 else d.inner
      .loose (.dot (d.isFilled "property")) (d.node "expression" :: others)
  | "Sub" => .index (d.node "expression") (d.node "property")
  | "UnaryPrefix" => d.told "operator" fun operator => .unary operator (d.node "expression")
  | "UnaryPostfix" => d.told "operator" fun operator => .update operator (d.node "expression")
  | "Binary" =>
    d.told "operator" fun operator => .binary operator (d.node "left") (d.node "right")
  | "Assign" =>
    d.told "operator" fun operator => .assign operator (d.node "left") (d.node "right")
  | "Conditional" =>
    .conditional (d.node "condition") (d.node "consequent") (d.node "alternative")
  | "Array" => .array (d.list "elements")
  | "Hole" => .hole
  | "Object" => .object (if d.holds "properties" then d.list "properties" else [])
  | "ObjectKeyVal" => d.property .keyValue
  | "ObjectGetter" => d.property .getter
  | "ObjectSetter" => d.property .setter
  | "This" => .self
  | "String" => d.withText "value" .string .string
  | "Number" => d.number
  | "RegExp" => d.withText "value" .regexp (.regexp (d.isFilled "value"))
  | "Null" => .null
  | "NaN" => .nan
  | "Infinity" => .infinity
  | "Boolean" => .boolean (d.holds "value")
  | "Statement" | "Jump" | "LoopControl" => .loose .statement d.inner
  | "Exit" => .loose .leaving d.inner
  | "Block" | "SwitchBranch" => .loose .block (d.list "body")
  | "StatementWithBody" | "IterationStatement" => .loose .controlling [d.node "body"]
  | "PropAccess" => .loose .access d.inner
  | "Unary" => .loose .operation d.inner
  | "ObjectProperty" => .loose .entry d.inner
  | "Symbol" | "SymbolDeclaration" => .loose .symbol d.inner
  | "Constant" => .loose .constant d.inner
  | "Atom" => .loose .atom d.inner
  | kind =>
    match role? kind with
    | some role =>
      d.withText "name" (fun name => .symbol ⟨role, name, none, none⟩)
        (.name role (d.isFilled "name"))
    | none => .loose .node d.inner

/-- The node of a draft, unless the draft has slots that its kind does not know. -/
def build (d : Draft) (line : Option Nat) : Except Defect Node :=
  match (d.slots.map Prod.fst).filter (!(slotNames d.kind).contains ·) with
  | [] => .ok (.mk line d.form)
  | names => .error (.unexpectedFields d.kind names)

/-- The kinds without slots. -/
def bareKinds : List String :=
  ["Node", "Statement", "EmptyStatement", "Debugger", "Jump", "Hole", "This", "Atom", "Null",
    "NaN", "Infinity"]

def isKind (kind : String) : Bool :=
  kind ∈ bareKinds || slotNames kind ≠ []

end Draft

namespace Defect

/-- The wording of a defect that has one. -/
def message : Defect → Option String
  | unexpectedFields kind names =>
    some (kind ++ " got unexpected fields: " ++ ", ".intercalate names)
  | _ => none

end Defect

end Debundle
