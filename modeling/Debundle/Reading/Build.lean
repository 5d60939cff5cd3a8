import Debundle.Reading.Derivation
import Debundle.Reading.Literal
import Debundle.Tree.Node

/-!
# From derivations to trees

Every rule has a label that says what it makes of the values of its parts. Chains of operators
are folded by precedence.
-/
namespace Debundle

/-- Binding powers of binary operators; a higher one binds tighter. -/
def precedence? (operator : String) : Option Nat :=
  let levels := [["||"], ["&&"], ["|"], ["^"], ["&"], ["==", "===", "!=", "!=="],
    ["<", ">", "<=", ">=", "in", "instanceof"], [">>", "<<", ">>>"], ["+", "-"], ["*", "/", "%"]]
  (levels.findIdx? (operator ∈ ·)).map (· + 1)

namespace Chain

/-- Joins the two newest operands by the newest operator. -/
def join : List Node → List String → List Node × List String
  | right :: left :: operands, operator :: operators =>
    (.mk left.line (.binary operator left right) :: operands, operators)
  | operands, operators => (operands, operators)

/-- Joins while the newest operator binds at least as tight as the coming one. -/
def joinTighter (coming : String) (operands : List Node) :
    List String → List Node × List String
  | [] => (operands, [])
  | operator :: operators =>
    if (precedence? coming).getD 0 ≤ (precedence? operator).getD 0 then
      joinTighter coming (join operands (operator :: operators)).1 operators
    else (operands, operator :: operators)

def joinAll (operands : List Node) : List String → List Node
  | [] => operands
  | operator :: operators => joinAll (join operands (operator :: operators)).1 operators

def foldFrom (operands : List Node) (operators : List String) : List (String × Node) → Node
  | [] => ((joinAll operands operators).head?).getD .missing
  | (operator, operand) :: rest =>
    let (operands, operators) := joinTighter operator operands operators
    foldFrom (operand :: operands) (operator :: operators) rest

/-- The tree of a flat chain: tighter operators below looser ones, equal ones from the left. -/
def fold (first : Node) (rest : List (String × Node)) : Node :=
  foldFrom [first] [] rest

end Chain

namespace Build

/-- What the parts of a rule amount to. -/
inductive Value where
  | token (token : Token)
  | node (node : Node)
  | word (text : String)
  | list (items : List Value)

/-- Where in a program a literal stands whose value could not be taken. -/
inductive Place where
  | string | number | keyValue | accessor
  deriving DecidableEq

/-- Why a derivation has no tree. The position is that of the first token of the rule. -/
inductive Fault where
  | literal (place : Place) (fault : Literal.Fault)
  | forHeader (line column : Nat)
  | strayWord (word : String) (line column : Nat)
  | misfit

abbrev Result := Except Fault

/-- Names, literals and the declaration keyword are values of their own; other tokens only mark
the rule. -/
def Value.isMark : Value → Bool
  | .token t => !(t.terminal ∈ [.name, .string, .number, .regex, .kwVar])
  | _ => false

/-- The values of a list; anything but a list counts as one. -/
def Value.items : Value → List Value
  | .list items => items
  | v => if v.isMark then [] else [v]

def gather (values : List Value) : List Value :=
  values.flatMap Value.items

def Value.node? : Value → Option Node
  | .node n => some n
  | _ => none

def nodes (values : List Value) : List Node :=
  values.filterMap Value.node?

/-- The nodes among the parts of a rule, those of its lists included. -/
def nodesOf (values : List Value) : List Node :=
  nodes (gather values)

def symbol (role : Role) (t : Token) : Node :=
  .mk t.line (.symbol ⟨role, t.text, none, none⟩)

/-- The tokens among values, as names of a role. -/
def symbols (role : Role) (values : List Value) : List Node :=
  values.filterMap fun
    | .token t => some (symbol role t)
    | _ => none

/-- Operators and operands after the first operand of a chain. -/
def pairs : List Value → List (String × Node)
  | .word operator :: .node operand :: rest => (operator, operand) :: pairs rest
  | _ => []

/-- An optional node that ends with a mark. -/
def optional : List Value → Option Node × List Value
  | .node n :: _ :: rest => (some n, rest)
  | _ :: rest => (none, rest)
  | [] => (none, [])

/-- A hole at the end of an array is only a trailing comma. -/
def dropHole (elements : List Node) : List Node :=
  match elements.getLast? with
  | some (.mk _ .hole) => elements.dropLast
  | _ => elements

def blockBody : Node → List Node
  | .mk _ (.block body) => body
  | _ => []

def isHandler : Node → Bool
  | .mk _ (.handler ..) => true
  | _ => false

def isFinalizer : Node → Bool
  | .mk _ (.finalizer _) => true
  | _ => false

def literal {α : Type} (place : Place) : Except Literal.Fault α → Result α
  | .ok a => .ok a
  | .error e => .error (.literal place e)

/-- The key of a property. -/
def propertyKey (place : Place) (t : Token) : Result String :=
  if t.terminal = .string then literal place (Literal.string t.text)
  else if t.terminal = .number then literal place (Literal.numberKey t.text)
  else .ok t.text

/-- What a rule with this label makes of its parts; `first` is the first token it covers. -/
def apply (label : Label) (first : Option Token) (values : List Value) : Result Value :=
  let line := first.map Token.line
  let make := fun (form : Form Node) => Except.ok (Value.node (.mk line form))
  match label, values with
  | .pass, [v] => .ok v
  | .first, v :: _ => .ok v
  | .parens, [_, v, _] => .ok v
  | .gather, vs => .ok (.list (gather vs))
  | .word, [.token t] => .ok (.word t.text)
  | .program, vs => .ok (.node (.mk (some 1) (.program (nodesOf vs))))
  | .block, vs => make (.block (nodesOf vs))
  | .declare, .token kind :: vs => make (.declare kind.text (nodesOf vs))
  | .define, .token t :: vs => make (.definition (symbol .variable t) (nodesOf vs).head?)
  | .empty, _ => make .empty
  | .simple, .node body :: _ => make (.simple body)
  | .choose, vs =>
    match nodesOf vs with
    | [condition, body] => make (.ifElse condition body none)
    | [condition, body, alternative] => make (.ifElse condition body (some alternative))
    | _ => .error .misfit
  | .doWhile, vs =>
    match nodesOf vs with
    | [body, condition] => make (.doWhile body condition)
    | _ => .error .misfit
  | .whileLoop, vs =>
    match nodesOf vs with
    | [condition, body] => make (.whileLoop condition body)
    | _ => .error .misfit
  | .forLoop, _ :: _ :: vs =>
    let (init, vs) := optional vs
    let (condition, vs) := optional vs
    let (step, vs) := optional vs
    match vs with
    | [.node body] => make (.forLoop init condition step body)
    | _ => .error .misfit
  | .forIn, vs =>
    match nodesOf vs, first with
    | [.mk _ (.binary "in" left right), body], _ => make (.forIn left right body)
    | _, some t => .error (.forHeader t.line t.column)
    | _, none => .error .misfit
  | .forInDeclared, [_, _, .token kind, .token t, _, .node object, _, .node body] =>
    let definition := Node.mk t.line (.definition (symbol .variable t) none)
    make (.forIn (.mk kind.line (.declare kind.text [definition])) object body)
  | .continueLoop, [_, .token t, _] => make (.jump .continuing (some t.text))
  | .continueLoop, _ => make (.jump .continuing none)
  | .breakLoop, [_, .token t, _] => make (.jump .breaking (some t.text))
  | .breakLoop, _ => make (.jump .breaking none)
  | .returnValue, vs => make (.exit .returning (nodesOf vs).head?)
  | .throwValue, vs => make (.exit .throwing (nodesOf vs).head?)
  | .withObject, vs =>
    match nodesOf vs with
    | [object, body] => make (.withObject object body)
    | _ => .error .misfit
  | .switch, vs =>
    match nodesOf vs with
    | subject :: branches => make (.switch subject branches)
    | [] => .error .misfit
  | .caseBranch, vs =>
    match nodesOf vs with
    | test :: body => make (.branch (some test) body)
    | [] => .error .misfit
  | .defaultBranch, vs => make (.branch none (nodesOf vs))
  | .labeled, [.token t, _, .node body] => make (.labeled t.text body)
  | .tryBlock, vs =>
    match nodesOf vs with
    | block :: others =>
      make (.tryBlock (blockBody block) (others.find? isHandler) (others.find? isFinalizer))
    | [] => .error .misfit
  | .handler, [_, _, .token t, _, .node block] =>
    make (.handler (symbol .caught t) (blockBody block))
  | .finalizer, [_, .node block] => make (.finalizer (blockBody block))
  | .debugger, _ => make .debugger
  | .declareFunction, [_, .token t, _, .list parameters, _, .list body] =>
    make (.function .declaration (some (symbol .functionName t))
      (symbols .parameter parameters) (nodes body))
  | .function, [_, .token t, _, .list parameters, _, .list body] =>
    make (.function .expression (some (symbol .ownName t))
      (symbols .parameter parameters) (nodes body))
  | .function, [_, _, .list parameters, _, .list body] =>
    make (.function .expression none (symbols .parameter parameters) (nodes body))
  | .parameters, vs => .ok (.list (gather vs))
  | .sequence, [.node left, _, .node right] =>
    match left with
    | .mk leftLine (.sequence items) =>
      .ok (.node (.mk leftLine (.sequence (items ++ [right]))))
    | _ => make (.sequence [left, right])
  | .assign, [.node left, .word operator, .node right] => make (.assign operator left right)
  | .conditional, [.node condition, _, .node consequent, _, .node alternative] =>
    make (.conditional condition consequent alternative)
  | .binary, .node operand :: rest => .ok (.node (Chain.fold operand (pairs (gather rest))))
  | .unary, [.word operator, .node operand] => make (.unary operator operand)
  | .update, [.node operand, .word operator] => make (.update operator operand)
  | .constructBare, [_, .node callee] => make (.construct callee [])
  | .construct, [_, .node callee, .list arguments] => make (.construct callee (nodes arguments))
  | .call, [.node callee, .list arguments] => make (.call callee (nodes arguments))
  | .dot, [.node object, _, .word property] => make (.dot object property)
  | .index, [.node object, _, .node property, _] => make (.index object property)
  | .self, _ => make .self
  | .reference, [.token t] => make (.symbol ⟨.reference, t.text, none, none⟩)
  | .number, [.token t] => do make (.number (← literal .number (Literal.number t.text)))
  | .string, [.token t] => do make (.string (← literal .string (Literal.string t.text)))
  | .regexp, [.token t] => make (.regexp t.text)
  | .null, _ => make .null
  | .yes, _ => make (.boolean true)
  | .no, _ => make (.boolean false)
  | .array, vs => make (.array (dropHole (nodesOf vs)))
  | .element, [v] => .ok v
  | .element, [] => make .hole
  | .object, vs => make (.object (nodesOf vs))
  | .keyValue, [.token key, _, .node value] => do
    make (.property .keyValue (← propertyKey .keyValue key) value)
  | .accessor, [.token word, .token key, _, .list parameters, _, .list body] =>
    let function := Node.mk line
      (.function .accessor none (symbols .parameter parameters) (nodes body))
    if word.text = "get" then do
      make (.property .getter (← propertyKey .accessor key) function)
    else if word.text = "set" then do
      make (.property .setter (← propertyKey .accessor key) function)
    else .error (.strayWord word.text word.line word.column)
  | _, _ => .error .misfit

mutual

/-- The value of a derivation and the first token it covers. -/
def value : Derivation → Result (Value × Option Token)
  | .leaf t => .ok (.token t, some t)
  | .node rule parts => do
    let parts ← values parts
    let first := parts.findSome? Prod.snd
    match Rule.all[rule]? with
    | some r => return (← apply r.label first (parts.map Prod.fst), first)
    | none => .error .misfit

def values : List Derivation → Result (List (Value × Option Token))
  | [] => .ok []
  | part :: rest => do return (← value part) :: (← values rest)

end

/-- The program tree of a derivation. -/
def tree (d : Derivation) : Result Node := do
  match ← value d with
  | (.node n, _) => return n
  | _ => .error .misfit

end Build

end Debundle
