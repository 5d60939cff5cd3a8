import Debundle.Numeral.Basic

/-!
# Forms of program nodes

A form is the shape of one node: what kind of statement or expression it is, the texts it
carries, and its child slots. It is generic in what stands in the slots.
-/
namespace Debundle

inductive ExitKind where
  | returning | throwing
  deriving DecidableEq

inductive JumpKind where
  | breaking | continuing
  deriving DecidableEq

/-- A function is an expression, the function of an accessor, a declaration, or of no particular
kind. -/
inductive FunctionKind where
  | expression | accessor | declaration | general
  deriving DecidableEq

inductive PropertyKind where
  | keyValue | getter | setter
  deriving DecidableEq

/-- What a name does where it stands. -/
inductive Role where
  | variable | parameter | functionName | ownName | caught | reference
  deriving DecidableEq

/-- Where a name is declared: nowhere in the program, or in the scope at an address, which gives
the numbers of the slots from the root down to the node that opens the scope. -/
inductive Home where
  | free
  | scope (address : List Nat)
  deriving DecidableEq

/-- A name. It is shown as its `shownAs`, if that is a nonempty text, in place of its own. -/
structure Symbol where
  role : Role
  name : String
  home : Option Home := none
  shownAs : Option String := none
  deriving DecidableEq

/-- The text under which a name is shown. -/
def Symbol.display (s : Symbol) : String :=
  match s.shownAs with
  | some shown => if shown = "" then s.name else shown
  | none => s.name

/-- Why a tree that did not come from program text cannot be used. -/
inductive Defect where
  | missingNode | missingList | missingText | unprintable | unknownKind
  | emptySequence | unknownOperator | oversizedNumber
  | unexpectedFields (kind : String) (names : List String)
  deriving DecidableEq

/-- What a slot lacks: its node, the list of its nodes, or a proper node among other things. -/
inductive Gap where
  | node | list | misfit
  deriving DecidableEq

/-- Kinds of nodes that no program text has. The first are general kinds: any node, any statement,
one that leaves a function, one with a list of statements, one that controls another, and so on.
The others lack the text that they should have; `filled` tells whether something else stands in its
slot. -/
inductive LooseKind where
  | node | statement | leaving | block | controlling
  | access | operation | entry | symbol | constant | atom
  | dot (filled : Bool)
  | name (role : Role) (filled : Bool)
  | regexp (filled : Bool)
  | property (kind : PropertyKind)
  | string
  /-- A number that is not given as one: what is shown for it, and the value it counts as. -/
  | number (shown : String) (value : Option Nat)
  /-- A node with something other than a text for its operator, its label or the like. -/
  | mistold (statement : Bool)
  deriving DecidableEq

/-- The shape of a node whose children are of type `α`. Program text has no `loose` nodes. An
`absent` node stands in an empty slot; where it stands for a list it is alone in it. A `defect`
takes the place of a node that could not be normalised. -/
inductive Form (α : Type) where
  | program (body : List α)
  | block (body : List α)
  | empty
  | debugger
  | simple (body : α)
  | labeled (label : String) (body : α)
  | doWhile (body condition : α)
  | whileLoop (condition body : α)
  | forLoop (init condition step : Option α) (body : α)
  | forIn (init object body : α)
  | withObject (object body : α)
  | ifElse (condition body : α) (alternative : Option α)
  | exit (kind : ExitKind) (value : Option α)
  | jump (kind : JumpKind) (label : Option String)
  | switch (subject : α) (branches : List α)
  | branch (test : Option α) (body : List α)
  | tryBlock (body : List α) (handler finalizer : Option α)
  | handler (caught : α) (body : List α)
  | finalizer (body : List α)
  | declare (kind : String) (definitions : List α)
  | definition (name : α) (value : Option α)
  | function (kind : FunctionKind) (name : Option α) (parameters body : List α)
  | call (callee : α) (arguments : List α)
  | construct (callee : α) (arguments : List α)
  | sequence (items : List α)
  | dot (object : α) (property : String)
  | index (object property : α)
  | unary (operator : String) (operand : α)
  | update (operator : String) (operand : α)
  | binary (operator : String) (left right : α)
  | assign (operator : String) (left right : α)
  | conditional (condition consequent alternative : α)
  | array (elements : List α)
  | hole
  | object (properties : List α)
  | property (kind : PropertyKind) (key : String) (value : α)
  | symbol (symbol : Symbol)
  | self
  | string (value : String)
  | number (value : Numeral)
  | regexp (source : String)
  | null
  | nan
  | infinity
  | boolean (value : Bool)
  | loose (kind : LooseKind) (parts : List α)
  | absent (gap : Gap)
  | defect (cause : Defect)
  deriving DecidableEq

namespace Form

variable {α β : Type}

def map (f : α → β) : Form α → Form β
  | program body => program (body.map f)
  | block body => block (body.map f)
  | empty => empty
  | debugger => debugger
  | simple body => simple (f body)
  | labeled label body => labeled label (f body)
  | doWhile body condition => doWhile (f body) (f condition)
  | whileLoop condition body => whileLoop (f condition) (f body)
  | forLoop init condition step body =>
    forLoop (init.map f) (condition.map f) (step.map f) (f body)
  | forIn init subject body => forIn (f init) (f subject) (f body)
  | withObject subject body => withObject (f subject) (f body)
  | ifElse condition body alternative => ifElse (f condition) (f body) (alternative.map f)
  | exit kind value => exit kind (value.map f)
  | jump kind label => jump kind label
  | switch subject branches => switch (f subject) (branches.map f)
  | branch test body => branch (test.map f) (body.map f)
  | tryBlock body caught last => tryBlock (body.map f) (caught.map f) (last.map f)
  | handler caught body => handler (f caught) (body.map f)
  | finalizer body => finalizer (body.map f)
  | declare kind definitions => declare kind (definitions.map f)
  | definition name value => definition (f name) (value.map f)
  | function kind name parameters body =>
    function kind (name.map f) (parameters.map f) (body.map f)
  | call callee arguments => call (f callee) (arguments.map f)
  | construct callee arguments => construct (f callee) (arguments.map f)
  | sequence items => sequence (items.map f)
  | dot subject name => dot (f subject) name
  | index subject key => index (f subject) (f key)
  | unary operator operand => unary operator (f operand)
  | update operator operand => update operator (f operand)
  | binary operator left right => binary operator (f left) (f right)
  | assign operator left right => assign operator (f left) (f right)
  | conditional condition consequent alternative =>
    conditional (f condition) (f consequent) (f alternative)
  | array elements => array (elements.map f)
  | hole => hole
  | object properties => object (properties.map f)
  | property kind key value => property kind key (f value)
  | symbol s => symbol s
  | self => self
  | string value => string value
  | number value => number value
  | regexp source => regexp source
  | null => null
  | nan => nan
  | infinity => infinity
  | boolean value => boolean value
  | loose kind parts => loose kind (parts.map f)
  | absent gap => absent gap
  | defect cause => defect cause

/-- The children in the order in which they are visited. -/
def children : Form α → List α
  | program body | block body | finalizer body => body
  | simple body | labeled _ body => [body]
  | doWhile body condition => [body, condition]
  | whileLoop condition body => [condition, body]
  | forLoop init condition step body =>
    init.toList ++ condition.toList ++ step.toList ++ [body]
  | forIn init subject body => [init, subject, body]
  | withObject subject body => [subject, body]
  | ifElse condition body alternative => condition :: body :: alternative.toList
  | exit _ value => value.toList
  | switch subject branches => subject :: branches
  | branch test body => test.toList ++ body
  | tryBlock body caught last => body ++ caught.toList ++ last.toList
  | handler caught body => caught :: body
  | declare _ definitions => definitions
  | definition name value => name :: value.toList
  | function _ name parameters body => name.toList ++ parameters ++ body
  | call callee arguments | construct callee arguments => callee :: arguments
  | sequence items | array items | object items => items
  | dot subject _ => [subject]
  | index subject key => [subject, key]
  | unary _ operand | update _ operand => [operand]
  | binary _ left right | assign _ left right => [left, right]
  | conditional condition consequent alternative => [condition, consequent, alternative]
  | property _ _ value => [value]
  | loose _ parts => parts
  | empty | debugger | jump .. | hole | symbol _ | self | string _ | number _ | regexp _
  | null | nan | infinity | boolean _ | absent _ | defect _ => []

/-- The statements among the forms. -/
def isStatement : Form α → Bool
  | program _ | block _ | empty | debugger | simple _ | labeled .. | doWhile .. | whileLoop ..
  | forLoop .. | forIn .. | withObject .. | ifElse .. | exit .. | jump .. | switch .. | branch ..
  | tryBlock .. | handler .. | finalizer _ | declare .. | function .declaration ..
  | loose .statement _ | loose .leaving _ | loose .block _ | loose .controlling _
  | loose (.mistold true) _ => true
  | _ => false

def isFunction : Form α → Bool
  | function .. => true
  | _ => false

/-- Calls, with or without `new`. -/
def isCall : Form α → Bool
  | call .. | construct .. => true
  | _ => false

def isEmpty : Form α → Bool
  | empty => true
  | _ => false

def isSequence : Form α → Bool
  | sequence _ => true
  | _ => false

/-- Whether a form stands in an empty slot. -/
def isAbsent : Form α → Bool
  | absent _ => true
  | _ => false

def defect? : Form α → Option Defect
  | defect cause => some cause
  | _ => none

end Form

end Debundle
