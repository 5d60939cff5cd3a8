import Debundle.Tree.Form

/-!
# Program trees

A node is a form with nodes in its slots, and the line on which it starts. `Node.foldUp` is the
one recursion over trees; its equation is `Node.foldUp_mk`.
-/
namespace Debundle

inductive Node where
  | mk (line : Option Nat) (form : Form Node)

namespace Node

variable {β : Type}

def line : Node → Option Nat
  | mk line _ => line

def form : Node → Form Node
  | mk _ form => form

/-- What stands in the slot of a node that is not there. -/
def missing : Node := mk none (.absent .node)

/-- What stands in the slot of a list that is not there. -/
def missingList : List Node := [mk none (.absent .list)]

/-- What stands in the slot of a node that holds something else. -/
def misfit : Node := mk none (.absent .misfit)

/-- What stands in the place of a node that could not be normalised. -/
def faulty (cause : Defect) : Node := mk none (.defect cause)

instance : Inhabited Node := ⟨missing⟩

def children (n : Node) : List Node :=
  n.form.children

mutual

/-- Computes a value from the bottom up. A step sees each child beside the child's value. -/
def foldUp (step : Option Nat → Form (Node × β) → β) : Node → β
  | mk line form => step line (foldForm step form)

def foldForm (step : Option Nat → Form (Node × β) → β) : Form Node → Form (Node × β)
  | .program body => .program (foldList step body)
  | .block body => .block (foldList step body)
  | .empty => .empty
  | .debugger => .debugger
  | .simple body => .simple (body, foldUp step body)
  | .labeled label body => .labeled label (body, foldUp step body)
  | .doWhile body condition =>
    .doWhile (body, foldUp step body) (condition, foldUp step condition)
  | .whileLoop condition body =>
    .whileLoop (condition, foldUp step condition) (body, foldUp step body)
  | .forLoop init condition stride body =>
    .forLoop (foldOption step init) (foldOption step condition) (foldOption step stride)
      (body, foldUp step body)
  | .forIn init object body =>
    .forIn (init, foldUp step init) (object, foldUp step object) (body, foldUp step body)
  | .withObject object body => .withObject (object, foldUp step object) (body, foldUp step body)
  | .ifElse condition body alternative =>
    .ifElse (condition, foldUp step condition) (body, foldUp step body)
      (foldOption step alternative)
  | .exit kind value => .exit kind (foldOption step value)
  | .jump kind label => .jump kind label
  | .switch subject branches => .switch (subject, foldUp step subject) (foldList step branches)
  | .branch test body => .branch (foldOption step test) (foldList step body)
  | .tryBlock body handler finalizer =>
    .tryBlock (foldList step body) (foldOption step handler) (foldOption step finalizer)
  | .handler caught body => .handler (caught, foldUp step caught) (foldList step body)
  | .finalizer body => .finalizer (foldList step body)
  | .declare kind definitions => .declare kind (foldList step definitions)
  | .definition name value => .definition (name, foldUp step name) (foldOption step value)
  | .function kind name parameters body =>
    .function kind (foldOption step name) (foldList step parameters) (foldList step body)
  | .call callee arguments => .call (callee, foldUp step callee) (foldList step arguments)
  | .construct callee arguments =>
    .construct (callee, foldUp step callee) (foldList step arguments)
  | .sequence items => .sequence (foldList step items)
  | .dot object property => .dot (object, foldUp step object) property
  | .index object property => .index (object, foldUp step object) (property, foldUp step property)
  | .unary operator operand => .unary operator (operand, foldUp step operand)
  | .update operator operand => .update operator (operand, foldUp step operand)
  | .binary operator left right =>
    .binary operator (left, foldUp step left) (right, foldUp step right)
  | .assign operator left right =>
    .assign operator (left, foldUp step left) (right, foldUp step right)
  | .conditional condition consequent alternative =>
    .conditional (condition, foldUp step condition) (consequent, foldUp step consequent)
      (alternative, foldUp step alternative)
  | .array elements => .array (foldList step elements)
  | .hole => .hole
  | .object properties => .object (foldList step properties)
  | .property kind key value => .property kind key (value, foldUp step value)
  | .symbol s => .symbol s
  | .self => .self
  | .string value => .string value
  | .number value => .number value
  | .regexp source => .regexp source
  | .null => .null
  | .nan => .nan
  | .infinity => .infinity
  | .boolean value => .boolean value
  | .loose kind parts => .loose kind (foldList step parts)
  | .absent gap => .absent gap
  | .defect cause => .defect cause

def foldList (step : Option Nat → Form (Node × β) → β) : List Node → List (Node × β)
  | [] => []
  | n :: rest => (n, foldUp step n) :: foldList step rest

def foldOption (step : Option Nat → Form (Node × β) → β) : Option Node → Option (Node × β)
  | none => none
  | some n => some (n, foldUp step n)

end

theorem foldList_eq_map (step : Option Nat → Form (Node × β) → β) (ns : List Node) :
    foldList step ns = ns.map fun n => (n, foldUp step n) := by
  induction ns with
  | nil => simp [foldList]
  | cons n ns ih => simp [foldList, ih]

theorem foldOption_eq_map (step : Option Nat → Form (Node × β) → β) (n : Option Node) :
    foldOption step n = n.map fun n => (n, foldUp step n) := by
  cases n <;> simp [foldOption]

theorem foldForm_eq_map (step : Option Nat → Form (Node × β) → β) (form : Form Node) :
    foldForm step form = form.map fun n => (n, foldUp step n) := by
  cases form <;> simp [foldForm, Form.map, foldList_eq_map, foldOption_eq_map]

theorem foldUp_mk (step : Option Nat → Form (Node × β) → β) (line : Option Nat)
    (form : Form Node) :
    foldUp step (mk line form) = step line (form.map fun n => (n, foldUp step n)) := by
  rw [foldUp, foldForm_eq_map]

/-- Computes a value from a node and the values of its children. -/
def foldChildren (step : Node → List β → β) : Node → β :=
  foldUp fun line form =>
    step (mk line (form.map Prod.fst)) (form.children.map Prod.snd)

/-- The nodes in the order of a walk from the top down that does not go below a pruned node. -/
def walk (prune : Node → Bool) : Node → List Node :=
  foldChildren fun n below => n :: if prune n then [] else below.flatten

/-- All nodes from the top down. -/
def preorder (n : Node) : List Node :=
  n.walk fun _ => false

/-- Changes every name of a tree. -/
def mapSymbols (f : Symbol → Symbol) : Node → Node :=
  foldUp fun line form =>
    match form with
    | .symbol s => mk line (.symbol (f s))
    | form => mk line (form.map Prod.snd)

/-- An expression as a statement; a statement stays as it is. -/
def asStatement (n : Node) : Node :=
  if n.form.isStatement then n
  else if n.form.isAbsent then faulty .missingNode
  else mk n.line (.simple n)

/-- Whether a node stands for a list that is not there. -/
def isNoList (n : Node) : Bool :=
  match n.form with
  | .absent .list => true
  | _ => false

/-- The fault of a list of nodes that is not there. -/
def listFault? (ns : List Node) : Option Defect :=
  if ns.any isNoList then some .missingList else none

/-- The first node, from the top down, that could not be normalised. -/
def fault? (n : Node) : Option Defect :=
  n.preorder.findSome? (·.form.defect?)

end Node

end Debundle
