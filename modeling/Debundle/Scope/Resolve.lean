import Debundle.Tree.Node

/-!
# Scopes

Functions, exception handlers and the whole program open scopes. Variables and function
declarations belong to the innermost function around them, wherever in it they stand. `resolve`
gives every name its home.
-/
namespace Debundle

namespace Form

/-- The same form with every child beside the number of its slot. -/
def enumerate {α : Type} : Form α → Form (Nat × α)
  | program body => program (slotted 0 body)
  | block body => block (slotted 0 body)
  | empty => empty
  | debugger => debugger
  | simple body => simple (0, body)
  | labeled label body => labeled label (0, body)
  | doWhile body condition => doWhile (0, body) (1, condition)
  | whileLoop condition body => whileLoop (0, condition) (1, body)
  | forLoop init condition step body =>
    forLoop (init.map (0, ·)) (condition.map (1, ·)) (step.map (2, ·)) (3, body)
  | forIn init subject body => forIn (0, init) (1, subject) (2, body)
  | withObject subject body => withObject (0, subject) (1, body)
  | ifElse condition body alternative =>
    ifElse (0, condition) (1, body) (alternative.map (2, ·))
  | exit kind value => exit kind (value.map (0, ·))
  | jump kind label => jump kind label
  | switch subject branches => switch (0, subject) (slotted 1 branches)
  | branch test body => branch (test.map (0, ·)) (slotted 1 body)
  | tryBlock body caught last =>
    tryBlock (slotted 2 body) (caught.map (0, ·)) (last.map (1, ·))
  | handler caught body => handler (0, caught) (slotted 1 body)
  | finalizer body => finalizer (slotted 0 body)
  | declare kind definitions => declare kind (slotted 0 definitions)
  | definition name value => definition (0, name) (value.map (1, ·))
  | function kind name parameters body =>
    function kind (name.map (0, ·)) (slotted 1 parameters) (slotted (parameters.length + 1) body)
  | call callee arguments => call (0, callee) (slotted 1 arguments)
  | construct callee arguments => construct (0, callee) (slotted 1 arguments)
  | sequence items => sequence (slotted 0 items)
  | dot subject name => dot (0, subject) name
  | index subject key => index (0, subject) (1, key)
  | unary operator operand => unary operator (0, operand)
  | update operator operand => update operator (0, operand)
  | binary operator left right => binary operator (0, left) (1, right)
  | assign operator left right => assign operator (0, left) (1, right)
  | conditional condition consequent alternative =>
    conditional (0, condition) (1, consequent) (2, alternative)
  | array elements => array (slotted 0 elements)
  | hole => hole
  | object properties => object (slotted 0 properties)
  | property kind key value => property kind key (0, value)
  | symbol s => symbol s
  | self => self
  | string value => string value
  | number value => number value
  | regexp source => regexp source
  | null => null
  | nan => nan
  | infinity => infinity
  | boolean value => boolean value
  | loose kind parts => loose kind (slotted 0 parts)
  | absent gap => absent gap
  | defect cause => defect cause
where
  slotted (start : Nat) (items : List α) : List (Nat × α) :=
    (List.range' start items.length).zip items

end Form

namespace Scope

/-- A scope as seen from inside: its address and the names it declares. -/
structure Frame where
  address : List Nat
  names : List String
  isFunction : Bool

def symbolNames : Node → List String
  | .mk _ (.symbol s) => [s.name]
  | _ => []

/-- The variables and functions that a statement declares outside of nested functions. -/
def declared (n : Node) : List String :=
  (n.walk (·.form.isFunction)).flatMap fun n =>
    match n.form with
    | .function .declaration (some name) _ _ => symbolNames name
    | .definition name _ => symbolNames name
    | _ => []

def programNames (body : List Node) : List String :=
  (body.flatMap declared).eraseDups

/-- The names that a function declares: its parameters, what its body declares, and its own name
if it is an expression. -/
def functionNames (kind : FunctionKind) (name : Option Node) (parameters body : List Node) :
    List String :=
  let own := if kind = .expression then name.toList.flatMap symbolNames else []
  (parameters.flatMap symbolNames ++ body.flatMap declared ++ own).eraseDups

/-- The home of a name that is used: the innermost scope that declares it. -/
def homeOf (frames : List Frame) (name : String) : Home :=
  match frames.find? (name ∈ ·.names) with
  | some frame => .scope frame.address
  | none => .free

/-- The home of what a function declares. -/
def functionHome (frames : List Frame) : Home :=
  match frames.find? Frame.isFunction with
  | some frame => .scope frame.address
  | none => .free

/-- The home of a name that an exception handler declares. -/
def handlerHome (frames : List Frame) : Home :=
  match frames with
  | frame :: _ => .scope frame.address
  | [] => .free

def symbolHome (frames : List Frame) (s : Symbol) : Home :=
  match s.role with
  | .reference => homeOf frames s.name
  | .caught => handlerHome frames
  | .variable | .parameter | .functionName | .ownName => functionHome frames

/-- Resolves a node at an address inside the scopes `frames`, innermost first. -/
def resolveIn : Node → List Frame → List Nat → Node :=
  Node.foldUp fun line form frames address =>
    let visit := fun (frames : List Frame) (child : Nat × Node × (List Frame → List Nat → Node)) =>
      child.2.2 frames (address ++ [child.1])
    match form with
    | .symbol s => .mk line (.symbol { s with home := some (symbolHome frames s) })
    | .function kind name parameters body =>
      let frame : Frame := ⟨address, functionNames kind (name.map Prod.fst)
        (parameters.map Prod.fst) (body.map Prod.fst), true⟩
      let inner := frame :: frames
      let outer := if kind = .declaration then frames else inner
      match Form.enumerate (.function kind name parameters body) with
      | .function kind name parameters body =>
        .mk line (.function kind (name.map (visit outer)) (parameters.map (visit inner))
          (body.map (visit inner)))
      | form => .mk line (form.map (visit inner))
    | .handler caught body =>
      let inner := ⟨address, symbolNames caught.1, false⟩ :: frames
      .mk line ((Form.enumerate (.handler caught body)).map (visit inner))
    | form => .mk line (form.enumerate.map (visit frames))

def resolveBody (body : List Node) : List Node :=
  let frame : Frame := ⟨[], programNames body, true⟩
  body.mapIdx fun i n => resolveIn n [frame] [i]

/-- Nodes that have a name, and so can be declared. -/
def isNamed (n : Node) : Bool :=
  match n.form with
  | .symbol _ | .definition .. | .function .. | .loose .symbol _ | .loose (.name ..) _ => true
  | _ => false

/-- Whether a statement declares something without a name, or is not there. -/
def isUndeclarable (n : Node) : Bool :=
  n.form.isAbsent || (n.walk (·.form.isFunction)).any fun n =>
    match n.form with
    | .function .declaration name _ _ => !name.any isNamed
    | .definition name _ => !isNamed name
    | _ => false

/-- What is wrong with the declarations in a body. -/
def bodyFault? (body : List Node) : Option Defect :=
  (Node.listFault? body).or (if body.any isUndeclarable then some .missingNode else none)

/-- What is wrong with the scope that a node opens. -/
def openingFault? (n : Node) : Option Defect :=
  match n.form with
  | .function kind name parameters body =>
    ((Node.listFault? parameters).or
      (if parameters.all isNamed then bodyFault? body else some .missingNode)).or
      (if kind = .expression && name.any (!isNamed ·) then some .missingNode else none)
  | .handler caught _ => if isNamed caught then none else some .missingNode
  | _ => none

/-- What is wrong with a body and the scopes in it. -/
def fault? (body : List Node) : Option Defect :=
  (bodyFault? body).or ((body.flatMap Node.preorder).findSome? openingFault?)

/-- The statements in which the names of a tree are resolved, and the tree with others in their
place. -/
def body? (n : Node) : Except Defect (List Node × (List Node → Node)) :=
  match n with
  | .mk line (.program body) => .ok (body, fun body => .mk line (.program body))
  | .mk line (.block body) => .ok (body, fun body => .mk line (.block body))
  | .mk line (.switch subject body) => .ok (body, fun body => .mk line (.switch subject body))
  | .mk line (.branch test body) => .ok (body, fun body => .mk line (.branch test body))
  | .mk line (.tryBlock body caught last) =>
    .ok (body, fun body => .mk line (.tryBlock body caught last))
  | .mk line (.handler caught body) => .ok (body, fun body => .mk line (.handler caught body))
  | .mk line (.finalizer body) => .ok (body, fun body => .mk line (.finalizer body))
  | .mk line (.function kind name parameters body) =>
    .ok (body, fun body => .mk line (.function kind name parameters body))
  | .mk line (.loose .block body) => .ok (body, fun body => .mk line (.loose .block body))
  | .mk _ (.simple _) | .mk _ (.labeled ..) | .mk _ (.doWhile ..) | .mk _ (.whileLoop ..)
  | .mk _ (.forLoop ..) | .mk _ (.forIn ..) | .mk _ (.withObject ..) | .mk _ (.ifElse ..)
  | .mk _ (.loose .controlling _) => .error .missingList
  | _ => .error .missingNode

end Scope

/-- Gives every name in the statements of a tree its home. -/
def Node.resolve (n : Node) : Except Defect Node := do
  let (body, fill) ← Scope.body? n
  match Scope.fault? body with
  | some cause => throw cause
  | none => return fill (Scope.resolveBody body)

/-- Shows names under other names, chosen by their home. -/
def Node.showAs (chosen : Home → String → Option String) : Node → Node :=
  Node.mapSymbols fun s =>
    match s.home.bind (chosen · s.name) with
    | some shown => { s with shownAs := some shown }
    | none => s

/-- Shows every resolved name as the last text that a list gives for it. -/
def Node.rename (renames : List (String × String)) : Node → Node :=
  Node.showAs fun _ name => (renames.reverse.find? (·.1 = name)).map Prod.snd

end Debundle
