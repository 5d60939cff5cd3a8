import Debundle.Tree.Node

/-!
# Sequences as statements

A comma sequence in a statement position is split: all but its last expression become statements
before the statement that held it.
-/
namespace Debundle

namespace Node

/-- A bound for the depth of normalised trees. Sequences and unary operators weigh more, because
they may turn into several statements. -/
def weight : Node → Nat :=
  foldUp fun _ form =>
    let own := match form with
      | .sequence items => items.length + 1
      | .unary .. => 2
      | _ => 1
    own + (form.children.map Prod.snd).foldr (· + ·) 0

end Node

namespace Normal

/-- The expressions of a sequence before the last one, as statements, and the last one. -/
def lastOf (items : List Node) : Except Defect (List Node × Node) :=
  match Node.listFault? items, items.getLast? with
  | some cause, _ => .error cause
  | none, some last => .ok (items.dropLast.map Node.asStatement, last)
  | none, none => .error .emptySequence

/-- Splits the sequence `items` in a slot of a statement, which `hold` fills with the last one. -/
def hoist (items : List Node) (hold : Node → Node) : List Node :=
  match lastOf items with
  | .ok (leading, last) => leading ++ [hold last]
  | .error cause => [.faulty cause]

/-- The sequence in the slot of a statement that is evaluated before anything else of it. -/
def splitSlot? : Node → Option (List Node)
  | .mk line (.exit .returning (some (.mk _ (.sequence items)))) =>
    some (hoist items fun last => .mk line (.exit .returning (some last)))
  | .mk line (.simple (.mk _ (.sequence items))) =>
    some (hoist items fun last => .mk line (.simple last))
  | .mk line (.ifElse (.mk _ (.sequence items)) body alternative) =>
    some (hoist items fun last => .mk line (.ifElse last body alternative))
  | .mk line (.forLoop (some (.mk _ (.sequence items))) condition step body) =>
    some (hoist items fun last => .mk line (.forLoop (some last) condition step body))
  | .mk line (.withObject (.mk _ (.sequence items)) body) =>
    some (hoist items fun last => .mk line (.withObject last body))
  | .mk line (.switch (.mk _ (.sequence items)) branches) =>
    some (hoist items fun last => .mk line (.switch last branches))
  | _ => none

/-- What stands in the value slot of a node; `none` if it has no such slot. -/
def valueSlot? (n : Node) : Option (Option Node) :=
  match n.form with
  | .definition _ value | .exit _ value => some value
  | .property _ _ value => some (some value)
  | .loose .leaving parts | .loose .entry parts | .loose (.property _) parts => some parts.head?
  | .string _ | .number _ | .regexp _ | .boolean _ => some none
  | .loose .constant _ | .loose .string _ | .loose (.regexp _) _ | .loose (.number _ _) _ => some none
  | _ => none

/-- Puts a value into the value slot of a node. -/
def withValue (value : Node) : Node → Node
  | .mk line (.definition name _) => .mk line (.definition name (some value))
  | .mk line (.exit kind _) => .mk line (.exit kind (some value))
  | .mk line (.property kind key _) => .mk line (.property kind key value)
  | .mk line (.loose kind _) => .mk line (.loose kind [value])
  | n => n

/-- How a declarator is initialised, as far as splitting is concerned. -/
inductive Initial where
  | plain
  | sequence (items : List Node)
  /-- There is no slot for a value. -/
  | impossible

def initial (n : Node) : Initial :=
  match valueSlot? n with
  | none => .impossible
  | some (some (.mk _ (.sequence items))) => .sequence items
  | some _ => .plain

def Initial.isPlain : Initial → Bool
  | plain => true
  | _ => false

/-- Splits declarators; `current` are those not yet written down, latest first. -/
def splitDeclarators (declare : List Node → Node) (current : List Node) : List Node → List Node
  | [] => [declare current.reverse]
  | d :: rest =>
    match initial d with
    | .plain => splitDeclarators declare (d :: current) rest
    | .impossible => [.faulty .missingNode]
    | .sequence items =>
      let before := if current.isEmpty then [] else [declare current.reverse]
      match lastOf items with
      | .error cause => [.faulty cause]
      | .ok (leading, last) =>
        before ++ leading ++ splitDeclarators declare [withValue last d] rest

/-- A declaration in which a declarator is initialised with a sequence. -/
def splitDeclaration? : Node → Option (List Node)
  | .mk line (.declare kind definitions) =>
    match Node.listFault? definitions with
    | some cause => some [.faulty cause]
    | none =>
      match (definitions.map initial).find? (!·.isPlain) with
      | none => none
      | some .impossible => some [.faulty .missingNode]
      | some _ => some (splitDeclarators (fun ds => .mk line (.declare kind ds)) [] definitions)
  | _ => none

/-- Assignment targets that can be evaluated after the right-hand side: a name or `this`, and
properties of these. -/
def isSettledTarget : Node → Bool :=
  Node.foldUp fun _ form =>
    match form with
    | .dot object _ => object.2
    | .loose (.dot _) (object :: _) => object.2
    | .symbol s => s.role = .reference
    | .loose (.name role _) _ => role = .reference
    | .self => true
    | _ => false

/-- An assignment statement with a sequence on the right. -/
def splitAssignment? : Node → Option (List Node)
  | .mk line (.simple (.mk inner (.assign operator left (.mk _ (.sequence items))))) =>
    if isSettledTarget left then
      some (hoist items fun last => .mk line (.simple (.mk inner (.assign operator left last))))
    else none
  | _ => none

/-- One split of a statement, if there is something to split. -/
def split? (n : Node) : Option (List Node) :=
  match splitSlot? n with
  | some parts => some parts
  | none =>
    match splitDeclaration? n with
    | some parts => some parts
    | none => splitAssignment? n

/-- The statements that a statement becomes when it is split as long as possible. -/
def expandUpTo : Nat → Node → List Node
  | 0, n => [n]
  | fuel + 1, n =>
    match split? n with
    | some parts => parts.flatMap (expandUpTo fuel)
    | none => [n]

def expand (n : Node) : List Node :=
  expandUpTo n.weight n

end Normal

end Debundle
