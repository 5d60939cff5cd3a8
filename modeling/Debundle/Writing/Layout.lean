import Debundle.Writing.Escape
import Debundle.Writing.Piece
import Debundle.Writing.Place

/-!
# Layout

The pieces of every kind of node. `Node.pieces` depends on the place of a node and on the choices
of the style other than blanks; `Node.print` renders them.
-/
namespace Debundle

namespace Layout

open Piece

/-- The pieces of a node, once its place is known. -/
abbrev Writer := Place → List Piece

/-- A child beside its writer. -/
abbrev Part := Node × Writer

def comma : List Piece := [word ",", space]

def colon : List Piece := [word ":", space]

def semicolon : List Piece := [word ";"]

def parens (pieces : List Piece) : List Piece := word "(" :: pieces ++ [word ")"]

def braces (pieces : List Piece) : List Piece :=
  [word "\x7b", newline, deeper] ++ pieces ++ [shallower, indent, word "\x7d"]

def noBraces : List Piece := [word "\x7b\x7d"]

def isEmpty (part : Part) : Bool := part.1.form.isEmpty

/-- Whether a slot holds an empty statement or nothing at all. -/
def isVacant (part : Part) : Bool :=
  match part.1.form with
  | .empty | .absent .node => true
  | _ => false

def isBlock (part : Part) : Bool :=
  match part.1.form with
  | .block _ => true
  | _ => false

def isIf (part : Part) : Bool :=
  match part.1.form with
  | .ifElse .. => true
  | _ => false

def isHole (part : Part) : Bool :=
  match part.1.form with
  | .hole => true
  | _ => false

/-- A part by itself. -/
def alone (part : Part) : List Piece := part.2 .root

/-- Statements on lines of their own. -/
def lines (body : List Part) : List Piece :=
  (body.filter (!isEmpty ·)).flatMap fun part => indent :: alone part ++ [newline]

/-- Statements of a program, with an empty line between them. -/
def paragraphs (body : List Part) : List Piece :=
  [newline, newline].intercalate
    ((body.filter (!isEmpty ·)).map fun part => indent :: alone part)

def braced (body : List Part) : List Piece :=
  if body.all isEmpty then noBraces else braces (lines body)

/-- A controlled statement in braces. -/
def block (body : Part) : List Piece :=
  if isVacant body then noBraces
  else if isBlock body then alone body
  else braces (indent :: alone body ++ [newline])

/-- A controlled statement. -/
def controlled (style : Style) (body : Part) : List Piece :=
  if style.bracketize then block body
  else if isVacant body then semicolon
  else alone body

/-- Whether an `else` after a statement would be taken for that of an `if` inside it. -/
def capturesElse : Node → Bool :=
  Node.foldUp fun _ form =>
    match form with
    | .ifElse _ _ none => true
    | .ifElse _ _ (some alternative) => alternative.2
    | .labeled _ body => body.2
    | .whileLoop _ body => body.2
    | .forLoop _ _ _ body => body.2
    | .forIn _ _ body => body.2
    | .withObject _ body => body.2
    | _ => false

/-- The statement between a condition and its `else`. -/
def beforeElse (style : Style) (body : Part) : List Piece :=
  if style.bracketize || capturesElse body.1 then block body else controlled style body

/-- Whether the body of a node holds something; `none` if the node has no body. -/
def bodyHolds? (n : Node) : Option Bool :=
  let holds := fun (n : Node) =>
    match n.form with
    | .absent .node => false
    | _ => true
  match n.form with
  | .program body | .block body | .finalizer body | .branch _ body | .tryBlock body _ _
  | .handler _ body | .function _ _ _ body | .switch _ body => some !body.isEmpty
  | .simple body | .labeled _ body | .doWhile body _ | .whileLoop _ body | .forLoop _ _ _ body
  | .forIn _ _ body | .withObject _ body | .ifElse _ body _ => some (holds body)
  | _ => none

/-- What separates a branch of a switch from the next: an empty line, unless it has no body. -/
def afterBranch (n : Node) : List Piece :=
  match bodyHolds? n with
  | some true => [newline]
  | some false => []
  | none => [defect .missingNode]

/-- The branches of a switch. -/
def branches : List Part → List Piece
  | [] => []
  | [part] => halfIndent :: alone part
  | part :: rest => halfIndent :: alone part ++ afterBranch part.1 ++ branches rest

def branchBody (body : List Part) : List Piece :=
  newline :: body.flatMap fun part => indent :: alone part ++ [newline]

def exitWord : ExitKind → String
  | .returning => "return"
  | .throwing => "throw"

def jumpWord : JumpKind → String
  | .breaking => "break"
  | .continuing => "continue"

/-- A part of a `for` header that ends with a semicolon. -/
def headerPart (part : Option Part) (place : Place) : List Piece :=
  match part with
  | some part => part.2 place ++ [word ";", space]
  | none => semicolon

/-- The place of the first part of a `for` header. -/
def initPlace : Place := ⟨.header, false, true⟩

def definitions (style : Style) (inHeader : Bool) (forInit : Bool) (parts : List Part) :
    List Piece :=
  let written := parts.map fun part => part.2 ⟨.plain, false, forInit⟩
  if style.stacked && !inHeader && 2 ≤ parts.length then
    deeper :: [word ",", newline, indent].intercalate written ++ [shallower]
  else comma.intercalate written

def parameters (parts : List Part) : List Piece :=
  parens (comma.intercalate (parts.map alone))

/-- Words among the unary operators are set apart from their operand. -/
def isWordOperator (operator : String) : Bool :=
  operator ∈ ["in", "instanceof", "typeof", "void", "delete"]

/-- A name, with escapes if only ASCII is wanted. -/
def name (style : Style) (s : String) : Piece :=
  text (if style.asciiOnly then Escape.ascii true s.toList else s.toList)

/-- What is written for a name that is not there: nothing, unless escapes are asked for or
something else stands in its slot. -/
def noName (style : Style) (filled : Bool) : Piece :=
  if style.asciiOnly || filled then defect .missingText else text []

/-- Keys that need no quotes: names that begin with an ASCII letter, and numbers. -/
def isBareKey (key : List Char) : Bool :=
  match key with
  | [] => false
  | c :: rest =>
    ((c.isAlpha || c == '_' || c == '$') && rest.all Text.isNamePart) ||
      (c == '0' && rest.isEmpty) ||
      ('1' ≤ c && c ≤ '9' && rest.all Text.isDecimal)

def key (style : Style) (s : String) : Piece :=
  text (if isBareKey s.toList then s.toList else Escape.string style.asciiOnly s.toList)

def elements (parts : List Part) (place : Place) : List Piece :=
  if parts.isEmpty then []
  else
    space :: comma.intercalate (parts.map fun part => part.2 (place.inside .member)) ++
      (if parts.getLast?.any isHole then comma else []) ++ [space]

def arguments (parts : List Part) (place : Place) : List Piece :=
  parens (comma.intercalate (parts.map fun part => part.2 (place.inside .argument)))

/-- The items of a sequence, the first of which begins where the sequence does. -/
def items (place : Place) : List Part → List (List Piece)
  | [] => []
  | first :: rest =>
    first.2 (place.leading .plain) :: rest.map fun part => part.2 (place.inside .plain)

/-- The pieces of a node without parentheses of its own. -/
def bare (style : Style) (form : Form Part) (place : Place) : List Piece :=
  match form with
  | .program body => paragraphs body
  | .block body => braced body
  | .empty => semicolon
  | .debugger => word "debugger" :: semicolon
  | .simple body => body.2 ⟨.plain, true, false⟩ ++ semicolon
  | .labeled label body => word label :: colon ++ alone body
  | .doWhile body condition =>
    [word "do", space] ++ block body ++ [space, word "while", space] ++
      parens (alone condition) ++ semicolon
  | .whileLoop condition body =>
    [word "while", space] ++ parens (alone condition) ++ [space] ++ controlled style body
  | .forLoop init condition step body =>
    [word "for", space] ++
      parens (headerPart init initPlace ++ headerPart condition .root ++
        (step.map alone).getD []) ++
      [space] ++ controlled style body
  | .forIn init object body =>
    [word "for", space] ++
      parens (init.2 initPlace ++ [space, word "in", space] ++ alone object) ++
      [space] ++ controlled style body
  | .withObject object body =>
    [word "with", space] ++ parens (alone object) ++ [space] ++ controlled style body
  | .ifElse condition body alternative =>
    [word "if", space] ++ parens (alone condition) ++ [space] ++
      match alternative with
      | none => controlled style body
      | some other =>
        beforeElse style body ++ [space, word "else", space] ++
          (if isIf other then alone other else controlled style other)
  | .exit kind value =>
    word (exitWord kind) ::
      (match value with
        | some part => space :: alone part
        | none => []) ++ semicolon
  | .jump kind label =>
    word (jumpWord kind) ::
      (match label with
        | some label => if label = "" then [] else [space, word label]
        | none => []) ++ semicolon
  | .switch subject parts =>
    [word "switch", space] ++ parens (alone subject) ++ [space] ++
      (if parts.isEmpty then noBraces else braces (branches parts))
  | .branch none body => word "default:" :: branchBody body
  | .branch (some test) body =>
    [word "case", space] ++ alone test ++ word ":" :: branchBody body
  | .tryBlock body caught last =>
    [word "try", space] ++ braced body ++
      (match caught with
        | some part => space :: alone part
        | none => []) ++
      (match last with
        | some part => space :: alone part
        | none => [])
  | .handler caught body =>
    [word "catch", space] ++ parens (alone caught) ++ [space] ++ braced body
  | .finalizer body => [word "finally", space] ++ braced body
  | .declare kind parts =>
    let inHeader := place.standing = .header
    [word kind, space] ++ definitions style inHeader place.forInit parts ++
      (if inHeader then [] else semicolon)
  | .definition defined value =>
    defined.2 (place.inside .member) ++
      match value with
      | some part => [space, word "=", space] ++ part.2 (place.inside .member)
      | none => []
  | .function .general .. => [defect .unprintable]
  | .function kind own params body =>
    let head := match kind, own with
      | .accessor, some part => alone part
      | .accessor, none => []
      | _, some part => [word "function", space] ++ alone part
      | _, none => [word "function"]
    head ++ parameters params ++ [space] ++ braced body
  | .call callee args => callee.2 (place.leading (.callee false)) ++ arguments args place
  | .construct callee args =>
    [word "new", space] ++ callee.2 (place.inside (.callee true)) ++ arguments args place
  | .sequence parts => comma.intercalate (items place parts)
  | .dot object property =>
    object.2 (place.leading (.object true)) ++ [word ".", name style property]
  | .index object property =>
    object.2 (place.leading (.object false)) ++
      word "[" :: property.2 (place.inside .key) ++ [word "]"]
  | .unary operator operand =>
    word operator :: (if isWordOperator operator then [space] else []) ++
      operand.2 (place.inside .operand)
  | .update operator operand => operand.2 (place.leading .operand) ++ [word operator]
  | .binary operator left right =>
    left.2 (place.leading (.chained operator false)) ++ [space, word operator, space] ++
      right.2 (place.inside (.chained operator true))
  | .assign operator left right =>
    left.2 (place.leading .assigned) ++ [space, word operator, space] ++
      right.2 (place.inside .assigned)
  | .conditional condition consequent alternative =>
    condition.2 (place.leading .condition) ++ [space, word "?", space] ++
      consequent.2 (place.inside .choice) ++ [space] ++ colon ++
      alternative.2 (place.inside .choice)
  | .array parts => word "[" :: elements parts place ++ [word "]"]
  | .hole => []
  | .object parts =>
    if parts.isEmpty then noBraces
    else braces ([word ",", newline].intercalate
      (parts.map fun part => indent :: part.2 (place.inside .plain)) ++ [newline])
  | .property kind s value =>
    let head := match kind with
      | .keyValue => key style s :: colon
      | .getter => [word "get", space, key style s]
      | .setter => [word "set", space, key style s]
    head ++ value.2 (place.inside .member)
  | .symbol s => [name style s.display]
  | .self => [word "this"]
  | .string value => [text (Escape.string style.asciiOnly value.toList)]
  | .number value =>
    match value.code? with
    | some s => [word s]
    | none => [defect .oversizedNumber]
  | .regexp source =>
    [text (if style.asciiOnly then Escape.ascii false source.toList else source.toList)]
  | .null => [word "null"]
  | .nan => [word "NaN"]
  | .infinity => [word "Infinity"]
  | .boolean true => [word "true"]
  | .boolean false => [word "false"]
  | .loose (.dot filled) (object :: _) =>
    object.2 (place.leading (.object true)) ++ [word ".", noName style filled]
  | .loose (.name _ filled) _ | .loose (.regexp filled) _ => [noName style filled]
  | .loose .string _ | .loose (.property _) _ | .loose (.mistold _) _ => [defect .missingText]
  | .loose (.number shown _) _ => [word shown]
  | .loose .. => [defect .unprintable]
  | .absent .list => [defect .missingList]
  | .absent _ => [defect .missingNode]
  | .defect cause => [defect cause]

/-- The pieces of a node, in parentheses where its place asks for them. -/
def write (style : Style) (form : Form Part) (place : Place) : List Piece :=
  match place.parenthesizes (form.map Prod.fst) with
  | .ok true => parens (bare style form place)
  | .ok false => bare style form place
  | .error cause => [defect cause]

end Layout

namespace Node

/-- The pieces of a node at a place. -/
def pieces (style : Style) : Node → Place → List Piece :=
  foldUp fun _ form => Layout.write style form

/-- The text of a tree. -/
def print (style : Style) (n : Node) : Except Defect String :=
  let pieces := n.pieces style .root
  match Piece.firstDefect? pieces with
  | some cause => .error cause
  | none => .ok (String.ofList (Piece.render style pieces))

end Node

end Debundle
