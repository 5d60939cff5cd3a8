import Debundle.Tree.Form

/-!
# Pieces of program text

A program is written as a list of pieces: texts, and places where the laid out form has blanks or
line ends. Compact output leaves these out, and puts one blank where two texts would run together.
-/
namespace Debundle

inductive Piece where
  | text (chars : List Char)
  | space
  | newline
  | indent
  | halfIndent
  | deeper
  | shallower
  | defect (cause : Defect)
  deriving DecidableEq

/-- How program text is laid out. -/
structure Style where
  beautify : Bool := true
  asciiOnly : Bool := true
  bracketize : Bool := true
  indentLevel : Int := 4
  /-- Whether each declarator of a declaration has a line of its own. -/
  stacked : Bool := true
  deriving DecidableEq

namespace Piece

def word (s : String) : Piece := text s.toList

/-- Characters that run together into one name. -/
def joinsNames (c : Char) : Bool :=
  Text.isNamePart c || c == '\\'

/-- Whether a blank has to keep two characters apart. -/
def mustSeparate (last first : Char) : Bool :=
  (joinsNames last && joinsNames first) ||
    (last == first && (last == '+' || last == '-' || last == '/'))

/-- Text written so far, backwards, and the current indentation. -/
structure Canvas where
  written : List Char
  column : Int

def Canvas.put (canvas : Canvas) (cs : List Char) : Canvas :=
  match cs, canvas.written with
  | [], _ => canvas
  | first :: _, last :: _ =>
    let gap := if mustSeparate last first then [' '] else []
    { canvas with written := cs.reverse ++ gap ++ canvas.written }
  | _, [] => { canvas with written := cs.reverse }

def Canvas.blanks (canvas : Canvas) (count : Int) : Canvas :=
  canvas.put (List.replicate count.toNat ' ')

def Canvas.add (style : Style) (canvas : Canvas) : Piece → Canvas
  | text cs => canvas.put cs
  | space => if style.beautify then canvas.put [' '] else canvas
  | newline => if style.beautify then canvas.put ['\n'] else canvas
  | indent => if style.beautify then canvas.blanks canvas.column else canvas
  | halfIndent =>
    if style.beautify then canvas.blanks (canvas.column - style.indentLevel.fdiv 2) else canvas
  | deeper => { canvas with column := canvas.column + style.indentLevel }
  | shallower => { canvas with column := canvas.column - style.indentLevel }
  | defect _ => canvas

/-- The first defect among the pieces. -/
def firstDefect? (pieces : List Piece) : Option Defect :=
  pieces.findSome? fun
    | defect cause => some cause
    | _ => none

def render (style : Style) (pieces : List Piece) : List Char :=
  (pieces.foldl (Canvas.add style) ⟨[], 0⟩).written.reverse

end Piece

end Debundle
