import Debundle.Text.Chars

/-!
# Gaps between tokens

Blanks and comments separate tokens. Whether a gap holds a line end is read backwards from the
token after it: over plain blanks, and over whatever looks like a block comment.
-/
namespace Debundle.Gap

open Text

/-- The length of a block comment after its opening mark, closing mark included. -/
def blockEnd : List Char → Option Nat
  | '*' :: '/' :: _ => some 2
  | _ :: rest => (blockEnd rest).map (· + 1)
  | [] => none

def isGapBlank (c : Char) : Bool :=
  isBlank c || c == '\ufeff'

/-- The length of the blanks or the comment at the start of a text. -/
def extent? (cs : List Char) : Option Nat :=
  match cs with
  | '/' :: '*' :: rest => (blockEnd rest).map (· + 2)
  | '/' :: '/' :: rest => some (2 + (rest.takeWhile (!isLineEnd ·)).length)
  | c :: rest => if isGapBlank c then some (1 + (rest.takeWhile isGapBlank).length) else none
  | [] => none

/-- The blanks that are passed over backwards. -/
def isPassed (c : Char) : Bool :=
  c == ' ' || c == '\t' || c == '\x0b' || c == '\x0c' || c == '\ufeff' || c == '\u00a0'

/-- Reads a text backwards. Inside what looks like a comment, `inside` tells whether a line end
was passed there. -/
def lineEndBehind : (inside : Option Bool) → List Char → Bool
  | _, [] => false
  | none, '/' :: '*' :: more => lineEndBehind (some false) more
  | none, c :: rest => isLineEnd c || (isPassed c && lineEndBehind none rest)
  | some seen, '*' :: '/' :: more => seen || lineEndBehind none more
  | some seen, c :: rest => lineEndBehind (some (seen || isLineEnd c)) rest

/-- Whether a line end separates a position from the token before it, for a position inside the
text or at its end. -/
def newlineBefore? (text : List Char) (position : Int) : Option Bool :=
  if position ≤ text.length then some (lineEndBehind none (text.take position.toNat).reverse)
  else none

end Debundle.Gap
