import Debundle.Token.Gap
import Debundle.Token.Lexeme

/-!
# Tokens

A cursor stands between two characters of a text. From there it skips gaps and takes the next
token among the terminals that are allowed.
-/
namespace Debundle

structure Token where
  terminal : Terminal
  text : String
  start : Nat
  line : Nat
  column : Nat
  afterLineEnd : Bool
  deriving DecidableEq

/-- A place in a text: the characters before it, backwards, and those after it. Lines are counted
by line feeds only. -/
structure Cursor where
  before : List Char
  rest : List Char
  start : Nat
  line : Nat
  column : Nat

namespace Cursor

def ofText (cs : List Char) : Cursor :=
  ⟨[], cs, 0, 1, 1⟩

def advance : Nat → Cursor → Cursor
  | n + 1, ⟨before, c :: rest, start, line, column⟩ =>
    if c = '\n' then advance n ⟨c :: before, rest, start + 1, line + 1, 1⟩
    else advance n ⟨c :: before, rest, start + 1, line, column + 1⟩
  | _, cursor => cursor

def skipGaps : Nat → Cursor → Cursor
  | 0, cursor => cursor
  | fuel + 1, cursor =>
    match Gap.extent? cursor.rest with
    | some n => skipGaps fuel (cursor.advance n)
    | none => cursor

/-- The token of a given class and length at the cursor. -/
def token (cursor : Cursor) (t : Terminal) (length : Nat) : Token :=
  ⟨t, String.ofList (cursor.rest.take length), cursor.start, cursor.line, cursor.column,
    Gap.lineEndBehind none cursor.before⟩

inductive Scan where
  | finished
  | token (token : Token) (after : Cursor)
  | stuck (place : Cursor)

/-- The next token of an allowed class. -/
def scan (allowed : Terminal → Bool) (cursor : Cursor) : Scan :=
  let here := cursor.skipGaps cursor.rest.length
  if here.rest.isEmpty then .finished
  else match Lexeme.first? allowed here.rest with
    | some (t, n) => .token (here.token t n) (here.advance n)
    | none => .stuck here

end Cursor

end Debundle
