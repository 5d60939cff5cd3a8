import Debundle.Text.Chars

/-!
# Escapes

How texts are written into a program: control characters and, where only ASCII is wanted, all
characters beyond it are replaced by escapes, and strings are put between the quotes that need
fewer of them.
-/
namespace Debundle.Escape

open Text

/-- The escape of one character. Names admit no escape of two digits. -/
def code (inName : Bool) (c : Char) : List Char :=
  let n := c.toNat
  if n ≤ 0xff && !inName then '\\' :: 'x' :: hex 2 n
  else if n ≤ 0xffff then '\\' :: 'u' :: hex 4 n
  else
    let m := n - 0x10000
    '\\' :: 'u' :: hex 4 (0xd800 + m / 0x400) ++ '\\' :: 'u' :: hex 4 (0xdc00 + m % 0x400)

/-- Escapes whatever is not printable ASCII. -/
def ascii (inName : Bool) (cs : List Char) : List Char :=
  cs.flatMap fun c => if c.toNat < 0x20 || 0x7f ≤ c.toNat then code inName c else [c]

/-- Escapes what may not stand in a string as it is. Quotes are left for later, and so are
backslashes. A zero before a digit is written in full. -/
def controls : List Char → List Char
  | [] => []
  | c :: rest =>
    let shown :=
      if c = '\x00' then
        if rest.head?.any isDigitSign then ['\\', 'x', '0', '0'] else ['\\', '0']
      else if c = '\n' then ['\\', 'n']
      else if c = '\r' then ['\\', 'r']
      else if c = '\t' then ['\\', 't']
      else if c = '\x08' then ['\\', 'b']
      else if c = '\x0c' then ['\\', 'f']
      else if c = '\x0b' then ['\\', 'v']
      else if c = '\u2028' || c = '\u2029' || c = '\ufeff' then code true c
      else [c]
    shown ++ controls rest

/-- Puts a text between quotes, with a backslash before each quote of that kind inside it. -/
def enclose (quote : Char) (cs : List Char) : List Char :=
  quote :: cs.flatMap (fun c => if c = quote then ['\\', quote] else [c]) ++ [quote]

/-- A string literal with the given value. -/
def string (asciiOnly : Bool) (value : List Char) : List Char :=
  let cs := controls value
  let cs := if asciiOnly then ascii false cs else cs
  enclose (if value.count '\'' < value.count '"' then '\'' else '"') cs

end Debundle.Escape
