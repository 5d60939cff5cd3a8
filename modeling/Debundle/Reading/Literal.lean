import Debundle.Numeral.Read

/-!
# Values of literals

The value of a string literal. Escapes give code points, which may be halves of surrogate pairs;
two halves that meet make one character.
-/
namespace Debundle.Literal

open Numeral

/-- Why a literal has no value. -/
inductive Fault where
  | invalid | loneSurrogate | tooLarge | cutOff
  deriving DecidableEq

/-- The code point that an escape writes in hexadecimal. -/
def codePoint (digits : List Char) : Except Fault Nat :=
  match readHex? digits with
  | none => .error .invalid
  | some n =>
    if n < -2147483648 || 2147483647 < n then .error .tooLarge
    else if n < 0 || 0x10ffff < n then .error .invalid
    else .ok n.toNat

def isOctal (c : Char) : Bool :=
  '0' ≤ c && c ≤ '7'

def octalValue (cs : List Char) : Nat :=
  cs.foldl (fun n c => n * 8 + (c.toNat - 0x30)) 0

def simpleEscape (c : Char) : Char :=
  if c = 'n' then '\n' else if c = 't' then '\t' else if c = 'r' then '\r'
  else if c = 'b' then '\x08' else if c = 'f' then '\x0c' else if c = 'v' then '\x0b'
  else c

/-- The escape after a backslash: the code points it stands for and the text after it. -/
def escape : List Char → Except Fault (List Nat × List Char)
  | [] => .error .cutOff
  | 'x' :: rest => do return ([← codePoint (rest.take 2)], rest.drop 2)
  | 'u' :: '{' :: rest =>
    if rest.contains '}' then do
      return ([← codePoint (rest.takeWhile (· ≠ '}'))], (rest.dropWhile (· ≠ '}')).drop 1)
    else .error .invalid
  | 'u' :: rest => do return ([← codePoint (rest.take 4)], rest.drop 4)
  | '\r' :: '\n' :: rest => .ok ([], rest)
  | c :: rest =>
    if isOctal c then
      let most := if c ≤ '3' then 3 else 2
      let digits := ((c :: rest).takeWhile isOctal).take most
      .ok ([octalValue digits], (c :: rest).drop digits.length)
    else if c = '\r' || c = '\n' || c = '\u2028' || c = '\u2029' then .ok ([], rest)
    else .ok ([(simpleEscape c).toNat], rest)

/-- The code points of the text between the quotes. -/
def codePoints : Nat → List Char → Except Fault (List Nat)
  | _, [] => .ok []
  | 0, _ => .ok []
  | fuel + 1, '\\' :: rest => do
    let (points, rest) ← escape rest
    return points ++ (← codePoints fuel rest)
  | fuel + 1, c :: rest => do return c.toNat :: (← codePoints fuel rest)

def isHighHalf (n : Nat) : Bool := 0xd800 ≤ n && n < 0xdc00

def isLowHalf (n : Nat) : Bool := 0xdc00 ≤ n && n < 0xe000

/-- Joins surrogate pairs. -/
def joinPairs : List Nat → Except Fault (List Char)
  | [] => .ok []
  | [n] => if isHighHalf n || isLowHalf n then .error .loneSurrogate else .ok [Char.ofNat n]
  | n :: m :: rest =>
    if isHighHalf n then
      if isLowHalf m then do
        return Char.ofNat (0x10000 + (n - 0xd800) * 0x400 + (m - 0xdc00)) :: (← joinPairs rest)
      else .error .loneSurrogate
    else if isLowHalf n then .error .loneSurrogate
    else do return Char.ofNat n :: (← joinPairs (m :: rest))

/-- The value of a string literal, which is given with its quotes. -/
def string (literal : String) : Except Fault String := do
  let body := (literal.toList.drop 1).dropLast
  return String.ofList (← joinPairs (← codePoints body.length body))

/-- The value of a number literal. -/
def number (literal : String) : Except Fault Numeral :=
  match read? literal.toList with
  | some n => .ok n
  | none => .error .invalid

/-- The text of a number literal that is used as a property key. -/
def numberKey (literal : String) : Except Fault String := do
  match (← number literal).code? with
  | some text => return text
  | none => .error .invalid

end Debundle.Literal
