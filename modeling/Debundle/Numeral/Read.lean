import Debundle.Numeral.Basic

/-!
# Reading numerals

Whole numbers may have blanks around them, a sign, digits of any script and single underscores
between digits. Decimals may also be the words for infinity and not-a-number.
-/
namespace Debundle.Numeral

open Text

/-- Blanks that may stand around a number; information separators may not. -/
def isMargin (c : Char) : Bool :=
  isBlank c && !(0x1c ≤ c.toNat && c.toNat ≤ 0x1f)

def trimMargins (cs : List Char) : List Char :=
  trimBy isMargin cs

/-- A sign, if there is one, and the text after it. -/
def splitSign : List Char → Bool × List Char
  | '-' :: rest => (true, rest)
  | '+' :: rest => (false, rest)
  | rest => (false, rest)

/-- Digits with single underscores between them. -/
def readDigits (value? : Char → Option Nat) (base : Nat) : Nat → List Char → Option Nat
  | total, [] => some total
  | _, ['_'] => none
  | total, '_' :: c :: rest => do readDigits value? base (total * base + (← value? c)) rest
  | total, c :: rest => do readDigits value? base (total * base + (← value? c)) rest

def readNatural (value? : Char → Option Nat) (base : Nat) : List Char → Option Nat
  | [] => none
  | '_' :: _ => none
  | cs => readDigits value? base 0 cs

/-- Digits of other scripts as ASCII digits. -/
def plainDigit (c : Char) : Char :=
  match decimalValue? c with
  | some v => Char.ofNat (0x30 + v)
  | none => c

/-- What follows the mark `0x` and one underscore after it; a text without the mark as it is. -/
def dropHexMark : List Char → List Char
  | '0' :: x :: rest =>
    if x = 'x' || x = 'X' then
      match rest with
      | '_' :: digits => digits
      | digits => digits
    else '0' :: x :: rest
  | cs => cs

/-- A hexadecimal number, with or without the mark `0x`. The zero of the mark, too, may be a digit
of any script. -/
def readHex? (text : List Char) : Option Int :=
  let (negative, cs) := splitSign ((trimMargins text).map plainDigit)
  (readNatural hexValue? 16 (dropHexMark cs)).map fun n => if negative then -(n : Int) else n

/-- Underscores stand only between two digits; they are dropped. -/
def dropUnderscores : List Char → Option (List Char)
  | [] => some []
  | ['_'] => none
  | '_' :: _ => none
  | c :: '_' :: d :: rest =>
    if c.isDigit && d.isDigit then (dropUnderscores (d :: rest)).map (c :: ·) else none
  | c :: rest => (dropUnderscores rest).map (c :: ·)

def digitsValue (cs : List Char) : Nat :=
  cs.foldl (fun n c => n * 10 + (c.toNat - 0x30)) 0

/-- The exponent part of a decimal, which has to be all that is left. -/
def readExponent : List Char → Option Int
  | [] => some 0
  | c :: rest =>
    if c = 'e' || c = 'E' then
      let (negative, digits) := splitSign rest
      if digits ≠ [] && digits.all Char.isDigit then
        some (if negative then -(digitsValue digits : Int) else digitsValue digits)
      else none
    else none

def readUnsigned? (negative : Bool) (cs : List Char) : Option Double :=
  let word := cs.map Char.toLower
  if word = ['i', 'n', 'f'] || word = ['i', 'n', 'f', 'i', 'n', 'i', 't', 'y'] then
    some (.infinity negative)
  else if word = ['n', 'a', 'n'] then some (.nan negative)
  else
    let whole := cs.takeWhile Char.isDigit
    let rest := cs.dropWhile Char.isDigit
    let (part, rest) := match rest with
      | '.' :: r => (r.takeWhile Char.isDigit, r.dropWhile Char.isDigit)
      | r => ([], r)
    if whole = [] && part = [] then none
    else (readExponent rest).map fun e =>
      Double.ofDecimal negative (digitsValue (whole ++ part)) (e - part.length)

/-- A decimal fraction. -/
def readDouble? (text : List Char) : Option Double := do
  let cs ← dropUnderscores ((trimMargins text).map plainDigit)
  let (negative, body) := splitSign cs
  readUnsigned? negative body

/-- The number that a text writes: a hexadecimal or all-digit text is a whole number, any other
text a double. -/
def read? (text : List Char) : Option Numeral :=
  match text with
  | '0' :: 'x' :: _ | '0' :: 'X' :: _ => (readHex? text).map .whole
  | _ =>
    if text ≠ [] && text.all isDecimal then
      if text.length ≤ maxDigits then
        some (.whole (digitsValue (text.map plainDigit)))
      else none
    else (readDouble? text).map .double

end Debundle.Numeral
