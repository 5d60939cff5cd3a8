import Debundle.Numeral.Shortest
import Debundle.Text.Chars

/-!
# Numerals

Numbers of programs are whole numbers of any size or doubles. A whole number is written in
decimal only up to `Numeral.maxDigits` digits, and read only up to as many.
-/
namespace Debundle

inductive Numeral where
  | whole (value : Int)
  | double (value : Double)
  deriving DecidableEq

namespace Numeral

def isZero : Numeral → Bool
  | .whole n => n = 0
  | .double d => d.toInt? = some 0

def isOne : Numeral → Bool
  | .whole n => n = 1
  | .double d => d.toInt? = some 1

def maxDigits : Nat := 4300

def naturalText (n : Nat) : List Char :=
  Nat.toDigits 10 n

def wholeText? (n : Int) : Option String :=
  let digits := naturalText n.natAbs
  if digits.length ≤ maxDigits then
    some (String.ofList (if n < 0 then '-' :: digits else digits))
  else none

/-- How decimals are laid out: whether an exponent has a plus sign, its least width, and whether a
whole value ends in `.0`. -/
structure Style where
  plus : Bool
  width : Nat
  point : Bool

/-- Positional for leading powers from -4 to 15, else with an exponent. -/
def decimalText (style : Style) (x : Double.Decimal) : List Char :=
  let digits := naturalText x.digits
  let lead : Int := digits.length + x.exponent
  if -4 < lead && lead ≤ 16 then
    if lead ≤ 0 then '0' :: '.' :: List.replicate (-lead).toNat '0' ++ digits
    else if x.exponent ≥ 0 then
      digits ++ List.replicate x.exponent.toNat '0' ++ (if style.point then ['.', '0'] else [])
    else digits.take lead.toNat ++ '.' :: digits.drop lead.toNat
  else
    let tail := digits.drop 1
    let power := naturalText (lead - 1).natAbs
    digits.take 1 ++ (if tail = [] then [] else '.' :: tail) ++ ['e'] ++
      (if lead - 1 < 0 then ['-'] else if style.plus then ['+'] else []) ++
      List.replicate (style.width - power.length) '0' ++ power

def signed (negative : Bool) (cs : List Char) : String :=
  String.ofList (if negative then '-' :: cs else cs)

/-- Numbers in program text: no plus sign and no filling zeros in the exponent, and whole values
below `10 ^ 21` without a point. -/
def codeStyle : Style := ⟨false, 1, false⟩

/-- Numbers in descriptions: an exponent has a sign and two digits, whole values end in `.0`. -/
def plainStyle : Style := ⟨true, 2, true⟩

/-- The text of a number in a program. -/
def code? : Numeral → Option String
  | .whole n => wholeText? n
  | .double d =>
    if d.isNaN then some "NaN"
    else if !d.isFinite then some (if d.isNegative then "-Infinity" else "Infinity")
    else match d.toInt? with
      | some n => if n.natAbs < Nat.pow 10 21 then wholeText? n
          else some (signed d.isNegative (decimalText codeStyle d.shortest))
      | none => some (signed d.isNegative (decimalText codeStyle d.shortest))

/-- The text of a number in a description of a tree. -/
def plain? : Numeral → Option String
  | .whole n => wholeText? n
  | .double d =>
    if d.isNaN then some "nan"
    else if !d.isFinite then some (if d.isNegative then "-inf" else "inf")
    else if d.toInt? = some 0 then some (signed d.isNegative ['0', '.', '0'])
    else some (signed d.isNegative (decimalText plainStyle d.shortest))

end Numeral

end Debundle
