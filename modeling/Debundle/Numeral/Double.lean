/-!
# Doubles

Binary floating point numbers of 64 bits, held as their bits and read as exact fractions.
-/
namespace Debundle

structure Double where
  bits : UInt64
  deriving DecidableEq

namespace Double

def isNegative (d : Double) : Bool :=
  Nat.pow 2 63 ≤ d.bits.toNat

def fraction (d : Double) : Nat :=
  d.bits.toNat % Nat.pow 2 52

def exponentField (d : Double) : Nat :=
  d.bits.toNat / Nat.pow 2 52 % Nat.pow 2 11

def isFinite (d : Double) : Bool :=
  d.exponentField ≠ 2047

def isNaN (d : Double) : Bool :=
  !d.isFinite && d.fraction ≠ 0

/-- A finite double is `significand * 2 ^ power`, up to its sign. -/
def significand (d : Double) : Nat :=
  if d.exponentField = 0 then d.fraction else Nat.pow 2 52 + d.fraction

def power (d : Double) : Int :=
  if d.exponentField = 0 then -1074 else (d.exponentField : Int) - 1075

/-- The absolute value as a fraction of naturals. -/
def magnitude (d : Double) : Nat × Nat :=
  (d.significand * Nat.pow 2 d.power.toNat, Nat.pow 2 (-d.power).toNat)

/-- The value, if it is a whole number. -/
def toInt? (d : Double) : Option Int :=
  let (num, den) := d.magnitude
  if d.isFinite && num % den = 0 then
    some (if d.isNegative then -((num / den : Nat) : Int) else ((num / den : Nat) : Int))
  else none

def infinity (negative : Bool) : Double :=
  ⟨(if negative then 0xfff0000000000000 else 0x7ff0000000000000)⟩

def nan (negative : Bool) : Double :=
  ⟨(if negative then 0xfff8000000000000 else 0x7ff8000000000000)⟩

/-- The quotient rounded to the nearest natural, a half to the even one. -/
def roundDiv (num den : Nat) : Nat :=
  let q := num / den
  let r := num % den
  if 2 * r > den || (2 * r == den && q % 2 == 1) then q + 1 else q

/-- The double nearest to `num / den`, a half going to the even neighbour. -/
def ofRatio (negative : Bool) (num den : Nat) : Double :=
  let scaled := fun (p : Int) => (num * Nat.pow 2 (-p).toNat, den * Nat.pow 2 p.toNat)
  let guess : Int := max ((Nat.log2 num : Int) - Nat.log2 den - 53) (-1074)
  let p := if (scaled guess).1 ≥ Nat.pow 2 53 * (scaled guess).2 then guess + 1 else guess
  let m := roundDiv (scaled p).1 (scaled p).2
  let word :=
    if num = 0 then 0
    else if m < Nat.pow 2 52 then m
    else min ((p + 1075).toNat * Nat.pow 2 52 + (m - Nat.pow 2 52)) (2047 * Nat.pow 2 52)
  ⟨UInt64.ofNat (if negative then Nat.pow 2 63 + word else word)⟩

/-- The double nearest to `digits * 10 ^ exponent`. Beyond the ends of the range the power is not
computed. -/
def ofDecimal (negative : Bool) (digits : Nat) (exponent : Int) : Double :=
  let size : Int := (Nat.toDigits 10 digits).length + exponent
  if digits = 0 || size < -400 then ofRatio negative 0 1
  else if size > 400 then infinity negative
  else ofRatio negative (digits * Nat.pow 10 exponent.toNat) (Nat.pow 10 (-exponent).toNat)

end Double

end Debundle
