import Debundle.Numeral.Double

/-!
# Shortest decimals

The decimal with the fewest digits that rounds to a given double, and among those the nearest.
-/
namespace Debundle.Double

/-- A positive decimal `digits * 10 ^ exponent`. -/
structure Decimal where
  digits : Nat
  exponent : Int
  deriving DecidableEq

/-- Drops zeros at the end of the digits. -/
def Decimal.stripped (fuel : Nat) (x : Decimal) : Decimal :=
  match fuel with
  | 0 => x
  | fuel + 1 =>
    if x.digits ≠ 0 && x.digits % 10 = 0 then
      Decimal.stripped fuel ⟨x.digits / 10, x.exponent + 1⟩
    else x

/-- The power of ten of the leading digit of a positive fraction. -/
def leadingPower (num den : Nat) : Int :=
  if den ≤ num then ((Nat.toDigits 10 (num / den)).length : Int) - 1
  else
    let d := (Nat.toDigits 10 (den / num)).length
    if den ≤ num * Nat.pow 10 (d - 1) then -((d - 1 : Nat) : Int) else -(d : Int)

/-- The reals that round to `significand * 2 ^ power`, as `low`, `value` and `high` over one
denominator; the ends belong to it if the significand is even. -/
structure Interval where
  low : Nat
  value : Nat
  high : Nat
  den : Nat
  closed : Bool

def interval (d : Double) : Interval :=
  let m := d.significand
  let p := d.power - 2
  let below := if d.fraction = 0 && d.exponentField > 1 then 1 else 2
  let up := Nat.pow 2 p.toNat
  ⟨(4 * m - below) * up, 4 * m * up, (4 * m + 2) * up, Nat.pow 2 (-p).toNat, m % 2 == 0⟩

def Interval.contains (i : Interval) (num den : Nat) : Bool :=
  let x := num * i.den
  if i.closed then i.low * den ≤ x && x ≤ i.high * den else i.low * den < x && x < i.high * den

/-- The nearer of the two neighbours on the grid of multiples of `10 ^ exponent`, if one of them
rounds to the value. -/
def Interval.onGrid? (i : Interval) (exponent : Int) : Option Decimal :=
  let up := Nat.pow 10 exponent.toNat
  let down := Nat.pow 10 (-exponent).toNat
  let g := i.value * down / (i.den * up)
  let lowHit := i.contains (g * up) down
  let highHit := i.contains ((g + 1) * up) down
  let twice := 2 * i.value * down
  let middle := (2 * g + 1) * (i.den * up)
  let takeLow := twice < middle || (twice == middle && g % 2 == 0)
  if lowHit && (takeLow || !highHit) then some ⟨g, exponent⟩
  else if highHit then some ⟨g + 1, exponent⟩
  else none

/-- Tries grids of `count`, `count + 1`, … digits. -/
def Interval.search (i : Interval) (leading : Int) (fuel count : Nat) : Decimal :=
  match fuel with
  | 0 => ⟨i.value / i.den, 0⟩
  | fuel + 1 =>
    match i.onGrid? (leading - count + 1) with
    | some x => x
    | none => i.search leading fuel (count + 1)

/-- The shortest decimal of a finite double that is not zero. -/
def shortest (d : Double) : Decimal :=
  let i := d.interval
  (i.search (leadingPower i.value i.den) 17 1).stripped 20

end Debundle.Double
