import Overdub.Audio.Sample
/-!
# Samples as decimal text

The text of a sample has the fewest digits that single out this sample among all
samples; of two numbers with that many digits it is the nearer one. All
arithmetic is exact: a finite sample is a whole number of units of `2 ^ -151`, and
so is half the distance to its neighbours.
-/

namespace Overdub.Audio

/-- The number `digits * 10 ^ exponent`. -/
structure Decimal where
  digits : Nat
  exponent : Int
  deriving DecidableEq, Repr

namespace Decimal

/-- The numbers that round to one sample, in units of `2 ^ -151`. -/
structure Interval where
  low : Nat
  value : Nat
  high : Nat
  /-- The ends round to the sample too. -/
  closed : Bool

/-- The interval around a finite sample, given by its bits without the sign. The
neighbour below a power of two is only half as far away. -/
def Interval.ofBits (bits : Nat) : Interval :=
  let field := bits / Nat.pow 2 23
  let fraction := bits % Nat.pow 2 23
  let mantissa := if field = 0 then fraction else fraction + Nat.pow 2 23
  let scale := Nat.pow 2 (max field 1 - 1)
  let below := if fraction = 0 ∧ 1 < field then 1 else 2
  ⟨(4 * mantissa - below) * scale, 4 * mantissa * scale, (4 * mantissa + 2) * scale, mantissa % 2 = 0⟩

/-- The interval holds `n` units of `10 ^ (place - 54)`. -/
def Interval.holds (i : Interval) (place n : Nat) : Bool :=
  let x := n * Nat.pow 10 place * Nat.pow 2 151
  let shift (y : Nat) := y * Nat.pow 10 54
  if i.closed then shift i.low ≤ x && x ≤ shift i.high else shift i.low < x && x < shift i.high

/-- The nearest number of the interval on the grid of step `10 ^ (place - 54)`. -/
def Interval.onGrid (i : Interval) (place : Nat) : Option Decimal :=
  let unit := Nat.pow 10 place * Nat.pow 2 151
  let value := i.value * Nat.pow 10 54
  let below := value / unit
  let nearer := if 2 * (value - below * unit) ≤ unit then [below, below + 1] else [below + 1, below]
  (nearer.find? fun n => 0 < n && i.holds place n).map fun n => ⟨n, place - 54⟩

/-- The shortest number of the interval: that of the coarsest grid. -/
def Interval.shortest (i : Interval) : Decimal :=
  ((List.range 94).findSome? fun k => i.onGrid (93 - k)).getD ⟨0, 0⟩

/-- Decimal digits with a point after the first `whole` of them. -/
def withPoint (digits : List Char) (whole : Nat) : String :=
  let fraction := digits.drop whole
  .ofList (digits.take whole ++ '.' :: (if fraction.isEmpty then ['0'] else fraction))

/-- The text of a positive number: positional from `10 ^ -4` to below `10 ^ 16`,
with at least one digit after the point, and else with an exponent. -/
def text (d : Decimal) : String :=
  let digits := Nat.toDigits 10 d.digits
  let magnitude := digits.length + d.exponent
  if -4 < magnitude ∧ magnitude ≤ 16 then
    if 0 < magnitude then
      withPoint (digits ++ List.replicate (magnitude.toNat - digits.length) '0') magnitude.toNat
    else withPoint ('0' :: List.replicate (-magnitude).toNat '0' ++ digits) 1
  else
    let mantissa := if digits.length = 1 then String.ofList digits else withPoint digits 1
    mantissa ++ "e" ++ toString (magnitude - 1)

end Decimal

def sampleText (x : Sample) : String :=
  let bits := x.toBits.toNat
  let sign := if bits < Nat.pow 2 31 then "" else "-"
  let magnitude := bits % Nat.pow 2 31
  if 0x7F800000 < magnitude then "NaN"
  else if magnitude = 0x7F800000 then sign ++ "inf"
  else if magnitude = 0 then sign ++ "0.0"
  else sign ++ (Decimal.Interval.ofBits magnitude).shortest.text

end Overdub.Audio
