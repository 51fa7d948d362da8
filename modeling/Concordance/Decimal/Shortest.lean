/-!
# Shortest decimals of binary64 numbers

A binary64 number stands for the interval of reals that round to it. The
decimal written for it is the point of the coarsest grid of powers of ten that
has a point in this interval, and on that grid the point nearest to the number.
It is written without an exponent.

The search is exact arithmetic on naturals: a number, its interval and the grid
points are all compared as multiples of one common unit.
-/
namespace Concordance.Decimal

/-- A nonnegative number `quarters · 2^scale`, and its rounding interval in the same unit. -/
structure Interval where
  low : Nat
  value : Nat
  high : Nat
  scale : Int
  /-- Whether the two ends round to the number as well. -/
  closed : Bool

/-- The number `digits · 10^exponent`. -/
structure Numeral where
  digits : Nat
  exponent : Int
deriving DecidableEq

/-- The interval of a positive finite number, from its exponent and fraction fields. -/
def Interval.ofFields (exponent fraction : Nat) : Interval :=
  let significand := if exponent = 0 then fraction else fraction + Nat.pow 2 52
  let below := if fraction = 0 && 1 < exponent then 1 else 2
  { low := 4 * significand - below
    value := 4 * significand
    high := 4 * significand + 2
    scale := (max exponent 1 : Nat) - 1077
    closed := significand % 2 == 0 }

/-- Factors that turn units of the interval and steps of the grid `10^exponent` into a common
unit. -/
def commonUnit (scale exponent : Int) : Nat × Nat :=
  (Nat.pow 2 scale.toNat * Nat.pow 10 (-exponent).toNat,
    Nat.pow 2 (-scale).toNat * Nat.pow 10 exponent.toNat)

/-- Whether a point, in the common unit, rounds to the number. -/
def Interval.admits (i : Interval) (unit point : Nat) : Bool :=
  if i.closed then i.low * unit ≤ point && point ≤ i.high * unit
  else i.low * unit < point && point < i.high * unit

/-- The grid point nearest to the number among its two neighbours on the grid that round to it.
Of two that are equally near the upper one is taken. -/
def Interval.onGrid? (i : Interval) (exponent : Int) : Option Numeral :=
  let (unit, step) := commonUnit i.scale exponent
  let value := i.value * unit
  let floor := value / step
  let down := i.admits unit (floor * step)
  let up := i.admits unit ((floor + 1) * step)
  let upper := up && (!down || step ≤ 2 * (value - floor * step))
  if upper then some ⟨floor + 1, exponent⟩
  else if down then some ⟨floor, exponent⟩
  else none

/-- Tries the grids from `10^exponent` downwards. -/
def Interval.search (i : Interval) : (count : Nat) → (exponent : Int) → Numeral
  | 0, exponent => ⟨0, exponent⟩
  | count + 1, exponent =>
    match i.onGrid? exponent with
    | some d => d
    | none => i.search count (exponent - 1)

/-- The shortest decimal of a positive finite number. No grid beyond `10^309` or `10^-324` is
needed. -/
def Interval.shortest (i : Interval) : Numeral :=
  i.search 634 309

/-- A decimal without an exponent: zeros are written out, and a point stands only before a
fraction. -/
def Numeral.positional (d : Numeral) : String :=
  let digits := Nat.toDigits 10 d.digits
  let places := (-d.exponent).toNat
  let whole := digits.length - places
  if d.exponent ≥ 0 then String.ofList (digits ++ List.replicate d.exponent.toNat '0')
  else if places < digits.length then
    String.ofList (digits.take whole ++ '.' :: digits.drop whole)
  else String.ofList ('0' :: '.' :: (List.replicate (places - digits.length) '0' ++ digits))

/-- The text of a binary64 number, given by its bits. -/
def ofBits (bits : UInt64) : String :=
  let exponent := (bits.toNat / Nat.pow 2 52) % Nat.pow 2 11
  let fraction := bits.toNat % Nat.pow 2 52
  let sign := if bits.toNat / Nat.pow 2 63 = 1 then "-" else ""
  if exponent = 2047 then if fraction = 0 then sign ++ "inf" else "NaN"
  else if exponent = 0 && fraction = 0 then sign ++ "0"
  else sign ++ (Interval.ofFields exponent fraction).shortest.positional

-- The tenth is not a binary64 number; the nearest one is still written as the tenth.
example : ofBits 0x3fb999999999999a = "0.1" := by decide +kernel

-- Whole numbers have no point.
example : ofBits 0xc059000000000000 = "-100" := by decide +kernel

-- A zero keeps its sign, a NaN does not.
example : ofBits 0x8000000000000000 = "-0" := by decide +kernel
example : ofBits 0xfff8000000000000 = "NaN" := by decide +kernel

end Concordance.Decimal
