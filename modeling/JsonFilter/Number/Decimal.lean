/-!
Shortest decimals. A binary64 value stands for the whole interval of reals that round to it; this
module finds a decimal with the fewest digits in that interval, and of those the nearest. All
arithmetic is exact, on natural numbers.
-/

namespace JsonFilter

/-- The positive decimal `digits * 10 ^ exponent`. -/
structure Decimal where
  digits : Nat
  exponent : Int
  deriving DecidableEq

namespace Decimal

/-- The digits of a decimal, leading one first. -/
def digitChars (d : Decimal) : List Char := Nat.toDigits 10 d.digits

/-- The power of ten of the leading digit. -/
def leading (d : Decimal) : Int := d.exponent + d.digitChars.length - 1

/-- Which of two equally near neighbours is taken. -/
inductive Tie where
  | up
  | even
  deriving DecidableEq

/-- A positive value with the reals that round to it: `low`, `value` and `high` over one
denominator; the two ends belong to the interval iff `closed`. -/
structure Interval where
  low : Nat
  value : Nat
  high : Nat
  denominator : Nat
  closed : Bool

namespace Interval

/-- The interval of `mantissa * 2 ^ exponent`. Below a power of two the numbers lie twice as
dense, so there the lower end is nearer by half. -/
def ofBinary (mantissa : Nat) (exponent : Int) : Interval :=
  let below := if mantissa = Nat.pow 2 52 ∧ exponent > -1074 then 1 else 2
  let unit := if 2 ≤ exponent then Nat.pow 2 (exponent - 2).toNat else 1
  let denominator := if 2 ≤ exponent then 1 else Nat.pow 2 (2 - exponent).toNat
  ⟨(4 * mantissa - below) * unit, 4 * mantissa * unit, (4 * mantissa + 2) * unit, denominator,
    mantissa % 2 == 0⟩

/-- Whether the interval holds `n * 10 ^ exponent`. -/
def contains (i : Interval) (n : Nat) (exponent : Int) : Bool :=
  let up := if 0 ≤ exponent then Nat.pow 10 exponent.toNat else 1
  let down := if 0 ≤ exponent then 1 else Nat.pow 10 (-exponent).toNat
  let point := n * up * i.denominator
  if i.closed then i.low * down ≤ point && point ≤ i.high * down
  else i.low * down < point && point < i.high * down

/-- The greatest `k` with `10 ^ k` not above the value, near a first guess. -/
def leading (i : Interval) : Int :=
  let reaches (k : Int) : Bool :=
    if 0 ≤ k then Nat.pow 10 k.toNat * i.denominator ≤ i.value
    else i.denominator ≤ i.value * Nat.pow 10 (-k).toNat
  let guess := (((i.value.log2 : Int) - i.denominator.log2) * 30103).fdiv 100000
  if reaches (guess + 1) then guess + 1
  else if reaches guess then guess
  else guess - 1

/-- The nearest point of the grid `n * 10 ^ exponent` that lies in the interval. -/
def nearest? (i : Interval) (tie : Tie) (exponent : Int) : Option Decimal :=
  let up := if 0 ≤ exponent then Nat.pow 10 exponent.toNat else 1
  let down := if 0 ≤ exponent then 1 else Nat.pow 10 (-exponent).toNat
  let value := i.value * down
  let step := i.denominator * up
  let n := value / step
  let rest := value % step
  match i.contains n exponent, i.contains (n + 1) exponent with
  | false, false => none
  | true, false => some ⟨n, exponent⟩
  | false, true => some ⟨n + 1, exponent⟩
  | true, true =>
    if 2 * rest < step then some ⟨n, exponent⟩
    else if step < 2 * rest then some ⟨n + 1, exponent⟩
    else match tie with
      | .up => some ⟨n + 1, exponent⟩
      | .even => some ⟨n + n % 2, exponent⟩

/-- The nearest decimal on the coarsest grid that has one in the interval. The first grid tried has
one digit less than the value, for a value just below a power of ten; seventeen digits suffice. -/
def shortest (i : Interval) (tie : Tie) : Decimal :=
  let first := i.leading + 1
  match (List.range 18).findSome? fun (k : Nat) => i.nearest? tie (first - k) with
  | some d => d
  | none => ⟨i.value / i.denominator, 0⟩

end Interval

end Decimal

end JsonFilter
