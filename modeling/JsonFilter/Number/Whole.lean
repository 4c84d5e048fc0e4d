import JsonFilter.Number.Basic

/-!
Numbers as exact fractions of two, and their rounding to integers. A finite number is
`± mantissa * 2 ^ exponent`, so every rounding here is integer arithmetic on its bits.
-/

namespace JsonFilter

/-- The exact value `± mantissa * 2 ^ exponent`. -/
structure Dyadic where
  negative : Bool
  mantissa : Nat
  exponent : Int
  deriving DecidableEq

namespace Dyadic

/-- The mantissa with its sign. -/
def signed (d : Dyadic) : Int := if d.negative then -(d.mantissa : Int) else d.mantissa

/-- The greatest integer not above the value. -/
def floor (d : Dyadic) : Int :=
  if 0 ≤ d.exponent then d.signed * Nat.pow 2 d.exponent.toNat
  else d.signed.fdiv (Nat.pow 2 (-d.exponent).toNat)

/-- The least integer not below the value. -/
def ceil (d : Dyadic) : Int :=
  if 0 ≤ d.exponent then d.signed * Nat.pow 2 d.exponent.toNat
  else -((-d.signed).fdiv (Nat.pow 2 (-d.exponent).toNat))

/-- The value without its fraction. -/
def trunc (d : Dyadic) : Int :=
  if 0 ≤ d.exponent then d.signed * Nat.pow 2 d.exponent.toNat
  else d.signed.tdiv (Nat.pow 2 (-d.exponent).toNat)

/-- Whether the value has no fraction. -/
def isWhole (d : Dyadic) : Bool :=
  decide (0 ≤ d.exponent) || decide (d.mantissa % Nat.pow 2 (-d.exponent).toNat = 0)

end Dyadic

/-- A number after rounding to an integer: `none` of the integers for a NaN and the infinities. -/
inductive Whole where
  | undefined
  | below
  | above
  | exact (n : Int)
  deriving DecidableEq

namespace Number

/-- Every integer of at most this size is a number. -/
def maxSafe : Nat := Nat.pow 2 53

/-- The exact value of a finite number. -/
def dyadic? (x : Number) : Option Dyadic :=
  let n := x.bits.toNat
  let exponent : Nat := n / Nat.pow 2 52 % Nat.pow 2 11
  let fraction : Nat := n % Nat.pow 2 52
  let negative := n / Nat.pow 2 63 == 1
  if exponent = 2047 then none
  else if exponent = 0 then some ⟨negative, fraction, -1074⟩
  else some ⟨negative, fraction + Nat.pow 2 52, (exponent : Int) - 1075⟩

/-- Rounds a number by a rule for finite values. -/
def roundBy (rule : Dyadic → Int) (x : Number) : Whole :=
  match x.dyadic? with
  | some d => .exact (rule d)
  | none => if x.isNaN then .undefined else if x.toFloat < 0 then .below else .above

def floor (x : Number) : Whole := x.roundBy Dyadic.floor

def ceil (x : Number) : Whole := x.roundBy Dyadic.ceil

/-- The least 64-bit signed integer. -/
def minInt : Int := -Nat.pow 2 63

/-- The greatest 64-bit signed integer. -/
def maxInt : Int := Nat.pow 2 63 - 1

/-- The integer part of a number as a 64-bit signed integer: a NaN counts as zero, and values
beyond the range count as its ends. -/
def toInt (x : Number) : Int :=
  match x.roundBy Dyadic.trunc with
  | .undefined => 0
  | .below => minInt
  | .above => maxInt
  | .exact n => max minInt (min maxInt n)

/-- Whether a number is finite and has no fraction. -/
def isInt (x : Number) : Bool :=
  match x.dyadic? with
  | some d => d.isWhole
  | none => false

/-- The integer that a number is, if its size is at most `maxSafe`. -/
def safeInt? (x : Number) : Option Int :=
  match x.dyadic? with
  | some d => if d.isWhole && d.trunc.natAbs ≤ maxSafe then some d.trunc else none
  | none => none

def isSafeInt (x : Number) : Bool := x.safeInt?.isSome

/-- The remainder of the integer parts, with the sign of the first; zero for a zero divisor. -/
def rem (x y : Number) : Number :=
  if y.toInt = 0 then 0 else ofInt (x.toInt.tmod y.toInt)

instance : Mod Number := ⟨rem⟩

end Number

end JsonFilter
