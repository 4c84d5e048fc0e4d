import JsonFilter.Number.Decimal
import JsonFilter.Number.Whole

/-!
The text of a number. A layout fixes what is a matter of taste: where positional writing ends,
whether a whole number shows a fraction, and how the values without digits are written. Integers
of safe size are written as integers in every layout.
-/

namespace JsonFilter.Number

/-- How numbers other than safe integers are written. -/
structure Layout where
  tie : Decimal.Tie
  /-- Whether a number with this power of ten at its leading digit is written without one. -/
  positional : Int → Bool
  /-- What follows the digits of a whole number. -/
  wholeMark : String
  /-- The text of the largest finite number, which stands for the infinite one. -/
  infinite : String

/-- JSON text: positional from a hundred-thousandth to sixteen digits, with `.0` after a whole
number, and otherwise a signed exponent. -/
def Layout.json : Layout where
  tie := .even
  positional e := -5 ≤ e && e < 16
  wholeMark := ".0"
  infinite := "1.7976931348623157e+308"

/-- Plain text: always positional. -/
def Layout.plain : Layout where
  tie := .up
  positional _ := true
  wholeMark := ""
  infinite := "1.7976931348623157e308"

namespace Layout

/-- Digits written positionally, the first one at the power of ten `leading`. -/
def fixed (layout : Layout) (digits : List Char) (leading : Int) : String :=
  if leading < 0 then
    "0." ++ String.ofList (List.replicate (-leading - 1).toNat '0' ++ digits)
  else
    let whole := leading.toNat + 1
    if digits.length ≤ whole then
      String.ofList (digits ++ List.replicate (whole - digits.length) '0') ++ layout.wholeMark
    else
      String.ofList (digits.take whole) ++ "." ++ String.ofList (digits.drop whole)

/-- Digits written with a power of ten: one before the point, the others after it. -/
def scientific (digits : List Char) (leading : Int) : String :=
  let fraction := if digits.length ≤ 1 then "" else "." ++ String.ofList (digits.drop 1)
  let sign := if leading < 0 then "e-" else "e+"
  String.ofList (digits.take 1) ++ fraction ++ sign ++ toString leading.natAbs

/-- The text of a decimal. -/
def decimal (layout : Layout) (d : Decimal) : String :=
  if layout.positional d.leading then layout.fixed d.digitChars d.leading
  else scientific d.digitChars d.leading

/-- The text of a number: integers of safe size as such, a NaN as `null`, an infinity as the
largest finite number of its sign, all others by their shortest decimal. -/
def text (layout : Layout) (x : Number) : String :=
  match x.safeInt?, x.dyadic? with
  | some n, _ => toString n
  | none, none =>
    if x.isNaN then "null"
    else (if x.toFloat < 0 then "-" else "") ++ layout.infinite
  | none, some d =>
    (if d.negative then "-" else "") ++
      layout.decimal ((Decimal.Interval.ofBinary d.mantissa d.exponent).shortest layout.tie)

end Layout

/-- The JSON text of a number. -/
def json (x : Number) : String := Layout.json.text x

/-- The plain text of a number. -/
def plain (x : Number) : String := Layout.plain.text x

end JsonFilter.Number
