import JsonFilter.Number.Basic

/-!
Reading decimal numerals. A numeral is kept as its digits and its power of ten, and its value is
the nearest number, so no digit is ever dropped before rounding.
-/

namespace JsonFilter

/-- A decimal numeral: `± whole.fraction * 10 ^ exponent`. -/
structure Numeral where
  negative : Bool
  whole : List Char
  fraction : List Char
  exponent : Int
  deriving DecidableEq

namespace Numeral

/-- The natural number that a list of decimal digits denotes. -/
def digitsValue (digits : List Char) : Nat :=
  digits.foldl (fun n c => 10 * n + (c.toNat - '0'.toNat)) 0

/-- The number nearest to the numeral, infinite beyond the largest one. -/
def value (n : Numeral) : Number :=
  let mantissa := digitsValue (n.whole ++ n.fraction)
  let exponent := n.exponent - n.fraction.length
  let size : Number := ⟨Float.ofScientific mantissa (decide (exponent < 0)) exponent.natAbs⟩
  if n.negative then -size else size

/-- Splits an optional sign off; the flag says whether it is a minus. -/
def scanSign : List Char → Bool × List Char
  | '-' :: rest => (true, rest)
  | '+' :: rest => (false, rest)
  | s => (false, s)

/-- Splits a point and the digits after it off. -/
def scanFraction : List Char → List Char × List Char
  | '.' :: rest => (rest.takeWhile Char.isDigit, rest.dropWhile Char.isDigit)
  | s => ([], s)

/-- Splits a power of ten off; a letter `e` without digits belongs to the rest. -/
def scanExponent : List Char → Int × List Char
  | [] => (0, [])
  | c :: rest =>
    if c = 'e' ∨ c = 'E' then
      let (negative, digits) := scanSign rest
      if (digits.takeWhile Char.isDigit).isEmpty then (0, c :: rest)
      else
        let size : Int := digitsValue (digits.takeWhile Char.isDigit)
        (if negative then -size else size, digits.dropWhile Char.isDigit)
    else (0, c :: rest)

/-- Splits digits, a fraction and a power of ten off, all of them optional. -/
def scan (s : List Char) : Numeral × List Char :=
  let (fraction, afterFraction) := scanFraction (s.dropWhile Char.isDigit)
  let (exponent, rest) := scanExponent afterFraction
  (⟨false, s.takeWhile Char.isDigit, fraction, exponent⟩, rest)

/-- Why a text is not a number. -/
inductive Error where
  | empty
  | invalid
  deriving DecidableEq

def Error.message : Error → String
  | .empty => "cannot parse float from empty string"
  | .invalid => "invalid float literal"

/-- The size that a text without its sign denotes: a name of the infinite or the undefined value in
letters of either case, or a numeral with at least one digit. -/
def size? (s : List Char) : Option Number :=
  let name := String.ofList (s.map Char.toLower)
  if name = "inf" ∨ name = "infinity" then some (.ofBits 0x7ff0000000000000)
  else if name = "nan" then some .nan
  else
    let (numeral, rest) := scan s
    if rest.isEmpty && !(numeral.whole ++ numeral.fraction).isEmpty then some numeral.value
    else none

end Numeral

/-- Reads a whole text as a number with an optional sign. -/
def Number.ofText (text : String) : Except Numeral.Error Number :=
  if text.isEmpty then .error .empty
  else
    let (negative, rest) := Numeral.scanSign text.toList
    match Numeral.size? rest with
    | some x => .ok (if negative then -x else x)
    | none => .error .invalid

end JsonFilter
