/-!
The numbers of the filter language are binary64 values. This module holds their arithmetic and
their order. The order is total: a NaN equals itself there and lies below every other number,
while `==` follows the arithmetic standard, where a NaN differs from itself.
-/

namespace JsonFilter

/-- A number of the filter language: one binary64 value. -/
structure Number where
  toFloat : Float
  deriving DecidableEq

namespace Number

instance : Inhabited Number := ⟨⟨0⟩⟩

/-- The number nearest to an integer. -/
def ofInt (n : Int) : Number := ⟨Float.ofInt n⟩

/-- The number nearest to a count. -/
def ofNat (n : Nat) : Number := ofInt n

instance (n : Nat) : OfNat Number n := ⟨ofNat n⟩

/-- The number with the given bits. -/
def ofBits (bits : UInt64) : Number := ⟨Float.ofBits bits⟩

/-- The number that no comparison of the arithmetic standard accepts. -/
def nan : Number := ofBits 0x7ff8000000000000

/-- The bits of a number: the sign, eleven bits of exponent and 52 bits of mantissa. -/
def bits (x : Number) : UInt64 := x.toFloat.toBits

def isNaN (x : Number) : Bool := x.toFloat.isNaN

def isInfinite (x : Number) : Bool := x.toFloat.isInf

def isFinite (x : Number) : Bool := x.toFloat.isFinite

/-- Whether a number is zero, of either sign. -/
def isZero (x : Number) : Bool := x.toFloat == 0

def abs (x : Number) : Number := ⟨x.toFloat.abs⟩

def neg (x : Number) : Number := ⟨-x.toFloat⟩

def add (x y : Number) : Number := ⟨x.toFloat + y.toFloat⟩

def sub (x y : Number) : Number := ⟨x.toFloat - y.toFloat⟩

def mul (x y : Number) : Number := ⟨x.toFloat * y.toFloat⟩

def div (x y : Number) : Number := ⟨x.toFloat / y.toFloat⟩

instance : Neg Number := ⟨neg⟩
instance : Add Number := ⟨add⟩
instance : Sub Number := ⟨sub⟩
instance : Mul Number := ⟨mul⟩
instance : Div Number := ⟨div⟩

/-- Equality of the arithmetic standard: the two zeros are equal, a NaN equals nothing. -/
instance : BEq Number := ⟨fun x y => x.toFloat == y.toFloat⟩

/-- The total order of numbers: a NaN equals itself and is below all others. -/
def cmp (x y : Number) : Ordering :=
  match x.isNaN, y.isNaN with
  | true, true => .eq
  | true, false => .lt
  | false, true => .gt
  | false, false =>
    if x.toFloat < y.toFloat then .lt
    else if y.toFloat < x.toFloat then .gt
    else .eq

instance : Ord Number := ⟨cmp⟩

end Number

end JsonFilter
