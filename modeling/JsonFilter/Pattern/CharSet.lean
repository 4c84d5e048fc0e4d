/-!
Sets of characters as ranges of code points. The sets made here have their ranges in ascending
order, with a gap between any two.
-/

namespace JsonFilter

/-- Sets of characters as inclusive ranges of code points. -/
abbrev CharSet := List (Nat × Nat)

namespace CharSet

def contains (set : CharSet) (c : Char) : Bool :=
  set.any fun r => r.1 ≤ c.toNat && c.toNat ≤ r.2

/-- The last code point. -/
def top : Nat := 0x10ffff

/-- Adds a range to ranges that begin no earlier; it takes up those that it touches. -/
def join (r : Nat × Nat) : CharSet → CharSet
  | [] => [r]
  | s :: rest => if s.1 ≤ r.2 + 1 then join (r.1, max r.2 s.2) rest else r :: s :: rest

/-- The set of the characters in some ranges. -/
def ofRanges (ranges : List (Nat × Nat)) : CharSet :=
  (ranges.mergeSort fun a b => decide (a.1 ≤ b.1)).foldr join []

/-- The gaps between ordered ranges from a code point on. -/
def gaps (next : Nat) : CharSet → CharSet
  | [] => if next ≤ top then [(next, top)] else []
  | (low, high) :: rest =>
    if next < low then (next, low - 1) :: gaps (high + 1) rest else gaps (high + 1) rest

/-- All characters that are not in a set. -/
def complement (set : CharSet) : CharSet := gaps 0 set

/-- The other case of the ASCII letters in a range: of its small letters if it has some, else of
its capitals. -/
def otherCase? (r : Nat × Nat) : Option (Nat × Nat) :=
  if max 0x61 r.1 ≤ min 0x7a r.2 then some (max 0x61 r.1 - 32, min 0x7a r.2 - 32)
  else if max 0x41 r.1 ≤ min 0x5a r.2 then some (max 0x41 r.1 + 32, min 0x5a r.2 + 32)
  else none

/-- A set with the other case of the letters in each of its ranges. -/
def fold (set : CharSet) : CharSet := ofRanges (set ++ set.filterMap otherCase?)

end CharSet

end JsonFilter
