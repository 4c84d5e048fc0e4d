import JsonFilter.Pattern.CharSet

/-!
Patterns: regular expressions over characters. Letters are folded and flags are applied when a
pattern is read, so a pattern stands for a set of texts by itself. Groups are kept because they
count for the nesting and for the size of a pattern, not because anything is captured.
-/

namespace JsonFilter

namespace Pattern

/-- Conditions on a place between two characters. -/
inductive Look where
  | start
  | finish
  | lineStart
  | lineEnd
  | lineStartAny
  | lineEndAny
  | word
  | notWord
  | wordStart
  | wordEnd
  | wordStartHalf
  | wordEndHalf
  deriving DecidableEq

end Pattern

/-- A regular expression. -/
inductive Pattern where
  | empty
  /-- one given character -/
  | char (c : Char)
  /-- one character of a set -/
  | oneOf (set : CharSet)
  | look (l : Pattern.Look)
  /-- `sub` from `min` to `max` times, without end if there is no `max` -/
  | repetition (min : Nat) (max : Option Nat) (sub : Pattern)
  /-- `sub` as the group of a number, with or without a name -/
  | group (number : Nat) (name : Option String) (sub : Pattern)
  | concat (parts : List Pattern)
  | alternation (parts : List Pattern)

namespace Pattern

/-- Patterns in a row; one alone is itself. -/
def row : List Pattern → Pattern
  | [] => .empty
  | [p] => p
  | ps => .concat ps

/-- A choice of patterns; one alone is itself. -/
def choice : List Pattern → Pattern
  | [p] => p
  | ps => .alternation ps

/-- A repetition; none at all is empty, and exactly one is the pattern itself. -/
def repeated (min : Nat) (max : Option Nat) (sub : Pattern) : Pattern :=
  match min, max with
  | 0, some 0 => .empty
  | 1, some 1 => sub
  | min, max => .repetition min max sub

mutual

/-- Whether a pattern nests at most `levels` deep. -/
def nestsWithin (levels : Nat) : Pattern → Bool
  | .repetition _ _ sub => levels != 0 && sub.nestsWithin (levels - 1)
  | .group _ _ sub => levels != 0 && sub.nestsWithin (levels - 1)
  | .concat parts => allNestWithin levels parts
  | .alternation parts => allNestWithin levels parts
  | _ => true

/-- Whether the parts of a pattern nest at most one level less. -/
def allNestWithin (levels : Nat) : List Pattern → Bool
  | [] => true
  | p :: ps => levels != 0 && p.nestsWithin (levels - 1) && allNestWithin levels ps

end

mutual

/-- Whether a pattern can match without taking a character. -/
def isNullable : Pattern → Bool
  | .empty => true
  | .char _ => false
  | .oneOf _ => false
  | .look _ => true
  | .repetition min _ sub => min == 0 || sub.isNullable
  | .group _ _ sub => sub.isNullable
  | .concat parts => allNullable parts
  | .alternation parts => anyNullable parts

def allNullable : List Pattern → Bool
  | [] => true
  | p :: ps => p.isNullable && allNullable ps

def anyNullable : List Pattern → Bool
  | [] => false
  | p :: ps => p.isNullable || anyNullable ps

end

/-! ## Size

A pattern is charged for an automaton in which each of its parts has a state of its own and counted
repetitions are written out: 32 bytes per state, eight per range and four per branch. Its groups
are charged once, however often they are repeated: 16 bytes for each number, and for a name its
bytes and four more. -/

/-- The charge for one state. -/
def stateCost : Nat := 32

/-- The charge for a state with two ways on. -/
def forkCost : Nat := stateCost + 8

mutual

/-- The charge for the states of a pattern. -/
def cost : Pattern → Nat
  | .empty => stateCost
  | .char _ => stateCost
  | .oneOf set => stateCost + 8 * set.length
  | .look _ => stateCost
  | .repetition min max sub =>
    let one := sub.cost
    match max with
    | none =>
      if min = 0 then if sub.isNullable then one + 2 * forkCost + stateCost else one + forkCost
      else min * one + forkCost
    | some max =>
      if min = 0 ∧ max = 1 then one + forkCost + stateCost
      else if min = max then (if min = 0 then stateCost else min * one)
      else (if min = 0 then stateCost else min * one) + stateCost +
        (max - min) * (one + forkCost)
  | .group _ _ sub => sub.cost + 2 * stateCost
  | .concat parts => costs parts
  | .alternation parts => costs parts + 2 * stateCost + 4 * parts.length

/-- The charges for the states of some patterns together. -/
def costs : List Pattern → Nat
  | [] => 0
  | p :: ps => p.cost + costs ps

end

mutual

/-- The numbers and names of the groups in a pattern. -/
def groups : Pattern → List (Nat × Option String)
  | .group number name sub => (number, name) :: sub.groups
  | .repetition _ _ sub => sub.groups
  | .concat parts => allGroups parts
  | .alternation parts => allGroups parts
  | _ => []

/-- The groups in some patterns. -/
def allGroups : List Pattern → List (Nat × Option String)
  | [] => []
  | p :: ps => p.groups ++ allGroups ps

end

/-- The charge for the table of groups, in which the numbers go up to the last one in use. -/
def tableCost (groups : List (Nat × Option String)) : Nat :=
  16 * (groups.foldl (fun last g => max last g.1) 0 + 1) +
    (groups.filterMap (·.2)).foldl (fun sum name => sum + name.utf8ByteSize + 4) 0

/-- The highest charge that is allowed. -/
def costLimit : Nat := 10 * Nat.pow 2 20

/-- Whether a pattern is small enough to be used; the whole of it counts as group 0, and the end of
a match is a state. -/
def isAffordable (p : Pattern) : Bool :=
  (Pattern.group 0 none p).cost + stateCost + tableCost p.groups ≤ costLimit

end Pattern

end JsonFilter
