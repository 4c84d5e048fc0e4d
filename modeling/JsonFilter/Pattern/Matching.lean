import JsonFilter.Pattern.Automaton

/-!
Matching. An automaton goes through a text character by character with all nodes that it can be at,
and a match may begin at any place. A node is entered once at a place, so the work is bounded by
the number of nodes times the length of the text, whatever the pattern.
-/

namespace JsonFilter.Pattern

/-- Whether a character belongs to a word. -/
def isWordChar (c : Char) : Bool := c.isAlphanum || c == '_'

/-- Whether a condition holds between two characters, either of which may be missing. -/
def Look.holds (l : Look) (before after : Option Char) : Bool :=
  let wordBefore := before.any isWordChar
  let wordAfter := after.any isWordChar
  match l with
  | .start => before.isNone
  | .finish => after.isNone
  | .lineStart => before.all (· == '\n')
  | .lineEnd => after.all (· == '\n')
  | .lineStartAny => before.all fun c => c == '\n' || (c == '\r' && after != some '\n')
  | .lineEndAny => after.all fun c => c == '\r' || (c == '\n' && before != some '\r')
  | .word => wordBefore != wordAfter
  | .notWord => wordBefore == wordAfter
  | .wordStart => !wordBefore && wordAfter
  | .wordEnd => wordBefore && !wordAfter
  | .wordStartHalf => !wordBefore
  | .wordEndHalf => !wordAfter

namespace Automaton

/-- Entering a node leaves fewer nodes that were not entered at a place. -/
theorem countP_set_lt {seen : Array Nat} {id place : Nat} (h : id < seen.size)
    (hs : seen[id] ≠ place) :
    (seen.set id place).countP (· != place) < seen.countP (· != place) := by
  have hp : (seen[id] != place) = true := bne_iff_ne.mpr hs
  have h₁ : 0 < seen.countP (· != place) :=
    Array.countP_pos_iff.mpr ⟨seen[id], Array.getElem_mem h, hp⟩
  rw [Array.countP_set h, if_pos hp, if_neg (by simp)]
  omega

/-- A node that waits for a character: the set it takes, and the node after it. -/
abbrev Waiting := CharSet × Nat

/-- Enters nodes at a place and goes on over forks and conditions. `seen` holds for each node the
place at which it was last entered, and `waiting` collects the nodes that wait for a character.
There is no result if the pattern has been matched. -/
def enter (a : Automaton) (holds : Look → Bool) (place : Nat) (work : List Nat)
    (seen : Array Nat) (waiting : List Waiting) : Option (Array Nat × List Waiting) :=
  match work with
  | [] => some (seen, waiting)
  | id :: rest =>
    if h : id < seen.size then
      if hs : seen[id] = place then a.enter holds place rest seen waiting
      else
        have := countP_set_lt h hs
        match a.nodes[id]? with
        | some .accept => none
        | some (.step set next) =>
          a.enter holds place rest (seen.set id place) ((set, next) :: waiting)
        | some (.look l next) =>
          a.enter holds place (if holds l then next :: rest else rest) (seen.set id place) waiting
        | some (.fork nexts) => a.enter holds place (nexts ++ rest) (seen.set id place) waiting
        | none => a.enter holds place rest seen waiting
    else a.enter holds place rest seen waiting
termination_by (seen.countP (· != place), work.length)

/-- Searches a text for a match; `arrived` are the nodes to which characters before have led. -/
def search (a : Automaton) (before : Option Char) (place : Nat) (arrived : List Nat)
    (seen : Array Nat) : List Char → Bool
  | [] => (a.enter (·.holds before none) place (a.start :: arrived) seen []).isNone
  | c :: cs =>
    match a.enter (·.holds before (some c)) place (a.start :: arrived) seen [] with
    | none => true
    | some (seen, waiting) =>
      let next := waiting.filterMap fun w => if w.1.contains c then some w.2 else none
      a.search (some c) (place + 1) next seen cs

/-- Whether some part of a text matches. -/
def isMatch (a : Automaton) (text : String) : Bool :=
  a.search none 1 [] (Array.replicate a.nodes.size 0) text.toList

end Automaton

end JsonFilter.Pattern
