import JsonFilter.Pattern.Parser

/-!
Automata for patterns. An automaton is a graph of numbered nodes, made from the end of the pattern
to its start, so that each part is made when the node after it is known. Only a loop needs its own
number before it is complete. Counted repetitions are written out.
-/

namespace JsonFilter.Pattern

/-- A node of an automaton, with the numbers of the nodes after it. -/
inductive Node where
  /-- The pattern has been matched. -/
  | accept
  /-- One character of a set is taken. -/
  | step (set : CharSet) (next : Nat)
  /-- A condition must hold. -/
  | look (l : Look) (next : Nat)
  /-- Several ways lead on. -/
  | fork (nexts : List Nat)

/-- A graph of nodes and the number of the node to begin with. -/
structure Automaton where
  nodes : Array Node
  start : Nat

namespace Automaton

/-- Adds a node. -/
def push (node : Node) (nodes : Array Node) : Nat × Array Node := (nodes.size, nodes.push node)

/-- Adds a part some number of times in a row. -/
def copies (add : Nat → Array Node → Nat × Array Node) :
    Nat → Nat → Array Node → Nat × Array Node
  | 0, next, nodes => (next, nodes)
  | n + 1, next, nodes =>
    let (start, nodes) := add next nodes
    copies add n start nodes

/-- Adds a part some number of times in a row, before each of which a way leads to the exit. -/
def options (add : Nat → Array Node → Nat × Array Node) (exit : Nat) :
    Nat → Nat → Array Node → Nat × Array Node
  | 0, next, nodes => (next, nodes)
  | n + 1, next, nodes =>
    let (start, nodes) := add next nodes
    let (fork, nodes) := push (.fork [start, exit]) nodes
    options add exit n fork nodes

/-- Adds a part with a way back from its end; the numbers of the part and of the fork after it. -/
def loop (add : Nat → Array Node → Nat × Array Node) (next : Nat) (nodes : Array Node) :
    (Nat × Nat) × Array Node :=
  let (fork, nodes) := push (.fork [next]) nodes
  let (start, nodes) := add fork nodes
  ((start, fork), nodes.setIfInBounds fork (.fork [start, next]))

/-- Adds a part as often as a repetition says. -/
def repetition (add : Nat → Array Node → Nat × Array Node) (min : Nat) (max : Option Nat)
    (next : Nat) (nodes : Array Node) : Nat × Array Node :=
  match max with
  | some max =>
    let (start, nodes) := options add next (max - min) next nodes
    copies add min start nodes
  | none =>
    let ((start, fork), nodes) := loop add next nodes
    match min with
    | 0 => (fork, nodes)
    | n + 1 => copies add n start nodes

mutual

/-- Adds the nodes of a pattern before a node; the number of the first. -/
def add : Pattern → Nat → Array Node → Nat × Array Node
  | .empty, next, nodes => (next, nodes)
  | .char c, next, nodes => push (.step [span c c] next) nodes
  | .oneOf set, next, nodes => push (.step set next) nodes
  | .look l, next, nodes => push (.look l next) nodes
  | .repetition min max sub, next, nodes => repetition (add sub) min max next nodes
  | .group _ _ sub, next, nodes => add sub next nodes
  | .concat parts, next, nodes => addRow parts next nodes
  | .alternation parts, next, nodes =>
    let (starts, nodes) := addWays parts next nodes
    push (.fork starts) nodes

/-- Adds patterns in a row. -/
def addRow : List Pattern → Nat → Array Node → Nat × Array Node
  | [], next, nodes => (next, nodes)
  | p :: ps, next, nodes =>
    let (start, nodes) := addRow ps next nodes
    add p start nodes

/-- Adds patterns side by side; the numbers of their first nodes. -/
def addWays : List Pattern → Nat → Array Node → List Nat × Array Node
  | [], _, nodes => ([], nodes)
  | p :: ps, next, nodes =>
    let (start, nodes) := add p next nodes
    let (starts, nodes) := addWays ps next nodes
    (start :: starts, nodes)

end

/-- The automaton of a pattern. -/
def ofPattern (p : Pattern) : Automaton :=
  let (final, nodes) := push .accept #[]
  let (start, nodes) := add p final nodes
  ⟨nodes, start⟩

end Automaton

/-- The automaton of the pattern that a text stands for. -/
def compile (source : String) : Except Error Automaton := do
  let p ← parse source
  return .ofPattern p

end JsonFilter.Pattern
