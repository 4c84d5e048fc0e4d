import JsonFilter.Pattern.Automaton

/-!
A store of the automata of patterns that were read before, by their sources. It starts over once
it is full, and it never changes what a source means.
-/

namespace JsonFilter.Pattern

/-- How many automata a store holds. -/
def Store.capacity : Nat := 512

/-- Automata by the sources of their patterns. -/
structure Store where
  entries : List (String × Automaton)

namespace Store

def empty : Store := ⟨[]⟩

def size (store : Store) : Nat := store.entries.length

/-- The automaton of a source, if it was made before. -/
def find? (store : Store) (source : String) : Option Automaton := store.entries.lookup source

/-- Keeps an automaton; a full store is emptied first. -/
def insert (store : Store) (source : String) (automaton : Automaton) : Store :=
  if capacity ≤ store.size then ⟨[(source, automaton)]⟩
  else ⟨(source, automaton) :: store.entries⟩

/-- The automaton of a source and the store afterwards; a source that is no pattern is not kept. -/
def get (store : Store) (source : String) : Except Error Automaton × Store :=
  match store.find? source with
  | some automaton => (.ok automaton, store)
  | none =>
    match compile source with
    | .ok automaton => (.ok automaton, store.insert source automaton)
    | .error e => (.error e, store)

end Store

end JsonFilter.Pattern
