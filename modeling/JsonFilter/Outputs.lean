import JsonFilter.Pattern.Store

/-!
Lazy sequences of outputs. An item is a value or a failure, and what follows an item is computed
only when it is asked for. Two more things may stand in place of an item: the need for a pattern,
which is met by whoever pulls the sequence, and the horizon, where counting was cut off. So a
sequence depends on no state, and a longer horizon only replaces cuts by more items.
-/

namespace JsonFilter

/-- A lazy sequence of values of type `α` and failures of type `ε`. -/
inductive Outputs (ε α : Type) where
  /-- Nothing more follows. -/
  | done
  /-- Counting was cut off here. -/
  | unfinished
  | yield (item : Except ε α) (rest : Unit → Outputs ε α)
  /-- The automaton of a pattern is needed to go on. -/
  | request (source : String) (resume : Except Pattern.Error Pattern.Automaton → Outputs ε α)

namespace Outputs

variable {ε ε' α β : Type}

/-- The sequence of one item. -/
def single (item : Except ε α) : Outputs ε α := .yield item fun _ => .done

/-- The sequence of one value. -/
def value (a : α) : Outputs ε α := single (.ok a)

/-- The sequence of one failure. -/
def failure (e : ε) : Outputs ε α := single (.error e)

/-- The sequence of some items. -/
def ofItems : List (Except ε α) → Outputs ε α
  | [] => .done
  | item :: items => .yield item fun _ => ofItems items

/-- The sequence of some values. -/
def ofList : List α → Outputs ε α
  | [] => .done
  | a :: as => .yield (.ok a) fun _ => ofList as

/-- One sequence after another. -/
def append : Outputs ε α → (Unit → Outputs ε α) → Outputs ε α
  | .done, more => more ()
  | .unfinished, _ => .unfinished
  | .yield item rest, more => .yield item fun _ => (rest ()).append more
  | .request source resume, more => .request source fun p => (resume p).append more

/-- A sequence for every value, one after the other; failures stay where they are. -/
def bind : Outputs ε α → (α → Outputs ε β) → Outputs ε β
  | .done, _ => .done
  | .unfinished, _ => .unfinished
  | .yield (.error e) rest, f => .yield (.error e) fun _ => (rest ()).bind f
  | .yield (.ok a) rest, f =>
    match f a with
    | .done => (rest ()).bind f
    | o => o.append fun _ => (rest ()).bind f
  | .request source resume, f => .request source fun p => (resume p).bind f

/-- Every value changed by an operation that may fail. -/
def andThen (o : Outputs ε α) (f : α → Except ε β) : Outputs ε β := o.bind fun a => single (f a)

/-- Every failure changed. -/
def mapError (f : ε → ε') : Outputs ε α → Outputs ε' α
  | .done => .done
  | .unfinished => .unfinished
  | .yield item rest => .yield (item.mapError f) fun _ => (rest ()).mapError f
  | .request source resume => .request source fun p => (resume p).mapError f

/-- The first `n` items; nothing after them is computed. -/
def take (n : Nat) : Outputs ε α → Outputs ε α
  | .done => .done
  | .unfinished => if n = 0 then .done else .unfinished
  | .yield item rest =>
    if n = 0 then .done
    else .yield item fun _ => if n = 1 then .done else (rest ()).take (n - 1)
  | .request source resume =>
    if n = 0 then .done else .request source fun p => (resume p).take n

/-- One output: the list of all values, or the first failure. -/
def collect (taken : List α) : Outputs ε α → Outputs ε (List α)
  | .done => value taken.reverse
  | .unfinished => .unfinished
  | .yield (.ok a) rest => (rest ()).collect (a :: taken)
  | .yield (.error e) _ => failure e
  | .request source resume => .request source fun p => (resume p).collect taken

/-- The values that pass a test; failures are dropped. -/
def keep (p : α → Bool) : Outputs ε α → Outputs ε α
  | .done => .done
  | .unfinished => .unfinished
  | .yield (.ok a) rest =>
    if p a then .yield (.ok a) fun _ => (rest ()).keep p else (rest ()).keep p
  | .yield (.error _) rest => (rest ()).keep p
  | .request source resume => .request source fun q => (resume q).keep p

/-- The values that pass a test, or another sequence if there is none. -/
def keepOr (p : α → Bool) : Outputs ε α → (Unit → Outputs ε α) → Outputs ε α
  | .done, other => other ()
  | .unfinished, _ => .unfinished
  | .yield (.ok a) rest, other =>
    if p a then .yield (.ok a) fun _ => (rest ()).keep p else (rest ()).keepOr p other
  | .yield (.error _) rest, other => (rest ()).keepOr p other
  | .request source resume, other => .request source fun q => (resume q).keepOr p other

/-- The values up to the first failure, then what a handler makes of that failure. -/
def attempt (handler : ε → Outputs ε' α) : Outputs ε α → Outputs ε' α
  | .done => .done
  | .unfinished => .unfinished
  | .yield (.ok a) rest => .yield (.ok a) fun _ => (rest ()).attempt handler
  | .yield (.error e) _ => handler e
  | .request source resume => .request source fun p => (resume p).attempt handler

/-! ## Pulling -/

/-- What a pull finds. -/
inductive Pull (ε α : Type) where
  | finished
  | unfinished
  | item (item : Except ε α) (rest : Unit → Outputs ε α)

/-- Pulls one item, meeting the need for patterns from a store. -/
def pull (store : Pattern.Store) : Outputs ε α → Pull ε α × Pattern.Store
  | .done => (.finished, store)
  | .unfinished => (.unfinished, store)
  | .yield item rest => (.item item rest, store)
  | .request source resume =>
    match store.get source with
    | (pattern, store) => (resume pattern).pull store

end Outputs

end JsonFilter
