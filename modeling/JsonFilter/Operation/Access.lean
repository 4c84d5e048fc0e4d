import JsonFilter.Fault
import JsonFilter.Number.Whole

/-!
Reaching into values: one item by its key or place, a stretch of items, or all of them. Places
count from zero, and below zero from the end.
-/

namespace JsonFilter.Value

/-- The place that a number names among `length` items: its floor, counted from the end if it is
negative. A NaN names the first place. -/
def place? (length : Nat) (n : Number) : Option Nat :=
  match n.floor with
  | .undefined => some 0
  | .below => none
  | .above => none
  | .exact i =>
    let i := if i < 0 then i + length else i
    if i < 0 then none else some i.toNat

/-- The item of an array at a number; `null` where there is none. -/
def itemAt (items : List Value) (n : Number) : Value :=
  ((place? items.length n).bind (items[·]?)).getD .null

/-- The part of a value at a key. -/
def index : Value → Value → Except Fault Value
  | .object fields, .string key => .ok ((Fields.get? key fields).getD .null)
  | .array items, .number n => .ok (itemAt items n)
  | .null, .string _ => .ok .null
  | .null, .number _ => .ok .null
  | .null, .null => .ok .null
  | target, key => .error (.cannotIndex target key)

/-! ## Stretches -/

/-- A bound of a stretch: a number, or `null` for an open end. -/
def bound? : Value → Except Fault (Option Number)
  | .null => .ok none
  | .number n => .ok (some n)
  | _ => .error (.misuse .sliceNotNumber)

/-- The place between `length` items that a rounded bound means, counted from the end if it is
negative and moved into range. -/
def clamp (length : Nat) : Whole → Nat
  | .undefined => 0
  | .below => 0
  | .above => length
  | .exact i => min length (if i < 0 then i + length else i).toNat

/-- Where a stretch begins and how many items it has. The lower bound is rounded down and the upper
one up. -/
def stretch (length : Nat) (low high : Option Number) : Nat × Nat :=
  let first := match low with
    | some n => clamp length n.floor
    | none => 0
  let past := match high with
    | some n => clamp length n.ceil
    | none => length
  (first, past - first)

/-- The stretch of a list between two bounds. -/
def sliceList {α : Type} (items : List α) (low high : Option Number) : List α :=
  let (first, count) := stretch items.length low high
  (items.drop first).take count

/-- The stretch of an array or a string between two bounds. -/
def slice (target low high : Value) : Except Fault Value := do
  let low ← bound? low
  let high ← bound? high
  match target with
  | .null => return .null
  | .array items => return .array (sliceList items low high)
  | .string s => return .string (String.ofList (sliceList s.toList low high))
  | v => throw (.cannotSlice v)

/-! ## All items -/

/-- The items of an array, or the values of an object. -/
def items : Value → Except Fault (List Value)
  | .array items => .ok items
  | .object fields => .ok (Fields.values fields)
  | v => .error (.cannotIterate v)

/-- The items of a value, where `null` has none. -/
def itemsOrNone : Value → Except Fault (List Value)
  | .null => .ok []
  | v => v.items

end JsonFilter.Value
