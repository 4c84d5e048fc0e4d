import JsonFilter.Json.Reader
import JsonFilter.Operation.Access
import JsonFilter.Operation.Arithmetic

/-!
The builtins that compute one value from their input and the values of their arguments.
-/

namespace JsonFilter.Value

/-- The size of a value: of a number its magnitude, else how many parts it has. -/
def length : Value → Except Fault Value
  | .null => .ok (.ofNat 0)
  | .number n => .ok (.number n.abs)
  | .string s => .ok (.ofNat s.length)
  | .array items => .ok (.ofNat items.length)
  | .object fields => .ok (.ofNat fields.length)
  | .bool b => .error (.misuse (.noLength (.bool b)))

/-- The bytes of a string. -/
def byteLength : Value → Except Fault Value
  | .string s => .ok (.ofNat s.utf8ByteSize)
  | v => .error (.misuse (.noByteLength v))

/-- The keys of an object in ascending order, or the places of an array. -/
def keys : Value → Except Fault Value
  | .object fields => .ok (.array ((Fields.keys (Fields.sorted fields)).map .string))
  | .array items => .ok (.array ((List.range items.length).map .ofNat))
  | v => .error (.misuse (.noKeys v))

/-- Whether a number, rounded down, is a place of `length` items. -/
def isPlace (length : Nat) (n : Number) : Bool :=
  match n.floor with
  | .exact i => decide (0 ≤ i) && decide (i < length)
  | _ => false

/-- Whether a container holds something at a key. -/
def has : Value → Value → Except Fault Value
  | .object fields, .string key => .ok (.bool (Fields.contains fields key))
  | .array items, .number n => .ok (.bool (isPlace items.length n))
  | container, key => .error (.misuse (.noSuchKeys container key))

/-- The sum of the items, from the left. -/
def sum (v : Value) : Except Fault Value := do
  let items ← v.itemsOrNone
  items.foldlM add .null

/-- Whether some item counts as true. -/
def any (v : Value) : Except Fault Value := do
  let items ← v.itemsOrNone
  return .bool (items.any isTruthy)

/-- Whether all items count as true. -/
def all (v : Value) : Except Fault Value := do
  let items ← v.itemsOrNone
  return .bool (items.all isTruthy)

/-- A string as it is, any other value as its JSON text. -/
def toText : Value → String
  | .string s => s
  | v => v.json

/-- The number that a value is, or that its text denotes in JSON. -/
def toNumber : Value → Except Fault Value
  | .number n => .ok (.number n)
  | .string s =>
    match Json.parseNumber? s with
    | some n => .ok (.number n)
    | none => .error (.misuse (.notNumeric (.string s)))
  | v => .error (.misuse (.notNumeric v))

/-- The value of a JSON text. -/
def ofJson : Value → Except Fault Value
  | .string s =>
    match Json.parse s with
    | .ok v => .ok v
    | .error e => .error (.misuse (.notJson s e))
  | v => .error (.misuse (.notJsonText v))

/-- A string with its ASCII letters changed. -/
def changeCase (b : Builtin) (change : Char → Char) : Value → Except Fault Value
  | .string s => .ok (.string (s.map change))
  | _ => .error (.misuse (.caseNotString b))

/-- The items or characters in the opposite order. -/
def reverse : Value → Except Fault Value
  | .null => .ok (.array [])
  | .string s => .ok (.string (String.ofList s.toList.reverse))
  | .array items => .ok (.array items.reverse)
  | v => .error (.misuse (.notReversible v))

/-- An array in ascending order. -/
def sort : Value → Except Fault Value
  | .array items => .ok (.array (sortList items))
  | v => .error (.misuse (.notSortable v))

/-- An item as a piece of a joined text. -/
def joinable : Value → Except Fault String
  | .null => .ok ""
  | .string s => .ok s
  | .bool b => .ok (Value.bool b).json
  | .number n => .ok (Value.number n).json
  | v => .error (.misuse (.notJoinable v))

/-- The items as text with a separator between them. -/
def join (v : Value) : Value → Except Fault Value
  | .string separator => do
    let pieces ← (← v.itemsOrNone).mapM joinable
    return .string (String.intercalate separator pieces)
  | _ => .error (.misuse .separatorNotString)

/-- A string cut at a separator, where both are needed. -/
def splitAt : Value → Value → Except Fault Value
  | .string s, .string separator => .ok (split s separator)
  | _, _ => .error (.misuse .splitNotString)

/-- A test of a string against its beginning or its end. -/
def affix (b : Builtin) (holds : String → String → Bool) : Value → Value → Except Fault Value
  | .string s, .string part => .ok (.bool (holds s part))
  | _, _ => .error (.misuse (.affixNotString b))

/-! ## Patterns -/

/-- A question to a pattern: its text as it was given, its source with the flags, and the text to
be matched. -/
structure Question where
  pattern : String
  source : String
  text : String

/-- The flags of a pattern that change its meaning, in order; `g` and `n` change nothing. -/
def patternFlags? (flags : String) : Option (List Char) :=
  if flags.toList.all (['i', 'x', 's', 'g', 'n'].contains ·) then
    some (flags.toList.filter (['i', 'x', 's'].contains ·))
  else none

/-- The source of a pattern with flags in front. -/
def flaggedSource (flags : List Char) (pattern : String) : String :=
  if flags.isEmpty then pattern else "(?" ++ String.ofList flags ++ ")" ++ pattern

/-- The question of a match with flags, which may be `null`. -/
def question : Value → Value → Value → Except Fault Question
  | .string text, .string pattern, flags => do
    let flags ← match flags with
      | .null => .ok ""
      | .string s => .ok s
      | v => .error (Fault.misuse (.flagsNotString v))
    match patternFlags? flags with
    | some active => return ⟨pattern, flaggedSource active pattern, text⟩
    | none => throw (.misuse (.unknownFlag flags))
  | .string _, pattern, _ => .error (.misuse (.notMatchable pattern))
  | input, _, _ => .error (.misuse (.notMatchable input))

end JsonFilter.Value

namespace JsonFilter.Builtin

open Value

/-- Applies a builtin to its input and the values of its arguments. -/
def apply (b : Builtin) (input : Value) (args : List Value) : Except Fault Value :=
  match b, args with
  | .error, [] => .error (.raised input)
  | .error, [payload] => .error (.raised payload)
  | .not, [] => .ok (.bool !input.isTruthy)
  | .length, [] => input.length
  | .utf8ByteLength, [] => input.byteLength
  | .keys, [] => input.keys
  | .has, [key] => input.has key
  | .add, [] => input.sum
  | .any, [] => input.any
  | .all, [] => input.all
  | .type, [] => .ok (.string input.typeName)
  | .toString, [] => .ok (.string input.toText)
  | .toNumber, [] => input.toNumber
  | .toJson, [] => .ok (.string input.json)
  | .fromJson, [] => input.ofJson
  | .asciiDowncase, [] => input.changeCase b Char.toLower
  | .asciiUpcase, [] => input.changeCase b Char.toUpper
  | .reverse, [] => input.reverse
  | .sort, [] => input.sort
  | .join, [separator] => input.join separator
  | .split, [separator] => input.splitAt separator
  | .startsWith, [part] => input.affix b (fun s part => part.toList.isPrefixOf s.toList) part
  | .endsWith, [part] => input.affix b (fun s part => part.toList.isSuffixOf s.toList) part
  | b, args => .error (.misuse (.undefined b args.length))

end JsonFilter.Builtin
