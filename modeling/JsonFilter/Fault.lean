import JsonFilter.Filter.Builtin
import JsonFilter.Json.Error
import JsonFilter.Pattern.Error
import JsonFilter.Value.Printer

/-!
Why an operation on values fails. A fault keeps the values that it is about; its wording is in
`Fault.message` alone, and a filter that catches it receives `Fault.caught`.
-/

namespace JsonFilter

/-- What an arithmetic operator would have done to its operands. -/
inductive Verb where
  | added
  | subtracted
  | multiplied
  | divided
  deriving DecidableEq

def Verb.text : Verb → String
  | .added => "added"
  | .subtracted => "subtracted"
  | .multiplied => "multiplied"
  | .divided => "divided"

/-- An input or an argument that an operation cannot work on. -/
inductive Misuse where
  | noLength (v : Value)
  | noByteLength (v : Value)
  | noKeys (v : Value)
  | noSuchKeys (container key : Value)
  | notNumeric (v : Value)
  | notJson (text : String) (error : Json.Error)
  | notJsonText (v : Value)
  | notReversible (v : Value)
  | notSortable (v : Value)
  | notJoinable (v : Value)
  | separatorNotString
  | splitNotString
  | affixNotString (builtin : Builtin)
  | caseNotString (builtin : Builtin)
  | notMatchable (v : Value)
  | flagsNotString (v : Value)
  | unknownFlag (flags : String)
  | limitNotNumber (v : Value)
  | rangeNotNumber
  | sliceNotNumber
  | repeatTooLong
  | undefined (builtin : Builtin) (arity : Nat)

/-- The misuse in words. -/
def Misuse.message : Misuse → String
  | .noLength v => s!"{v.describe} has no length"
  | .noByteLength v => s!"{v.describe} only strings have UTF-8 byte length"
  | .noKeys v => s!"{v.describe} has no keys"
  | .noSuchKeys container key =>
    s!"Cannot check whether {container.typeName} has a {key.typeName} key"
  | .notNumeric v => s!"{v.describe} cannot be parsed as a number"
  | .notJson text error => s!"{error.message} (while parsing '" ++ text ++ "')"
  | .notJsonText v => s!"{v.describe} cannot be parsed as JSON"
  | .notReversible v => s!"Cannot reverse {v.describe}"
  | .notSortable v => s!"{v.describe} cannot be sorted, as it is not an array"
  | .notJoinable v => s!"Cannot join with {v.typeName}"
  | .separatorNotString => "join separator must be a string"
  | .splitNotString => "split input and separator must be strings"
  | .affixNotString builtin => s!"{builtin.name}() requires string inputs"
  | .caseNotString builtin => s!"{builtin.name} input must be a string"
  | .notMatchable v => s!"{v.describe} cannot be matched, as it is not a string"
  | .flagsNotString v => s!"{v.describe} is not a string"
  | .unknownFlag flags => (Value.string flags).json ++ " is not a valid modifier string"
  | .limitNotNumber v => s!"Invalid limit {v.describe}, expected a number"
  | .rangeNotNumber => "Range bounds must be numeric"
  | .sliceNotNumber => "Start and end indices of an array slice must be numbers"
  | .repeatTooLong => "Repeat string result too long"
  | .undefined builtin arity => s!"{builtin.name}/{arity} is not defined"

/-- Why an operation fails. -/
inductive Fault where
  /-- The filter itself raised a value. -/
  | raised (payload : Value)
  | cannotIndex (target key : Value)
  | cannotSlice (target : Value)
  | cannotIterate (target : Value)
  | invalidOperands (verb : Verb) (left right : Value)
  | zeroDivision (left right : Value)
  | cannotNegate (operand : Value)
  | keyNotString (key : Value)
  | invalidPattern (pattern : String) (reason : Pattern.Error)
  | misuse (m : Misuse)

namespace Fault

/-- A key as messages show it: a string in full, any other by its type. -/
def shownKey : Value → String
  | .string s => "string " ++ (Value.string s).json
  | v => v.typeName

/-- The fault in words. -/
def message : Fault → String
  | .raised (.string s) => s
  | .raised payload => payload.json ++ " (not a string)"
  | .cannotIndex target key => s!"Cannot index {target.typeName} with {shownKey key}"
  | .cannotSlice target => s!"Cannot index {target.typeName} with object"
  | .cannotIterate target => s!"Cannot iterate over {target.describe}"
  | .invalidOperands verb left right =>
    s!"{left.describe} and {right.describe} cannot be {verb.text}"
  | .zeroDivision left right =>
    s!"{left.describe} and {right.describe} cannot be divided because the divisor is zero"
  | .cannotNegate operand => s!"{operand.describe} cannot be negated"
  | .keyNotString key => s!"Object keys must be strings, got {key.describe}"
  | .invalidPattern pattern reason =>
    (Value.string pattern).json ++ s!" is not a valid regex: {reason.message}"
  | .misuse m => m.message

/-- What a filter that catches the fault receives: the value that was raised, or the message. -/
def caught : Fault → Value
  | .raised payload => payload
  | f => .string f.message

end Fault

end JsonFilter
