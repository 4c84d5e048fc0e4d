import JsonFilter.Number.Layout
import JsonFilter.Text.Escape
import JsonFilter.Value.Basic

/-!
JSON text of values: on one line, or with every item and field on a line of its own.
-/

namespace JsonFilter

/-- How values are written: the spaces per level, none for text on one line, and whether keys are
put in ascending order first. -/
structure Style where
  indent : Nat
  sortKeys : Bool
  deriving DecidableEq

/-- Text on one line, keys as they come. -/
def Style.compact : Style := ⟨0, false⟩

namespace Value

/-- The break before an item or a closing bracket at a level. -/
def lineBreak (indent level : Nat) : List Char :=
  if indent = 0 then [] else '\n' :: List.replicate (indent * level) ' '

/-- What separates a key from its value. -/
def colon (indent : Nat) : List Char := if indent = 0 then [':'] else [':', ' ']

mutual

/-- The JSON text of a value whose closing bracket stands at `level`. -/
def chars (indent level : Nat) : Value → List Char
  | .null => "null".toList
  | .bool true => "true".toList
  | .bool false => "false".toList
  | .number n => n.json.toList
  | .string s => Text.escaped s
  | .array [] => ['[', ']']
  | .array (v :: vs) =>
    '[' :: (lineBreak indent (level + 1) ++ chars indent (level + 1) v ++
      itemChars indent (level + 1) vs ++ lineBreak indent level ++ [']'])
  | .object [] => ['\x7b', '\x7d']
  | .object ((k, v) :: fs) =>
    '\x7b' :: (lineBreak indent (level + 1) ++ Text.escaped k ++ colon indent ++
      chars indent (level + 1) v ++ fieldChars indent (level + 1) fs ++
      lineBreak indent level ++ ['\x7d'])

/-- The items after the first, each after its comma. -/
def itemChars (indent level : Nat) : List Value → List Char
  | [] => []
  | v :: vs => ',' :: (lineBreak indent level ++ chars indent level v ++ itemChars indent level vs)

/-- The fields after the first, each after its comma. -/
def fieldChars (indent level : Nat) : List (String × Value) → List Char
  | [] => []
  | (k, v) :: fs =>
    ',' :: (lineBreak indent level ++ Text.escaped k ++ colon indent ++ chars indent level v ++
      fieldChars indent level fs)

end

/-- The JSON text of a value. -/
def text (style : Style) (v : Value) : String :=
  String.ofList (chars style.indent 0 (if style.sortKeys then v.sortKeys else v))

/-- The JSON text of a value on one line. -/
def json (v : Value) : String := v.text .compact

/-- The most characters of JSON text that a description shows in full. -/
def describeLimit : Nat := 11

/-- The type of a value with the beginning of its JSON text. -/
def describe (v : Value) : String :=
  let chars := v.json.toList
  let shown :=
    if describeLimit < chars.length then
      String.ofList (chars.take (describeLimit - 1)) ++ "..."
    else String.ofList chars
  s!"{v.typeName} ({shown})"

end Value

end JsonFilter
