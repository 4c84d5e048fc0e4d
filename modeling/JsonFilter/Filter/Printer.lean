import JsonFilter.Filter.Basic
import JsonFilter.Value.Printer

/-!
Filters as text, with parentheses around every operator.
-/

namespace JsonFilter.Filter

mutual

/-- The text of a filter. -/
def text : Filter → String
  | .identity _ => "."
  | .recurse _ => ".."
  | .literal _ l => l.toValue.json
  | .var _ name => "$" ++ name
  | .index _ target key => target.text ++ "[" ++ key.text ++ "]"
  | .slice _ target low high => target.text ++ "[" ++ optionText low ++ ":" ++ optionText high ++ "]"
  | .iterate _ target => target.text ++ "[]"
  | .pipe _ left right => "(" ++ left.text ++ " | " ++ right.text ++ ")"
  | .comma _ left right => "(" ++ left.text ++ ", " ++ right.text ++ ")"
  | .alternative _ left right => "(" ++ left.text ++ " // " ++ right.text ++ ")"
  | .and _ left right => "(" ++ left.text ++ " and " ++ right.text ++ ")"
  | .or _ left right => "(" ++ left.text ++ " or " ++ right.text ++ ")"
  | .binary _ op left right => "(" ++ left.text ++ " " ++ op.text ++ " " ++ right.text ++ ")"
  | .negate _ operand => "(-" ++ operand.text ++ ")"
  | .array _ body => "[" ++ optionText body ++ "]"
  | .object _ entries => "\x7b" ++ String.intercalate ", " (entryTexts entries) ++ "\x7d"
  | .cond _ branches none => "if" ++ branchesText branches ++ " end"
  | .cond _ branches (some otherwise) =>
    "if" ++ branchesText branches ++ " else " ++ otherwise.text ++ " end"
  | .attempt _ body none => "try " ++ body.text
  | .attempt _ body (some handler) => "try " ++ body.text ++ " catch " ++ handler.text
  | .bind _ source name body => "(" ++ source.text ++ " as $" ++ name ++ " | " ++ body.text ++ ")"
  | .call _ builtin [] => builtin.name
  | .call _ builtin (arg :: args) =>
    builtin.name ++ "(" ++ String.intercalate "; " (arg.text :: texts args) ++ ")"

/-- The text of a filter that may be missing. -/
def optionText : Option Filter → String
  | none => ""
  | some f => f.text

/-- The texts of some filters. -/
def texts : List Filter → List String
  | [] => []
  | f :: fs => f.text :: texts fs

/-- Each key of an object with its value. -/
def entryTexts : List (Filter × Filter) → List String
  | [] => []
  | (k, v) :: es => (k.text ++ ": " ++ v.text) :: entryTexts es

/-- The branches of a condition, from the second one on after the word `elif`. -/
def branchesText : List (Filter × Filter) → String
  | [] => ""
  | [(test, body)] => " " ++ test.text ++ " then " ++ body.text
  | (test, body) :: bs => " " ++ test.text ++ " then " ++ body.text ++ " elif" ++ branchesText bs

end

end JsonFilter.Filter
