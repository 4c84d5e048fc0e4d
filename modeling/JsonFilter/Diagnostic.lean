import JsonFilter.Eval
import JsonFilter.Filter.Parser
import JsonFilter.Json.Document
import JsonFilter.Token.Lexer

/-!
Diagnostics: a failure of any stage together with the text it is about, which is the filter, or the
input for a malformed document. From these follow its place, its wording and the advice given.
-/

namespace JsonFilter

/-- The stages that can fail. -/
inductive Stage where
  | compile
  | run
  | input
  deriving DecidableEq

/-- A failure by its stage, in words. -/
def Stage.text : Stage → String
  | .compile => "compile error"
  | .run => "runtime error"
  | .input => "input parse error"

/-- What went wrong. -/
inductive Cause where
  | token (e : Token.Error)
  | filter (e : Filter.Parser.Error)
  | run (f : Failure)
  /-- An output was needed, and there was none. -/
  | noOutput
  | input (e : Document.Error)

/-- A failure and the text it is about. -/
structure Diagnostic where
  cause : Cause
  source : String

/-! ## Wording -/

/-- Whether a character that begins no token opens a string. -/
def Token.Error.isString (e : Token.Error) : Bool := e.char == '"'

/-- The range of the character at fault, one column wide. -/
def Token.Error.range (e : Token.Error) : Range :=
  ⟨e.position, ⟨e.position.line, e.position.column + 1⟩⟩

def Token.Error.message (e : Token.Error) : String :=
  if e.isString then "Invalid string literal" else s!"Unexpected token `{e.char}`"

def Token.Error.help (e : Token.Error) : String :=
  if e.isString then "Strings must be closed with `\"` and may only contain valid escapes."
  else "Check for unexpected or misplaced characters in the filter."

namespace Filter.Parser.Error

def message : Parser.Error → String
  | .unexpected t => "Unexpected token `" ++ t.kind.text ++ "`"
  | .unexpectedEnd _ => "Unexpected EOF detected"
  | .closingParenExpected t => closing "parenthesis `)`" t
  | .closingBracketExpected t => closing "bracket `]`" t
  | .closingBraceExpected t => closing "brace `\x7d`" t
  | .wordExpected t word => "Expected `" ++ word ++ "` but got `" ++ t.shown ++ "`"
  | .bindingExpected t => "Expected a variable name after `as` but got `" ++ t.shown ++ "`"
  | .undefinedBuiltin _ name arity => s!"{name}/{arity} is not defined"
  | .undefinedVariable _ name => s!"${name} is not defined"
  | .tooDeep t => "Expression is nested too deeply at `" ++ t.shown ++ "`"
where
  /-- A closing delimiter was expected at a token. -/
  closing (delimiter : String) (t : Token) : String :=
    "Expected a closing " ++ delimiter ++ " but got `" ++ t.shown ++ "` delimiter"

def help : Parser.Error → String
  | .unexpectedEnd _ => "The filter ended unexpectedly. Check for incomplete expressions."
  | .closingParenExpected _ => closing
  | .closingBracketExpected _ => closing
  | .closingBraceExpected _ => closing
  | .undefinedBuiltin _ name arity =>
    s!"`{name}/{arity}` is not a builtin. Check its name and number of arguments."
  | .undefinedVariable _ name =>
    s!"Bind `${name}` with `... as ${name} | ...` or pass it as a named argument."
  | .tooDeep _ =>
    "Split the filter into smaller pieces or bind intermediate results to variables."
  | .unexpected _ => other
  | .wordExpected _ _ => other
  | .bindingExpected _ => other
where
  closing : String := "Check that every opening delimiter has a matching closing one."
  other : String := "Check for syntax errors or misplaced tokens."

end Filter.Parser.Error

/-- Advice on a fault, if there is any. -/
def Fault.help? : Fault → Option String
  | .cannotIndex _ _ => some index
  | .cannotSlice _ => some index
  | .cannotIterate _ => some "Only arrays and objects can be iterated with `.[]`."
  | .zeroDivision _ _ => some "Check the divisor before dividing."
  | .invalidPattern _ _ => some "Check the regular expression syntax and flags."
  | _ => none
where
  index : String :=
    "Objects are indexed with strings, arrays with numbers. Use `?` to ignore the error."

namespace Cause

def stage : Cause → Stage
  | .token _ => .compile
  | .filter _ => .compile
  | .run _ => .run
  | .noOutput => .run
  | .input _ => .input

/-- The cause in words, without its place. -/
def message : Cause → String
  | .token e => e.message
  | .filter e => e.message
  | .run f => f.fault.message
  | .noOutput => "No output produced"
  | .input e => e.cause.message

/-- The range at fault, if the cause has a place. -/
def range? : Cause → Option Range
  | .token e => some e.range
  | .filter e => some e.token.range
  | .run f => some f.loc
  | .noOutput => none
  | .input e => some (.empty e.position)

/-- Advice on the cause, if there is any. -/
def help? : Cause → Option String
  | .token e => some e.help
  | .filter e => some e.help
  | .run f => f.fault.help?
  | .noOutput => some "The filter produced no output for the input."
  | .input _ => some "Input must be whitespace separated JSON documents."

end Cause

/-! ## Places -/

namespace Diagnostic

def stage (d : Diagnostic) : Stage := d.cause.stage

def message (d : Diagnostic) : String := d.cause.message

def help? (d : Diagnostic) : Option String := d.cause.help?

/-- The place of the failure, if it has one. -/
def position? (d : Diagnostic) : Option Position := d.cause.range?.map Range.first

/-- Byte offset and length of the range at fault; no place is an empty range at the beginning. -/
def span (d : Diagnostic) : Nat × Nat :=
  match d.cause.range? with
  | some r => r.span d.source
  | none => (0, 0)

/-- The message, with the place for failures before the run. -/
def text (d : Diagnostic) : String :=
  match d.stage, d.position? with
  | .run, _ => d.message
  | _, some p => s!"{d.message} at {p.describe}"
  | _, none => d.message

end Diagnostic

end JsonFilter
