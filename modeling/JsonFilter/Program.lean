import JsonFilter.Diagnostic
import JsonFilter.Filter.Simplify

/-!
Programs: filters compiled from source together with the values of their global variables. A
program runs on one value, or on every document of a text in order.
-/

namespace JsonFilter

/-- How a filter is compiled: whether it is simplified, the variables of the environment that it
may see, and named arguments, of which a later one hides an earlier one of its name. -/
structure Options where
  simplify : Bool
  environment : Fields Value
  args : List (String × Value)

/-- Simplify, and show nothing to the filter. -/
def Options.plain : Options := ⟨true, [], []⟩

/-- The global variables, the innermost first. -/
def Options.globals (o : Options) : Env :=
  ((environmentName, .object o.environment) :: o.args).reverse

/-- What a program runs on: a value, or a text of any number of documents. -/
inductive Input where
  | value (v : Value)
  | text (s : String)

/-- A compiled filter. -/
structure Program where
  source : String
  filter : Filter
  globals : Env

/-- The filter of a source that may use some global variables. -/
def Filter.ofSource (globals : List String) (source : String) : Except Diagnostic Filter := do
  let tokens ← (Token.list source).mapError fun e => ⟨.token e, source⟩
  (ofTokens globals tokens).mapError fun e => ⟨.filter e, source⟩

namespace Program

/-- Compiles a filter. -/
def compile (o : Options) (source : String) : Except Diagnostic Program := do
  let filter ← Filter.ofSource (o.globals.map Prod.fst) source
  return ⟨source, if o.simplify then filter.simplify else filter, o.globals⟩

/-- The outputs of a program for one value. -/
def outputsFor (horizon : Nat) (p : Program) (v : Value) : Outputs Diagnostic Value :=
  (p.filter.eval horizon p.globals v).mapError fun f => ⟨.run f, p.source⟩

/-- The documents of a text, each a value or a failure. -/
def documents (text : String) : Outputs Diagnostic Value :=
  .ofItems ((Document.list text).map (Except.mapError fun e => ⟨.input e, text⟩))

/-- The outputs of a program. -/
def outputs (horizon : Nat) (p : Program) : Input → Outputs Diagnostic Value
  | .value v => p.outputsFor horizon v
  | .text s => (documents s).bind (p.outputsFor horizon)

end Program

end JsonFilter
