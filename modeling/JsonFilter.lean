import JsonFilter.Filter.Printer
import JsonFilter.Session
import JsonFilter.Value.Plain
import JsonFilter.Proofs.Agreement
import JsonFilter.Proofs.Simplify
import JsonFilter.Proofs.Grammar.Basic
import JsonFilter.Proofs.Grammar.Sound
import JsonFilter.Proofs.Grammar.Complete
import JsonFilter.Proofs.Grammar.Depth
import JsonFilter.Proofs.Grammar.Phrases
import JsonFilter.Proofs.Grammar.Table
import JsonFilter.Proofs.Grammar.Precedence
import JsonFilter.Proofs.Grammar.Misprint
import JsonFilter.Proofs.Scope
import JsonFilter.Proofs.Failures
import JsonFilter.Proofs.Lexical
import JsonFilter.Proofs.Names
import JsonFilter.Proofs.Json.Lexing
import JsonFilter.Proofs.Json.Numeral
import JsonFilter.Proofs.Json.Value
import JsonFilter.Proofs.Json.Derivation
import JsonFilter.Proofs.Json.Program
import JsonFilter.Proofs.Json.Reading
import JsonFilter.Proofs.Number.Rounding
import JsonFilter.Proofs.Number.Scientific
import JsonFilter.Proofs.Number.Shortest
import JsonFilter.Proofs.Number.Bits
import JsonFilter.Proofs.Number.RoundTrip
import JsonFilter.Proofs.Json.Decoding
import JsonFilter.Proofs.Json.Documents
import JsonFilter.Proofs.Nesting
import JsonFilter.Proofs.Number.Unsigned
import JsonFilter.Proofs.Rendering.Basic
import JsonFilter.Proofs.Rendering.Written
import JsonFilter.Proofs.Rendering.Tokens
import JsonFilter.Proofs.Rendering.Derivation
import JsonFilter.Proofs.Rendering.Source
import JsonFilter.Proofs.Order.Number
import JsonFilter.Proofs.Order.Value
import JsonFilter.Proofs.Order.Alike
import JsonFilter.Proofs.Order.Equality
import JsonFilter.Proofs.Items
import JsonFilter.Proofs.Handle
import JsonFilter.Proofs.Json.Extent
import JsonFilter.Proofs.Json.Locality
import JsonFilter.Proofs.Json.Placing
import JsonFilter.Proofs.Json.Splitting
import JsonFilter.Proofs.Correspondence
import JsonFilter.Proofs.Location
import JsonFilter.Proofs.Token.Scanners
import JsonFilter.Proofs.Places
import JsonFilter.Proofs.Token.Lexemes
import JsonFilter.Proofs.Grammar.Blame
import JsonFilter.Proofs.Grammar.Origin
import JsonFilter.Proofs.Spans
import JsonFilter.Proofs.Isolation
import JsonFilter.Proofs.Token.Separation
import JsonFilter.Proofs.Contexts
import JsonFilter.Proofs.Substitution
import JsonFilter.Proofs.Renaming
import JsonFilter.Proofs.Evaluators
import JsonFilter.Proofs.FirstFailure
import JsonFilter.Proofs.Limits
import JsonFilter.Proofs.Number.Neighbours
import JsonFilter.Proofs.Number.Sum
import JsonFilter.Proofs.Number.Increment
import JsonFilter.Proofs.Counting
import JsonFilter.Proofs.Termination
import JsonFilter.Proofs.Inlining
import JsonFilter.Proofs.Algebra
import JsonFilter.Proofs.Runs
import JsonFilter.Proofs.Walk
import JsonFilter.Proofs.Builtins
import JsonFilter.Proofs.Attempt
import JsonFilter.Proofs.Alternative
import JsonFilter.Proofs.Conditions
import JsonFilter.Proofs.Products
import JsonFilter.Proofs.Constructions
import JsonFilter.Proofs.Grammar.Borders
import JsonFilter.Proofs.Grammar.Brackets
import JsonFilter.Proofs.Grammar.Commas
import JsonFilter.Proofs.Number.Exact
import JsonFilter.Proofs.Number.Special
import JsonFilter.Proofs.Offsets
import JsonFilter.Proofs.Containers
import JsonFilter.Proofs.Slices
import JsonFilter.Proofs.Json.Canonical
import JsonFilter.Proofs.Addition
import JsonFilter.Proofs.Merging
import JsonFilter.Proofs.Splitting
import JsonFilter.Proofs.Token.Literals
import JsonFilter.Proofs.Token.Forms
import JsonFilter.Proofs.Json.Cursor
import JsonFilter.Proofs.NormalForm
import JsonFilter.Proofs.Sorting
import JsonFilter.Proofs.Number.Remainder
import JsonFilter.Proofs.Json.Positions
import JsonFilter.Proofs.Machine.Balance
import JsonFilter.Proofs.Plain.Agreement
