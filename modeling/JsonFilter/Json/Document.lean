import JsonFilter.Json.Reader
import JsonFilter.Text.Position

/-!
Documents: a text that holds any number of JSON values with white space between them. They are
read one by one, and nothing is read after the first that is malformed. A failure is told by its
place in the whole text.
-/

namespace JsonFilter.Document

open Json

/-- A malformed document: where in the whole text, and why. -/
structure Error where
  position : Position
  cause : Cause
  deriving DecidableEq

/-- The characters of the first `n` lines, line feeds included. -/
def takeLines : Nat → List Char → List Char
  | 0, _ => []
  | _, [] => []
  | n + 1, c :: cs => c :: takeLines (if c = '\n' then n else n + 1) cs

/-- The longest beginning of at most `n` bytes. -/
def takeBytes : Nat → List Char → List Char
  | _, [] => []
  | n, c :: cs => if c.utf8Size ≤ n then c :: takeBytes (n - c.utf8Size) cs else []

/-- The place in `before ++ rest` of the character that holds byte `column` of line `line` of
`rest`, both counted from one. -/
def positionAt (before rest : List Char) (line column : Nat) : Position :=
  let lines := takeLines (line - 1) rest
  Position.start.after (before ++ lines ++ takeBytes (column - 1) (rest.drop lines.length))

/-- A failure of the reader started at `rest`, as an error of the whole text. -/
def Error.ofFailure (text rest : List Char) (f : Failure) : Error :=
  let e := f.toError rest
  ⟨positionAt (text.take (text.length - rest.length)) rest e.line e.column, e.cause⟩

/-- What may follow a number or a word: white space or a JSON delimiter. -/
def isDelimiter (c : Char) : Bool :=
  isBlank c || ['"', '[', ']', '\x7b', '\x7d', ',', ':'].contains c

/-- Whether a value that begins so shows its own end. -/
def isClosed (c : Char) : Bool := ['"', '[', '\x7b'].contains c

/-- Takes the next document, or nothing if only white space is left. -/
def next? (s : List Char) : Option (Reading Value s) :=
  match skipBlanks s with
  | [] => none
  | c :: _ => some <|
    match readValue depthLimit s with
    | .error f => .error f
    | .ok v =>
      match v.rest with
      | [] => .ok v
      | d :: _ =>
        if isClosed c || isDelimiter d then .ok v else unexpected .trailingCharacters v.rest

/-- The documents of the text `text` from `rest` on. -/
def listFrom (text rest : List Char) : List (Except Error Value) :=
  match next? rest with
  | none => []
  | some (.error f) => [.error (.ofFailure text rest f)]
  | some (.ok v) =>
    have := v.shorter
    .ok v.value :: listFrom text v.rest
termination_by rest.length

/-- The documents of a text, up to and with the first malformed one. -/
def list (text : String) : List (Except Error Value) := listFrom text.toList text.toList

end JsonFilter.Document
