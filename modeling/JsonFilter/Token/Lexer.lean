import JsonFilter.Number.Numeral
import JsonFilter.Text.Escape
import JsonFilter.Token.Basic

/-!
From text to tokens. White space and comments separate tokens and mean nothing else. A scanner
splits one lexeme off the front of a text; nothing is lost, since lexeme and rest make up the text.
-/

namespace JsonFilter.Token

/-- A token split off the front of `s`. -/
structure Scanned (s : List Char) where
  kind : Kind
  lexeme : List Char
  rest : List Char
  splits : lexeme ++ rest = s
  nonempty : lexeme ≠ []

theorem Scanned.shorter {s : List Char} (t : Scanned s) : t.rest.length < s.length := by
  have h := congrArg List.length t.splits
  have := List.length_pos_iff.2 t.nonempty
  simp only [List.length_append] at h
  omega

/-- A token whose lexeme is what comes before a given end of the text. -/
def Scanned.upTo? (kind : Kind) (s rest : List Char) : Option (Scanned s) :=
  let lexeme := s.take (s.length - rest.length)
  if h : lexeme ++ rest = s ∧ lexeme ≠ [] then some ⟨kind, lexeme, rest, h.1, h.2⟩ else none

/-! ## Scanners -/

/-- What follows `lead` at the front of a text. -/
def strip? : (lead s : List Char) → Option { rest : List Char // lead ++ rest = s }
  | [], s => some ⟨s, rfl⟩
  | _ :: _, [] => none
  | l :: ls, c :: cs =>
    if h : l = c then (strip? ls cs).map fun r => ⟨r.1, by rw [h, List.cons_append, r.2]⟩ else none

/-- Takes a symbol by its spelling. -/
def scanSymbol? (symbol : Symbol) (s : List Char) : Option (Scanned s) :=
  (strip? symbol.text.toList s).map fun r =>
    ⟨.symbol symbol, symbol.text.toList, r.1, r.2, by cases symbol <;> decide⟩

/-- Whether a word may begin with a character. -/
def isWordStart (c : Char) : Bool := c.isAlpha || c == '_'

/-- Whether a word may go on with a character. -/
def isWordPart (c : Char) : Bool := c.isAlphanum || c == '_'

/-- Takes a word. -/
def scanWord? (s : List Char) : Option (Scanned s) :=
  match s with
  | [] => none
  | c :: cs =>
    if isWordStart c then
      let word := c :: cs.takeWhile isWordPart
      some ⟨.ofWord (String.ofList word), word, cs.dropWhile isWordPart,
        by rw [List.cons_append, List.takeWhile_append_dropWhile], by simp [word]⟩
    else none

/-- Takes a word after a mark that belongs to it. -/
def scanMarked? (mark : Char) (kind : String → Kind) (s : List Char) : Option (Scanned s) :=
  match s with
  | [] => none
  | c :: cs =>
    if c = mark then
      (scanWord? cs).map fun w =>
        ⟨kind (String.ofList w.lexeme), c :: w.lexeme, w.rest,
          by rw [List.cons_append, w.splits], by simp⟩
    else none

/-- Takes a numeral, which begins with a digit. -/
def scanNumber? (s : List Char) : Option (Scanned s) :=
  let (numeral, rest) := Numeral.scan s
  if numeral.whole.isEmpty then none else Scanned.upTo? (.number numeral.value) s rest

/-- Takes what follows a backslash inside a string. -/
def scanEscape? : List Char → Option (Char × List Char)
  | 'u' :: a :: b :: c :: d :: r => do
    let first ← Text.unit? a b c d
    if Text.isHighSurrogate first then
      match r with
      | '\\' :: 'u' :: a :: b :: c :: d :: r =>
        let second ← Text.unit? a b c d
        if Text.isLowSurrogate second then return (Text.pairChar first second, r) else none
      | _ => none
    else if Text.isLowSurrogate first then none
    else return (Char.ofNat first, r)
  | c :: r => (Text.shortEscape? c).map fun d => (d, r)
  | [] => none

theorem scanEscape?_shorter {s r : List Char} {c : Char} (h : scanEscape? s = some (c, r)) :
    r.length < s.length := by
  unfold scanEscape? at h
  split at h
  · simp only [Option.bind_eq_bind, Option.bind_eq_some_iff] at h
    obtain ⟨first, -, h⟩ := h
    split at h
    · split at h
      · simp only [Option.bind_eq_some_iff] at h
        obtain ⟨second, -, h⟩ := h
        split at h <;> simp_all
        omega
      · simp at h
    · split at h <;> simp_all
      omega
  · obtain ⟨d, -, h⟩ := Option.map_eq_some_iff.1 h
    simp_all
  · simp at h

/-- Takes the characters up to the closing quote; `taken` holds those before, last first. -/
def scanChars? (taken : List Char) (s : List Char) : Option (List Char × List Char) :=
  match s with
  | [] => none
  | '"' :: r => some (taken.reverse, r)
  | '\\' :: r =>
    match h : scanEscape? r with
    | none => none
    | some (c, t) =>
      have := scanEscape?_shorter h
      scanChars? (c :: taken) t
  | c :: r => scanChars? (c :: taken) r
termination_by s.length

/-- Takes a string; one that is not closed or has a bad escape is no token. -/
def scanString? (s : List Char) : Option (Scanned s) :=
  match s with
  | '"' :: cs =>
    match scanChars? [] cs with
    | some (text, rest) => Scanned.upTo? (.string (String.ofList text)) ('"' :: cs) rest
    | none => none
  | _ => none

/-- Takes the token at the front of a text. -/
def scan? (s : List Char) : Option (Scanned s) :=
  (Symbol.all.findSome? fun symbol => scanSymbol? symbol s)
    <|> scanMarked? '.' .field s
    <|> scanSymbol? .dot s
    <|> scanMarked? '$' .binding s
    <|> scanNumber? s
    <|> scanString? s
    <|> scanWord? s

/-! ## The whole text -/

/-- White space between tokens. -/
def isSpace (c : Char) : Bool := c == ' ' || c == '\t' || c == '\r' || c == '\n'

/-- Skips white space and comments from a place on. A comment begins with `#` and ends before the
next carriage return or line feed; the flag says whether one is being skipped. -/
def skipTrivia (comment : Bool) (p : Position) : List Char → Position × List Char
  | [] => (p, [])
  | c :: cs =>
    if comment then skipTrivia (c ≠ '\r' ∧ c ≠ '\n') (p.advance c) cs
    else if isSpace c then skipTrivia false (p.advance c) cs
    else if c = '#' then skipTrivia true (p.advance c) cs
    else (p, c :: cs)

theorem length_skipTrivia_le (comment : Bool) (p : Position) (s : List Char) :
    (skipTrivia comment p s).2.length ≤ s.length := by
  fun_induction skipTrivia comment p s <;> simp_all <;> omega

/-- A character that begins no token: for a quote, the string it opens is malformed. -/
structure Error where
  position : Position
  char : Char
  deriving DecidableEq

/-- The tokens of a text that begins at a place, up to and with its end. -/
def listFrom (p : Position) (s : List Char) : Except Error (List Token) :=
  match h : skipTrivia false p s with
  | (here, []) => .ok [⟨.finish, .empty here⟩]
  | (here, c :: cs) =>
    match scan? (c :: cs) with
    | none => .error ⟨here, c⟩
    | some t =>
      have : t.rest.length < s.length := by
        have h₁ := length_skipTrivia_le false p s
        have h₂ := t.shorter
        rw [h] at h₁
        simp only [List.length_cons] at h₁ h₂
        omega
      match listFrom (here.after t.lexeme) t.rest with
      | .ok ts => .ok (⟨t.kind, ⟨here, here.after t.lexeme⟩⟩ :: ts)
      | .error e => .error e
termination_by s.length

/-- The tokens of a text; the last one stands for its end. -/
def list (text : String) : Except Error (List Token) := listFrom .start text.toList

end JsonFilter.Token
