import JsonFilter.Json.Error
import JsonFilter.Number.Numeral
import JsonFilter.Text.Escape
import JsonFilter.Text.Front
import JsonFilter.Value.Basic

/-!
Reading JSON text. Every reader takes a text from its front and returns the value read with the
rest, which is shorter, or the first failure. Values nest at most 127 levels deep.
-/

namespace JsonFilter.Json

/-- The result of reading from the front of a text. -/
abbrev Reading (α : Type) (s : List Char) := Except Failure (Front α s)

/-- White space between the parts of a JSON text. -/
def isBlank (c : Char) : Bool := c == ' ' || c == '\n' || c == '\t' || c == '\r'

def skipBlanks (s : List Char) : List Char := s.dropWhile isBlank

theorem length_skipBlanks_le (s : List Char) : (skipBlanks s).length ≤ s.length :=
  (List.dropWhile_sublist isBlank).length_le

theorem length_lt_of_skipBlanks {s r : List Char} {c : Char} (h : skipBlanks s = c :: r) :
    r.length < s.length := by
  have h₁ := length_skipBlanks_le s
  rw [h] at h₁
  exact h₁

/-- A failure on the next byte of the rest. -/
def unexpected {α : Type} (cause : Cause) (rest : List Char) : Except Failure α :=
  .error ⟨cause, rest, if rest.isEmpty then 0 else 1⟩

/-- A failure just before the rest. -/
def stop {α : Type} (cause : Cause) (rest : List Char) : Except Failure α :=
  .error ⟨cause, rest, 0⟩

/-! ## Words -/

/-- Takes the remaining letters of a word. -/
def readWord : List Char → (s : List Char) → Except Failure { r : List Char // r.length ≤ s.length }
  | [], s => .ok ⟨s, Front.whole_le _⟩
  | _ :: _, [] => stop .endInValue []
  | w :: ws, c :: cs =>
    if c = w then
      match readWord ws cs with
      | .ok ⟨r, h⟩ => .ok ⟨r, Front.le_cons h⟩
      | .error e => .error e
    else unexpected .wordExpected (c :: cs)

/-! ## Numbers -/

/-- The largest power of ten that a numeral may name without being called out of range. -/
def maxExponent : Nat := Nat.pow 2 31 - 1

/-- The digits that are left when the value of those before first passes `maxExponent`. -/
def excess? (n : Nat) : List Char → Option (List Char)
  | [] => none
  | c :: cs =>
    let m := 10 * n + (c.toNat - '0'.toNat)
    if maxExponent < m then some cs else excess? m cs

/-- Takes the whole part: a single zero, or digits that do not begin with zero. -/
def readWhole : List Char → Except Failure (List Char × List Char)
  | [] => stop .endInValue []
  | c :: cs =>
    if c = '0' then
      match cs with
      | d :: _ => if d.isDigit then unexpected .invalidNumber cs else .ok (['0'], cs)
      | [] => .ok (['0'], [])
    else if c.isDigit then
      .ok (c :: cs.takeWhile Char.isDigit, cs.dropWhile Char.isDigit)
    else unexpected .invalidNumber (c :: cs)

/-- Takes a fraction, which has a digit, if there is a point. -/
def readFraction : List Char → Except Failure (List Char × List Char)
  | '.' :: cs =>
    match cs.takeWhile Char.isDigit with
    | [] => if cs.isEmpty then stop .endInValue [] else unexpected .invalidNumber cs
    | digits => .ok (digits, cs.dropWhile Char.isDigit)
  | s => .ok ([], s)

/-- Takes a power of ten, which has a digit, if there is a letter for it. A positive one beyond
`maxExponent` is out of range unless the digits before are all zero. -/
def readExponent (isZero : Bool) : List Char → Except Failure (Int × List Char)
  | [] => .ok (0, [])
  | c :: cs =>
    if c = 'e' ∨ c = 'E' then
      let (negative, s) := Numeral.scanSign cs
      match s.takeWhile Char.isDigit with
      | [] => if s.isEmpty then stop .endInValue [] else unexpected .invalidNumber s
      | digits =>
        let rest := s.dropWhile Char.isDigit
        let size : Int := Numeral.digitsValue digits
        match excess? 0 digits with
        | some left =>
          if isZero || negative then .ok (if negative then -size else size, rest)
          else stop .numberOutOfRange (left ++ rest)
        | none => .ok (if negative then -size else size, rest)
    else .ok (0, c :: cs)

/-- Takes a numeral after its sign. -/
def readNumeral (negative : Bool) (s : List Char) : Except Failure (Number × List Char) := do
  let (whole, s) ← readWhole s
  let (fraction, s) ← readFraction s
  let isZero := (whole ++ fraction).all (· == '0')
  let (exponent, s) ← readExponent isZero s
  let x := Numeral.value ⟨negative, whole, fraction, exponent⟩
  if x.isInfinite then stop .numberOutOfRange s else return (x, s)

/-- Takes a number. -/
def readNumber : List Char → Except Failure (Number × List Char)
  | '-' :: cs => readNumeral true cs
  | s => readNumeral false s

theorem length_dropWhile_le (p : Char → Bool) (s : List Char) : (s.dropWhile p).length ≤ s.length :=
  (List.dropWhile_sublist p).length_le

theorem length_scanSign_le (s : List Char) : (Numeral.scanSign s).2.length ≤ s.length := by
  unfold Numeral.scanSign
  split <;> simp

theorem readWhole_shorter {s d r : List Char} (h : readWhole s = .ok (d, r)) :
    r.length < s.length := by
  unfold readWhole at h
  split at h
  · simp [stop] at h
  · rename_i c cs
    have := length_dropWhile_le Char.isDigit cs
    repeat' split at h
    all_goals simp_all [unexpected]
    all_goals grind

theorem readFraction_length_le {s d r : List Char} (h : readFraction s = .ok (d, r)) :
    r.length ≤ s.length := by
  unfold readFraction at h
  split at h
  · rename_i cs
    have := length_dropWhile_le Char.isDigit cs
    repeat' split at h
    all_goals simp_all [unexpected, stop]
    all_goals grind
  · simp_all

theorem readExponent_length_le {isZero : Bool} {s r : List Char} {e : Int}
    (h : readExponent isZero s = .ok (e, r)) : r.length ≤ s.length := by
  unfold readExponent at h
  split at h
  · simp_all
  · rename_i c cs
    have h₁ := length_scanSign_le cs
    have h₂ := length_dropWhile_le Char.isDigit (Numeral.scanSign cs).2
    repeat' split at h
    all_goals simp_all [unexpected, stop]
    all_goals grind

theorem readNumeral_shorter {negative : Bool} {s r : List Char} {x : Number}
    (h : readNumeral negative s = .ok (x, r)) : r.length < s.length := by
  unfold readNumeral at h
  simp only [bind, Except.bind] at h
  repeat' split at h
  all_goals simp_all [stop, pure, Except.pure]
  rename_i h₁ _ _ h₂ _ _ h₃ _
  have := readWhole_shorter h₁
  have := readFraction_length_le h₂
  have := readExponent_length_le h₃
  grind

theorem readNumber_shorter {s r : List Char} {x : Number} (h : readNumber s = .ok (x, r)) :
    r.length < s.length := by
  unfold readNumber at h
  split at h
  · have := readNumeral_shorter h
    simp only [List.length_cons]
    omega
  · exact readNumeral_shorter h

/-! ## Strings -/

/-- Takes a code unit of four hexadecimal digits; four bytes are looked at in any case. -/
def readUnit (s : List Char) : Reading Nat s :=
  match s with
  | a :: b :: c :: d :: r =>
    match Text.unit? a b c d with
    | some n => .ok ⟨n, r, by simp only [List.length_cons]; omega⟩
    | none => .error ⟨.invalidEscape, a :: b :: c :: d :: r, 4⟩
  | s => if 4 ≤ byteLength s then .error ⟨.invalidEscape, s, 4⟩ else stop .endInString []

/-- Takes what must follow the opening half of a surrogate pair. -/
def readSecondUnit (s : List Char) : Reading Nat s :=
  match s with
  | [] => stop .endInString []
  | ['\\'] => stop .endInString []
  | '\\' :: 'u' :: r =>
    match readUnit r with
    | .ok n => .ok (n.widen (by simp only [List.length_cons]; omega))
    | .error e => .error e
  | '\\' :: r => unexpected .surrogateExpected r
  | s => unexpected .surrogateExpected s

/-- Takes what follows a backslash. -/
def readEscape (s : List Char) : Reading Char s :=
  match s with
  | [] => stop .endInString []
  | 'u' :: r =>
    match readUnit r with
    | .error e => .error e
    | .ok first =>
      if Text.isLowSurrogate first.value then stop .loneSurrogate first.rest
      else if Text.isHighSurrogate first.value then
        match readSecondUnit first.rest with
        | .error e => .error e
        | .ok second =>
          if Text.isLowSurrogate second.value then
            .ok ⟨Text.pairChar first.value second.value, second.rest, by
              have := first.shorter
              have := second.shorter
              simp only [List.length_cons]
              omega⟩
          else stop .loneSurrogate second.rest
      else .ok ⟨Char.ofNat first.value, first.rest, by
        have := first.shorter
        simp only [List.length_cons]
        omega⟩
  | c :: r =>
    match Text.shortEscape? c with
    | some d => .ok ⟨d, r, by simp⟩
    | none => unexpected .invalidEscape (c :: r)

/-- Takes the characters up to the closing quote; `taken` holds those before, last first. -/
def readChars {whole : List Char} (taken : List Char) (s : List Char)
    (h : s.length ≤ whole.length) : Reading (List Char) whole :=
  match s with
  | [] => stop .endInString []
  | '"' :: r => .ok ⟨taken.reverse, r, by simp only [List.length_cons] at h; omega⟩
  | '\\' :: r =>
    match readEscape r with
    | .error e => .error e
    | .ok c =>
      have := c.shorter
      readChars (c.value :: taken) c.rest (by simp only [List.length_cons] at h; omega)
  | c :: r =>
    if c.toNat < 0x20 then unexpected .controlCharacter (c :: r)
    else readChars (c :: taken) r (by simp only [List.length_cons] at h; omega)
termination_by s.length

/-- Takes a string after its opening quote. -/
def readString (s : List Char) : Reading String s :=
  match readChars [] s (Front.whole_le _) with
  | .error e => .error e
  | .ok cs => .ok (cs.map String.ofList)

/-! ## Values -/

/-- One more than the levels that values may nest. -/
def depthLimit : Nat := 128

/-- Takes the comma or the bracket after an item; the flag says whether an item follows. -/
def readListSeparator (s : List Char) : Reading Bool s :=
  match h : skipBlanks s with
  | [] => stop .endInList []
  | ']' :: r => .ok ⟨false, r, length_lt_of_skipBlanks h⟩
  | ',' :: r =>
    match skipBlanks r with
    | [] => stop .endInValue []
    | ']' :: t => unexpected .trailingComma (']' :: t)
    | _ => .ok ⟨true, r, length_lt_of_skipBlanks h⟩
  | c :: r => unexpected .listCommaExpected (c :: r)

/-- Takes the comma or the brace after a field; the flag says whether a field follows. -/
def readFieldSeparator (s : List Char) : Reading Bool s :=
  match h : skipBlanks s with
  | [] => stop .endInObject []
  | '\x7d' :: r => .ok ⟨false, r, length_lt_of_skipBlanks h⟩
  | ',' :: r =>
    match skipBlanks r with
    | [] => stop .endInValue []
    | '"' :: _ => .ok ⟨true, r, length_lt_of_skipBlanks h⟩
    | '\x7d' :: t => unexpected .trailingComma ('\x7d' :: t)
    | t => unexpected .keyMustBeString t
  | c :: r => unexpected .objectCommaExpected (c :: r)

/-- Takes a key and the colon after it. -/
def readKey (s : List Char) : Reading String s :=
  match h : skipBlanks s with
  | '"' :: r =>
    match readString r with
    | .error e => .error e
    | .ok key =>
      match hc : skipBlanks key.rest with
      | [] => stop .endInObject []
      | ':' :: t => .ok ⟨key.value, t, by
          have := length_lt_of_skipBlanks h
          have := length_lt_of_skipBlanks hc
          have := key.shorter
          omega⟩
      | t => unexpected .colonExpected t
  | [] => stop .endInObject []
  | t => unexpected .keyMustBeString t

mutual

/-- Takes a value with at most `depth - 1` levels of brackets. -/
def readValue (depth : Nat) (s : List Char) : Reading Value s :=
  match h : skipBlanks s with
  | [] => stop .endInValue []
  | c :: r =>
    have hr : r.length < s.length := length_lt_of_skipBlanks h
    if c = 'n' then (readWord ['u', 'l', 'l'] r).map fun t => ⟨.null, t.1, by have := t.2; omega⟩
    else if c = 't' then
      (readWord ['r', 'u', 'e'] r).map fun t => ⟨.bool true, t.1, by have := t.2; omega⟩
    else if c = 'f' then
      (readWord ['a', 'l', 's', 'e'] r).map fun t => ⟨.bool false, t.1, by have := t.2; omega⟩
    else if c = '-' ∨ c.isDigit then
      match hn : readNumber (c :: r) with
      | .error e => .error e
      | .ok (x, t) => .ok ⟨.number x, t, by
          have := readNumber_shorter hn
          simp only [List.length_cons] at this
          omega⟩
    else if c = '"' then
      match readString r with
      | .error e => .error e
      | .ok text => .ok ((text.map Value.string).widen (by omega))
    else if c = '[' then
      if depth ≤ 1 then unexpected .tooDeep (c :: r)
      else
        match h' : skipBlanks r with
        | ']' :: t => .ok ⟨.array [], t, by have := length_lt_of_skipBlanks h'; omega⟩
        | [] => stop .endInList []
        | _ =>
          match readItems (depth - 1) [] r (Front.whole_le _) with
          | .error e => .error e
          | .ok items => .ok ((items.map Value.array).widen (by omega))
    else if c = '\x7b' then
      if depth ≤ 1 then unexpected .tooDeep (c :: r)
      else
        match h' : skipBlanks r with
        | '\x7d' :: t => .ok ⟨.object [], t, by have := length_lt_of_skipBlanks h'; omega⟩
        | [] => stop .endInObject []
        | _ =>
          match readFields (depth - 1) [] r (Front.whole_le _) with
          | .error e => .error e
          | .ok fields => .ok ((fields.map Value.object).widen (by omega))
    else unexpected .valueExpected (c :: r)
termination_by (s.length, 0)

/-- Takes the items up to the closing bracket; `taken` holds those before, last first. -/
def readItems {whole : List Char} (depth : Nat) (taken : List Value) (s : List Char)
    (h : s.length ≤ whole.length) : Reading (List Value) whole :=
  match readValue depth s with
  | .error e => .error e
  | .ok v =>
    have := v.shorter
    match readListSeparator v.rest with
    | .error e => .error e
    | .ok more =>
      have := more.shorter
      if more.value then readItems depth (v.value :: taken) more.rest (by omega)
      else .ok ⟨(v.value :: taken).reverse, more.rest, by omega⟩
termination_by (s.length, 1)

/-- Takes the fields up to the closing brace; `taken` holds those before. -/
def readFields {whole : List Char} (depth : Nat) (taken : Fields Value) (s : List Char)
    (h : s.length ≤ whole.length) : Reading (Fields Value) whole :=
  match readKey s with
  | .error e => .error e
  | .ok key =>
    have := key.shorter
    match readValue depth key.rest with
    | .error e => .error e
    | .ok v =>
      have := v.shorter
      match readFieldSeparator v.rest with
      | .error e => .error e
      | .ok more =>
        have := more.shorter
        let fields := taken.insert key.value v.value
        if more.value then readFields depth fields more.rest (by omega)
        else .ok ⟨fields, more.rest, by omega⟩
termination_by (s.length, 1)

end

/-! ## Whole texts -/

/-- Nothing but white space may follow. -/
def atEnd (s : List Char) : Except Failure Unit :=
  match skipBlanks s with
  | [] => .ok ()
  | t => unexpected .trailingCharacters t

/-- Reads a text that is one value. -/
def parse (text : String) : Except Error Value :=
  let s := text.toList
  match readValue depthLimit s with
  | .error f => .error (f.toError s)
  | .ok v =>
    match atEnd v.rest with
    | .error f => .error (f.toError s)
    | .ok () => .ok v.value

/-- Reads a text that is one number. -/
def parseNumber? (text : String) : Option Number :=
  match readNumber (skipBlanks text.toList) with
  | .ok (x, rest) => if (skipBlanks rest).isEmpty then some x else none
  | .error _ => none

end JsonFilter.Json
