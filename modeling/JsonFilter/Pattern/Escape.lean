import JsonFilter.Pattern.Basic
import JsonFilter.Pattern.Error
import JsonFilter.Text.Blank
import JsonFilter.Text.Escape
import JsonFilter.Text.Front

/-!
Reading the leaves of a pattern: characters, escapes, named sets and places. With the verbose flag,
white space and comments between the parts of a pattern are skipped.
-/

namespace JsonFilter.Pattern

/-- The flags that are in force at a point of a pattern. -/
structure Flags where
  ignoreCase : Bool
  multiLine : Bool
  dotAll : Bool
  swapGreed : Bool
  crlf : Bool
  verbose : Bool
  deriving DecidableEq

/-- No flag is in force at first. -/
def Flags.initial : Flags := ⟨false, false, false, false, false, false⟩

/-- The result of reading from the front of a pattern. -/
abbrev Reading (α : Type) (s : List Char) := Except Error (Front α s)

/-! ## White space -/

/-- Skips white space and comments, if the verbose flag is in force. A comment begins with `#` and
ends with its line; the flag `comment` says whether one is being skipped. -/
def skipFrom (verbose comment : Bool) : List Char → List Char
  | [] => []
  | c :: cs =>
    if !verbose then c :: cs
    else if comment then skipFrom verbose (c ≠ '\n') cs
    else if Text.isBlank c then skipFrom verbose false cs
    else if c = '#' then skipFrom verbose true cs
    else c :: cs

theorem length_skipFrom_le (verbose comment : Bool) (s : List Char) :
    (skipFrom verbose comment s).length ≤ s.length := by
  fun_induction skipFrom verbose comment s <;> simp_all <;> omega

/-- Skips what the verbose flag makes meaningless. -/
def skip (flags : Flags) (s : List Char) : List Char := skipFrom flags.verbose false s

theorem length_skip_le (flags : Flags) (s : List Char) : (skip flags s).length ≤ s.length :=
  length_skipFrom_le flags.verbose false s

theorem length_lt_of_skip {flags : Flags} {s r : List Char} {c : Char} (h : skip flags s = c :: r) :
    r.length < s.length := by
  have h₁ := length_skip_le flags s
  rw [h] at h₁
  exact h₁

theorem length_le_of_skip {flags : Flags} {s r : List Char}
    (h : r.length ≤ (skip flags s).length) : r.length ≤ s.length + 1 := by
  have h₁ := length_skip_le flags s
  omega

/-- Looks for the next character past white space and past one mark of a comment, but not past the
text of the comment. -/
def seek (comment : Bool) : List Char → Option Char
  | [] => none
  | c :: cs =>
    if Text.isBlank c then seek comment cs
    else if !comment && c == '#' then seek true cs
    else some c

/-- The next character that counts when a dash may join two ends of a range. -/
def glance (flags : Flags) (s : List Char) : Option Char :=
  if flags.verbose then (seek false s).or s.head? else s.head?

/-! ## Characters and sets -/

/-- A range of characters given by its ends. -/
def span (low high : Char) : Nat × Nat := (low.toNat, high.toNat)

/-- One character under the flags: a letter stands for both cases if case is ignored. -/
def literal (flags : Flags) (c : Char) : Pattern :=
  match flags.ignoreCase, CharSet.otherCase? (span c c) with
  | true, some _ => .oneOf (CharSet.fold [span c c])
  | _, _ => .char c

def digitSet : CharSet := [span '0' '9']

def spaceSet : CharSet := [span '\t' '\r', span ' ' ' ']

def wordSet : CharSet := [span '0' '9', span 'A' 'Z', span '_' '_', span 'a' 'z']

/-- The sets of ASCII characters that have a name. -/
def namedSet? (name : String) : Option CharSet :=
  match name with
  | "alnum" => some [span '0' '9', span 'A' 'Z', span 'a' 'z']
  | "alpha" => some [span 'A' 'Z', span 'a' 'z']
  | "ascii" => some [span '\x00' '\x7f']
  | "blank" => some [span '\t' '\t', span ' ' ' ']
  | "cntrl" => some [span '\x00' '\x1f', span '\x7f' '\x7f']
  | "digit" => some digitSet
  | "graph" => some [span '!' '~']
  | "lower" => some [span 'a' 'z']
  | "print" => some [span ' ' '~']
  | "punct" => some [span '!' '/', span ':' '@', (0x5b, 0x60), (0x7b, 0x7e)]
  | "space" => some spaceSet
  | "upper" => some [span 'A' 'Z']
  | "word" => some wordSet
  | "xdigit" => some [span '0' '9', span 'A' 'F', span 'a' 'f']
  | _ => none

/-! ## Hexadecimal escapes -/

/-- The character of a code point. -/
def charOf? (n : Nat) : Option Char := if n.isValidChar then some (Char.ofNat n) else none

/-- Takes exactly `count` hexadecimal digits; `n` is the value of those before. -/
def readFixedHex (flags : Flags) (n : Nat) :
    (count : Nat) → (s : List Char) → Except Error (Nat × { r : List Char // r.length ≤ s.length })
  | 0, s => .ok (n, ⟨s, Front.whole_le _⟩)
  | _ + 1, [] => .error .hexFixedEnd
  | count + 1, c :: cs =>
    match Text.hexDigit? c with
    | none => .error .hexFixedDigit
    | some d => do
      let (m, ⟨r, hr⟩) ← readFixedHex flags (n * 16 + d) count (skip flags cs)
      return (m, ⟨r, length_le_of_skip hr⟩)

/-- Takes hexadecimal digits up to the closing brace; `n` is the value of those before, if any. -/
def readBraceHex (flags : Flags) (n : Option Nat) (s : List Char) :
    Except Error (Option Nat × { r : List Char // r.length ≤ s.length }) :=
  match s with
  | [] => .error .hexBraceUnclosed
  | c :: cs =>
    have h := length_skip_le flags cs
    if c = '\x7d' then .ok (n, ⟨skip flags cs, by simp only [List.length_cons]; omega⟩)
    else
      match Text.hexDigit? c with
      | none => .error .hexBraceDigit
      | some d => do
        let (m, ⟨r, hr⟩) ← readBraceHex flags (some (n.getD 0 * 16 + d)) (skip flags cs)
        return (m, ⟨r, length_le_of_skip hr⟩)
termination_by s.length

/-- Takes the digits of an escape by code point: in braces, or `count` of them. -/
def readHex (flags : Flags) (count : Nat) (s : List Char) :
    Except Error (Pattern × { r : List Char // r.length ≤ s.length }) :=
  match h : skip flags s with
  | [] => .error .hexEnd
  | c :: cs =>
    have hs : cs.length < s.length := length_lt_of_skip h
    if c = '\x7b' then
      match readBraceHex flags none (skip flags cs) with
      | .error e => .error e
      | .ok (none, _) => .error .hexBraceEmpty
      | .ok (some n, ⟨r, hr⟩) =>
        match charOf? n with
        | none => .error .hexBraceInvalid
        | some d => .ok (literal flags d, ⟨r, by have := length_skip_le flags cs; omega⟩)
    else
      match readFixedHex flags 0 count (c :: cs) with
      | .error e => .error e
      | .ok (n, ⟨r, hr⟩) =>
        match charOf? n with
        | none => .error .hexFixedInvalid
        | some d => .ok (literal flags d, ⟨r, by simp only [List.length_cons] at hr; omega⟩)

/-! ## Places with a name in braces -/

/-- What the name of a place is made of. -/
def isNameChar (c : Char) : Bool := c.isAlpha || c == '-'

/-- Takes the name of a place up to what cannot belong to it. -/
def readPlaceName (flags : Flags) (s : List Char) :
    List Char × { r : List Char // r.length ≤ s.length } :=
  match s with
  | [] => ([], ⟨[], Nat.le_refl _⟩)
  | c :: cs =>
    have := length_skip_le flags cs
    if isNameChar c then
      let (name, ⟨r, hr⟩) := readPlaceName flags (skip flags cs)
      (c :: name, ⟨r, length_le_of_skip hr⟩)
    else ([], ⟨c :: cs, Nat.le_refl _⟩)
termination_by s.length

/-- Takes the braces after `\b`, if what they hold is a name and not a count. -/
def readPlace (flags : Flags) (s : List Char) :
    Except Error (Pattern × { r : List Char // r.length ≤ s.length }) :=
  match s with
  | '\x7b' :: cs =>
    match skip flags cs with
    | [] => .error .boundaryEnd
    | d :: ds =>
      if isNameChar d then
        let (name, r) := readPlaceName flags (skip flags cs)
        match h : r.1 with
        | '\x7d' :: t =>
          let rest : { r : List Char // r.length ≤ ('\x7b' :: cs).length } := ⟨t, by
            have h₁ := length_skip_le flags cs
            have h₂ := r.2
            rw [h, List.length_cons] at h₂
            simp only [List.length_cons]
            omega⟩
          match String.ofList name with
          | "start" => .ok (.look .wordStart, rest)
          | "end" => .ok (.look .wordEnd, rest)
          | "start-half" => .ok (.look .wordStartHalf, rest)
          | "end-half" => .ok (.look .wordEndHalf, rest)
          | _ => .error .boundaryUnrecognized
        | _ => .error .boundaryUnclosed
      else .ok (.look .word, ⟨'\x7b' :: cs, Nat.le_refl _⟩)
  | s => .ok (.look .word, ⟨s, Front.whole_le _⟩)

/-! ## Escapes -/

/-- Whether a backslash before a character makes it stand for itself: ASCII, but neither a letter
nor a digit nor an angle bracket. -/
def isEscapable (c : Char) : Bool :=
  c.toNat < 0x80 && !c.isAlphanum && c != '<' && c != '>'

/-- The pattern of an escape of one letter. -/
def escapeLeaf? : Char → Option Pattern
  | 'd' => some (.oneOf digitSet)
  | 's' => some (.oneOf spaceSet)
  | 'w' => some (.oneOf wordSet)
  | 'D' => some (.oneOf digitSet.complement)
  | 'S' => some (.oneOf spaceSet.complement)
  | 'W' => some (.oneOf wordSet.complement)
  | 'a' => some (.char '\x07')
  | 'f' => some (.char '\x0c')
  | 't' => some (.char '\t')
  | 'n' => some (.char '\n')
  | 'r' => some (.char '\r')
  | 'v' => some (.char '\x0b')
  | 'A' => some (.look .start)
  | 'z' => some (.look .finish)
  | 'B' => some (.look .notWord)
  | '<' => some (.look .wordStart)
  | '>' => some (.look .wordEnd)
  | _ => none

/-- How many digits an escape by code point has without braces. -/
def hexCount? : Char → Option Nat
  | 'x' => some 2
  | 'u' => some 4
  | 'U' => some 8
  | _ => none

/-- Takes what follows a backslash. -/
def readEscape (flags : Flags) (s : List Char) : Reading Pattern s :=
  match s with
  | [] => .error .escapeEnd
  | c :: cs =>
    if c.isDigit then .error .backreference
    else if c = 'p' ∨ c = 'P' then .error .unicodeClass
    else if isEscapable c then .ok ⟨literal flags c, cs, Front.tail_lt _⟩
    else if c = 'b' then do
      let (p, ⟨r, hr⟩) ← readPlace flags cs
      return ⟨p, r, Nat.lt_succ_of_le hr⟩
    else
      match hexCount? c, escapeLeaf? c with
      | some count, _ => do
        let (p, ⟨r, hr⟩) ← readHex flags count cs
        return ⟨p, r, Nat.lt_succ_of_le hr⟩
      | none, some p => .ok ⟨p, cs, Front.tail_lt _⟩
      | none, none => .error .escapeUnrecognized

end JsonFilter.Pattern
