import JsonFilter.Pattern.Class
import JsonFilter.Text.Letter

/-!
Reading patterns. Flags hold to the end of the group in which they are set. Groups and the pattern
that comes out nest at most fifty levels deep.
-/

namespace JsonFilter.Pattern

/-- How deep patterns nest. -/
def maxDepth : Nat := 50

/-- The largest count of a repetition. -/
def maxCount : Nat := Nat.pow 2 32 - 1

/-- What reading carries along: the flags in force and the names, if any, of the groups that were
opened, last first. -/
structure State where
  flags : Flags
  opened : List (Option String)

/-- The number of the group that is opened next. -/
def State.number (state : State) : Nat := state.opened.length + 1

/-- The state after a group was opened. -/
def State.enter (state : State) (name : Option String) : State :=
  { state with opened := name :: state.opened }

theorem State.length_lt_of_skip {state : State} {s r : List Char} {c : Char}
    (h : skip state.flags s = c :: r) : r.length < s.length :=
  Pattern.length_lt_of_skip h

/-- A part of a pattern that was read, maybe without taking a character. -/
structure Part (α : Type) (whole : List Char) where
  value : α
  state : State
  rest : List Char
  within : rest.length ≤ whole.length

/-- What is left of a text after some of it. -/
abbrev Rest (s : List Char) := { r : List Char // r.length ≤ s.length }

/-- What is left after what the verbose flag makes meaningless. -/
def skipRest (flags : Flags) (s : List Char) : Rest s := ⟨skip flags s, length_skip_le flags s⟩

/-- What follows a given character at the front of a text. -/
def strip? (c : Char) (s : List Char) : Option { r : List Char // r.length < s.length } :=
  match s with
  | [] => none
  | d :: r => if d = c then some ⟨r, Front.tail_lt _⟩ else none

/-! ## Groups -/

/-- The flags with one of them changed; `u` is known and means nothing. -/
def Flags.set? (flags : Flags) (c : Char) (value : Bool) : Option Flags :=
  match c with
  | 'i' => some { flags with ignoreCase := value }
  | 'm' => some { flags with multiLine := value }
  | 's' => some { flags with dotAll := value }
  | 'U' => some { flags with swapGreed := value }
  | 'R' => some { flags with crlf := value }
  | 'x' => some { flags with verbose := value }
  | 'u' => some flags
  | _ => none

/-- Takes flags up to a colon or a closing parenthesis, which stay. -/
def readFlags (flags : Flags) (negated dangling : Bool) (seen : List Char) :
    (s : List Char) → Except Error (Flags × Rest s)
  | [] => .error .flagsUnclosed
  | c :: cs =>
    if c = ':' ∨ c = ')' then
      if dangling then .error .flagNegationDangling
      else .ok (flags, ⟨c :: cs, Nat.le_refl _⟩)
    else if c = '-' then
      if negated then .error .flagNegationRepeated
      else do
        let (out, ⟨r, hr⟩) ← readFlags flags true true seen cs
        return (out, ⟨r, Front.le_cons hr⟩)
    else
      match flags.set? c (!negated) with
      | none => .error .flagUnrecognized
      | some next =>
        if seen.contains c then .error .flagDuplicate
        else do
          let (out, ⟨r, hr⟩) ← readFlags next negated false (c :: seen) cs
          return (out, ⟨r, Front.le_cons hr⟩)

/-- What the first character of a group's name can be. -/
def isNameStart (c : Char) : Bool := c == '_' || Text.isAlphabetic c

/-- What the other characters of a group's name can be. -/
def isNamePart (c : Char) : Bool :=
  c == '_' || c == '.' || c == '[' || c == ']' || Text.isAlphabetic c || Text.isNumeric c

/-- Takes the characters of a name up to the closing angle bracket. -/
def readName (first : Bool) : (s : List Char) → Except Error (List Char × Rest s)
  | [] => .error (if first then .nameMissing else .nameUnclosed)
  | c :: cs =>
    if c = '>' then .ok ([], ⟨cs, Front.tail_le _⟩)
    else if if first then isNameStart c else isNamePart c then do
      let (name, ⟨r, hr⟩) ← readName false cs
      return (c :: name, ⟨r, Front.le_cons hr⟩)
    else .error .nameInvalid

/-- Takes the name of a group, which no group before has. -/
def readGroupName (opened : List (Option String)) (s : List Char) : Except Error (String × Rest s) := do
  let (chars, r) ← readName true s
  let name := String.ofList chars
  if chars.isEmpty then .error .nameEmpty
  else if opened.contains (some name) then .error .duplicateName
  else return (name, r)

/-- Whether a group would look around instead of taking characters. -/
def looksAround (s : List Char) : Bool :=
  [['?', '='], ['?', '!'], ['?', '<', '='], ['?', '<', '!']].any fun mark => mark.isPrefixOf s

/-- What follows the mark of a group with a name. -/
def stripNameMark? (s : List Char) : Option { r : List Char // r.length < s.length } :=
  match s with
  | '?' :: 'P' :: '<' :: r => some ⟨r, by simp only [List.length_cons]; omega⟩
  | '?' :: '<' :: r => some ⟨r, by simp only [List.length_cons]; omega⟩
  | _ => none

/-! ## Repetitions -/

/-- Takes decimal digits. -/
def readDigits (flags : Flags) (s : List Char) : List Char × Rest s :=
  match s with
  | [] => ([], ⟨[], Nat.le_refl _⟩)
  | c :: cs =>
    have := length_skip_le flags cs
    if c.isDigit then
      let (digits, ⟨r, hr⟩) := readDigits flags (skip flags cs)
      (c :: digits, ⟨r, length_le_of_skip hr⟩)
    else ([], ⟨c :: cs, Nat.le_refl _⟩)
termination_by s.length

/-- Skips white space after a number. -/
def skipAfterDigits (flags : Flags) (s : List Char) : Rest s :=
  match s with
  | [] => ⟨[], Nat.le_refl _⟩
  | c :: cs =>
    have := length_skip_le flags cs
    if Text.isBlank c then
      let ⟨r, hr⟩ := skipAfterDigits flags (skip flags cs)
      ⟨r, length_le_of_skip hr⟩
    else ⟨c :: cs, Nat.le_refl _⟩
termination_by s.length

/-- Takes a decimal number with white space around it. -/
def readDecimal (flags : Flags) (s : List Char) : Except Error (Nat × Rest s) :=
  let start := s.dropWhile Text.isBlank
  have h := (List.dropWhile_sublist Text.isBlank (l := s)).length_le
  let (digits, ⟨after, h₁⟩) := readDigits flags start
  let ⟨r, h₂⟩ := skipAfterDigits flags after
  if digits.isEmpty then .error .decimalMissing
  else
    let n := digits.foldl (fun n c => 10 * n + (c.toNat - '0'.toNat)) 0
    if maxCount < n then .error .decimalInvalid
    else .ok (n, ⟨r, by simp only [start] at h₁; omega⟩)

/-- Takes the upper end of a count after its comma; without a number there is none. -/
def readMaximum (flags : Flags) (s : List Char) : Except Error (Option Nat × Rest s) :=
  match h : skip flags s with
  | [] => .error .countCommaUnclosed
  | '\x7d' :: r => .ok (none, ⟨'\x7d' :: r, by rw [← h]; exact length_skip_le flags s⟩)
  | c :: r =>
    match readDecimal flags (c :: r) with
    | .error e => .error e
    | .ok (n, ⟨t, ht⟩) =>
      if t.isEmpty then .error .countMaxUnclosed
      else .ok (some n, ⟨t, by
        have := length_skip_le flags s
        rw [h] at this
        omega⟩)

/-- Takes a count after its opening brace: how often at least and at most. -/
def readCount (flags : Flags) (s : List Char) : Except Error ((Nat × Option Nat) × Rest s) := do
  let start := skip flags s
  have h₀ := length_skip_le flags s
  if start.isEmpty then .error .countUnclosed
  let (min, ⟨afterMin, h₁⟩) ← readDecimal flags start
  let (max, ⟨afterMax, h₂⟩) ← show Except Error (Option Nat × Rest afterMin) from
    match afterMin with
    | [] => .error .countMinUnclosed
    | ',' :: cs => do
      let (max, ⟨r, hr⟩) ← readMaximum flags cs
      return (max, ⟨r, Front.le_cons hr⟩)
    | t => .ok (some min, ⟨t, Front.whole_le _⟩)
  match afterMax, h₂ with
  | '\x7d' :: cs, h₂ =>
    let greedy := skip flags cs
    have h₃ := length_skip_le flags cs
    have h₄ : (if greedy.head? = some '?' then greedy.drop 1 else greedy).length ≤ cs.length := by
      split
      · simp only [List.length_drop, greedy]
        omega
      · exact h₃
    if max.any (· < min) then .error .countRange
    else
      return ((min, max), ⟨if greedy.head? = some '?' then greedy.drop 1 else greedy, by
        simp only [List.length_cons, start] at *
        omega⟩)
  | _, _ => .error .countInvalid

/-! ## Patterns -/

/-- The place where a line begins under the flags. -/
def lineStartLook (flags : Flags) : Look :=
  if flags.multiLine then if flags.crlf then .lineStartAny else .lineStart else .start

/-- The place where a line ends under the flags. -/
def lineEndLook (flags : Flags) : Look :=
  if flags.multiLine then if flags.crlf then .lineEndAny else .lineEnd else .finish

/-- What a dot stands for under the flags. -/
def dotSet (flags : Flags) : CharSet :=
  if flags.dotAll then [(0, CharSet.top)]
  else if flags.crlf then CharSet.complement [span '\n' '\n', span '\r' '\r']
  else CharSet.complement [span '\n' '\n']

/-- Takes one character or escape outside brackets. -/
def readSingle (flags : Flags) (s : List Char) : Reading Pattern s :=
  match s with
  | [] => .error .escapeEnd
  | c :: cs =>
    if c = '\\' then do
      let p ← readEscape flags cs
      return p.widen (Front.tail_le _)
    else if c = '.' then .ok ⟨.oneOf (dotSet flags), cs, Front.tail_lt _⟩
    else if c = '^' then .ok ⟨.look (lineStartLook flags), cs, Front.tail_lt _⟩
    else if c = '$' then .ok ⟨.look (lineEndLook flags), cs, Front.tail_lt _⟩
    else .ok ⟨literal flags c, cs, Front.tail_lt _⟩

/-- How often a sign lets its operand occur. -/
def signCount? : Char → Option (Nat × Option Nat)
  | '?' => some (0, some 1)
  | '*' => some (0, none)
  | '+' => some (1, none)
  | _ => none

/-- Skips the question mark after a repetition, which changes no answer. -/
def skipLazy : (s : List Char) → Rest s
  | '?' :: cs => ⟨cs, Front.tail_le _⟩
  | s => ⟨s, Front.whole_le _⟩

mutual

/-- Takes a choice of rows up to the end or to a closing parenthesis, which stays. -/
def readChoice (depth : Nat) (state : State) (s : List Char) : Except Error (Part Pattern s) :=
  if maxDepth < depth then .error .tooDeep
  else readRows s (depth + 1) [] [] state s (Front.whole_le _)
termination_by 3 * s.length + 1

/-- The rest of a choice: `rows` and `parts` hold what came before, last first. -/
def readRows (whole : List Char) (depth : Nat) (rows parts : List Pattern) (state : State)
    (s : List Char) (h : s.length ≤ whole.length) : Except Error (Part Pattern whole) :=
  match hs : skip state.flags s with
  | [] => .ok ⟨choice (row parts.reverse :: rows).reverse, state, [], Nat.zero_le _⟩
  | c :: cs =>
    have h₁ := State.length_lt_of_skip hs
    if c = '(' then do
      let ⟨value, after, r, h₂⟩ ← readGroup depth state cs
      match strip? ')' r with
      | none => .error .groupUnclosed
      | some ⟨t, h₃⟩ =>
        match value with
        | some p =>
          readRows whole depth rows (p :: parts) ⟨state.flags, after.opened⟩ t (by omega)
        | none => readRows whole depth rows parts after t (by omega)
    else if c = ')' then
      if depth ≤ 1 then .error .groupUnopened
      else .ok ⟨choice (row parts.reverse :: rows).reverse, state, c :: cs, by
        simp only [List.length_cons]
        omega⟩
    else if c = '|' then
      readRows whole depth (row parts.reverse :: rows) [] state cs (by omega)
    else if c = '[' then do
      let ⟨set, r, h₂⟩ ← readClass state.flags cs
      readRows whole depth rows (set :: parts) state r (by omega)
    else if c = '\x7b' then
      match parts with
      | [] => .error .countOfNothing
      | p :: ps => do
        let ((min, max), ⟨r, hr⟩) ← readCount state.flags cs
        readRows whole depth rows (repeated min max p :: ps) state r (by omega)
    else
      match signCount? c with
      | some (min, max) =>
        match parts with
        | [] => .error .repetitionOfNothing
        | p :: ps =>
          let ⟨r, hr⟩ := skipLazy cs
          readRows whole depth rows (repeated min max p :: ps) state r (by omega)
      | none => do
        let ⟨p, r, h₂⟩ ← readSingle state.flags (c :: cs)
        have h₃ : r.length < cs.length + 1 := h₂
        readRows whole depth rows (p :: parts) state r (by omega)
termination_by 3 * s.length

/-- Takes a group after its opening parenthesis, up to the closing one, which stays; flags alone
are no pattern. -/
def readGroup (depth : Nat) (state : State) (s : List Char) :
    Except Error (Part (Option Pattern) s) :=
  let ⟨start, h₀⟩ := skipRest state.flags s
  if looksAround start then .error .lookAround
  else
    match stripNameMark? start with
    | some ⟨r, hr⟩ => do
      let (name, ⟨t, ht⟩) ← readGroupName state.opened r
      let ⟨sub, after, u, h₁⟩ ← readChoice depth (state.enter (some name)) t
      return ⟨some (.group state.number (some name) sub), after, u, by omega⟩
    | none =>
      match strip? '?' start with
      | some ⟨cs, h₁⟩ =>
        if cs.isEmpty then .error .groupQuestionUnclosed
        else do
          let (flags, ⟨r, hr⟩) ← readFlags state.flags false false [] cs
          match strip? ':' r with
          | some ⟨t, h₂⟩ => do
            let ⟨sub, after, u, h₃⟩ ← readChoice depth ⟨flags, state.opened⟩ t
            return ⟨some sub, after, u, by omega⟩
          | none =>
            if cs.head? = some ')' then .error .flagsEmpty
            else return ⟨none, ⟨flags, state.opened⟩, r, by omega⟩
      | none => do
        let ⟨sub, after, u, h₁⟩ ← readChoice depth (state.enter none) start
        return ⟨some (.group state.number none sub), after, u, by omega⟩
termination_by 3 * s.length + 2

end

/-- The pattern that a text stands for. -/
def parse (source : String) : Except Error Pattern := do
  let p ← readChoice 0 ⟨.initial, []⟩ source.toList
  if !p.value.nestsWithin maxDepth then .error .tooDeep
  else if p.value.isAffordable then return p.value
  else .error .tooBig

end JsonFilter.Pattern
