import JsonFilter.Pattern.Escape

/-!
Reading character classes: sets in brackets, made of characters, ranges, escapes and named sets.
-/

namespace JsonFilter.Pattern

/-- Takes a named set after its opening bracket, if one is written there. -/
def readNamedSet? (s : List Char) : Option (Front CharSet s) :=
  match s with
  | ':' :: cs =>
    let negated := cs.head? == some '^'
    let name := (if negated then cs.drop 1 else cs)
    match h : name.dropWhile (· ≠ ':') with
    | ':' :: ']' :: r => do
      let set ← namedSet? (String.ofList (name.takeWhile (· ≠ ':')))
      return ⟨if negated then set.complement else set, r, by
        have h₁ := (List.dropWhile_sublist (· ≠ ':') (l := name)).length_le
        have h₂ : name.length ≤ cs.length := by
          simp only [name]
          split <;> simp
        rw [h] at h₁
        simp only [List.length_cons] at h₁ ⊢
        omega⟩
    | _ => none
  | _ => none

/-- Takes one character or escape of a class. -/
def readClassItem (flags : Flags) (s : List Char) : Reading Pattern s :=
  match s with
  | [] => .error .classUnclosed
  | '\\' :: cs => do
    let p ← readEscape flags cs
    return p.widen (Front.tail_le _)
  | c :: cs => .ok ⟨.char c, cs, Front.tail_lt _⟩

/-- The set of an item that stands alone. -/
def itemSet : Pattern → Except Error CharSet
  | .char c => .ok [span c c]
  | .oneOf set => .ok set
  | _ => .error .classItem

/-- The character of an item that ends a range. -/
def itemChar : Pattern → Except Error Char
  | .char c => .ok c
  | _ => .error .classRangeItem

/-- Takes an item, or a range from one item to another. -/
def readClassRange (flags : Flags) (s : List Char) : Reading CharSet s := do
  let ⟨first, r, h₁⟩ ← readClassItem flags s
  match h : skip flags r with
  | [] => .error .classUnclosedAfterItem
  | c :: cs =>
    have h₂ := length_lt_of_skip h
    let next := glance flags cs
    if c ≠ '-' ∨ next = some ']' ∨ next = some '-' then
      let set ← itemSet first
      return ⟨set, c :: cs, by simp only [List.length_cons]; omega⟩
    else
      match h' : skip flags cs with
      | [] => .error .classUnclosedAfterDash
      | d :: ds =>
        have h₃ := length_lt_of_skip h'
        let ⟨last, t, h₄⟩ ← readClassItem flags (d :: ds)
        let low ← itemChar first
        let high ← itemChar last
        if high < low then .error .classRange
        else
          return ⟨[span low high], t, by
            simp only [List.length_cons] at h₄
            omega⟩

/-- Takes the items of a class up to its closing bracket; `set` holds those before. -/
def readClassItems (whole : List Char) (flags : Flags) (negated : Bool) (set : CharSet)
    (s : List Char) (h : s.length ≤ whole.length) : Reading Pattern whole :=
  have h₁ := length_skip_le flags s
  match hs : skip flags s with
  | [] => .error .classUnclosed
  | '[' :: cs =>
    match readNamedSet? cs with
    | none => .error .classNested
    | some named =>
      have h₂ := named.shorter
      have h₃ : cs.length + 1 ≤ s.length := length_lt_of_skip hs
      readClassItems whole flags negated (set ++ named.value) named.rest (by omega)
  | ']' :: cs =>
    let all := CharSet.ofRanges set
    let folded := if flags.ignoreCase then all.fold else all
    .ok ⟨.oneOf (if negated then folded.complement else folded), cs, by
      have h₃ : cs.length + 1 ≤ s.length := length_lt_of_skip hs
      omega⟩
  | '&' :: '&' :: _ => .error .classIntersection
  | '-' :: '-' :: _ => .error .classDifference
  | '~' :: '~' :: _ => .error .classSymmetricDifference
  | c :: cs => do
    let range ← readClassRange flags (c :: cs)
    have h₂ := range.shorter
    have h₃ : cs.length + 1 ≤ s.length := length_lt_of_skip hs
    have h₄ : range.rest.length < s.length := by simp only [List.length_cons] at h₂; omega
    readClassItems whole flags negated (set ++ range.value) range.rest (by omega)
termination_by s.length

/-- Takes the dashes at the front of a class, each of which stands for itself. -/
def readDashes (flags : Flags) (set : CharSet) (s : List Char) :
    Except Error (CharSet × { r : List Char // r.length ≤ s.length }) :=
  match s with
  | '-' :: cs =>
    have := length_skip_le flags cs
    if (skip flags cs).isEmpty then .error .classUnclosedAfterDash
    else do
      let (all, ⟨r, hr⟩) ← readDashes flags (span '-' '-' :: set) (skip flags cs)
      return (all, ⟨r, length_le_of_skip hr⟩)
  | s => .ok (set, ⟨s, Front.whole_le _⟩)
termination_by s.length

/-- Takes a class after its opening bracket: a caret that negates it, dashes, a closing bracket
that stands for itself, and the items. -/
def readClass (flags : Flags) (s : List Char) : Reading Pattern s := do
  let first := skip flags s
  have h₁ : first.length ≤ s.length := length_skip_le flags s
  if first.isEmpty then .error .classUnclosed
  let negated := first.head? == some '^'
  let second := if negated then skip flags (first.drop 1) else first
  have h₂ : second.length ≤ first.length := by
    simp only [second]
    split
    · exact Nat.le_trans (length_skip_le flags _) (by simp)
    · exact Nat.le_refl _
  if second.isEmpty then .error .classUnclosedAfterNegation
  let (set, ⟨third, h₃⟩) ← readDashes flags [] second
  match third, h₃ with
  | ']' :: cs, h₃ =>
    if set.isEmpty then
      let fourth := skip flags cs
      if fourth.isEmpty then .error .classUnclosedAfterBracket
      readClassItems s flags negated [span ']' ']'] fourth (by
        have := length_skip_le flags cs
        simp only [List.length_cons, fourth] at *
        omega)
    else readClassItems s flags negated set (']' :: cs) (by omega)
  | third, h₃ => readClassItems s flags negated set third (by omega)

end JsonFilter.Pattern
