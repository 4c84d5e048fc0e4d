import JsonFilter.Json.Document

/-!
How far the reader of JSON goes. Whether it succeeds or fails, what it leaves or stops at is an end
of the text that it was given.
-/

namespace JsonFilter.Json

/-- Reading from `s` leaves an end of `s`, where `restOf` tells what a success leaves. -/
def Stays {α : Type} (s : List Char) (restOf : α → List Char) : Except Failure α → Prop
  | .ok v => restOf v <:+ s
  | .error f => f.rest <:+ s

section

variable {α : Type} {s t : List Char} {restOf : α → List Char} {x : Except Failure α}

theorem Stays.mono (h : Stays t restOf x) (hst : t <:+ s) : Stays s restOf x := by
  cases x with
  | ok v => exact List.IsSuffix.trans h hst
  | error f => exact List.IsSuffix.trans h hst

theorem Stays.bind {β : Type} {restOf' : β → List Char} {f : α → Except Failure β}
    (hx : Stays s restOf x) (hf : ∀ a, Stays (restOf a) restOf' (f a)) :
    Stays s restOf' (x >>= f) := by
  cases x with
  | ok a => exact (hf a).mono hx
  | error e => exact hx

theorem Stays.of_ok {v : α} (h : Stays s restOf x) (hx : x = .ok v) : restOf v <:+ s := by
  rw [hx] at h
  exact h

theorem Stays.of_error {f : Failure} (h : Stays s restOf x) (hx : x = .error f) :
    f.rest <:+ s := by
  rw [hx] at h
  exact h

theorem stays_unexpected {cause : Cause} (h : t <:+ s) :
    Stays s restOf (unexpected cause t) := h

theorem stays_stop {cause : Cause} (h : t <:+ s) : Stays s restOf (stop cause t) := h

end

theorem skipBlanks_suffix (s : List Char) : skipBlanks s <:+ s := List.dropWhile_suffix _

theorem suffix_of_skipBlanks {s r : List Char} {c : Char} (h : skipBlanks s = c :: r) : r <:+ s :=
  (List.suffix_cons c r).trans (h ▸ skipBlanks_suffix s)

/-! ## Words and numbers -/

theorem readWord_stays (word s : List Char) : Stays s Subtype.val (readWord word s) := by
  induction word generalizing s with
  | nil => exact List.suffix_rfl
  | cons w ws ih =>
    cases s with
    | nil => exact stays_stop List.nil_suffix
    | cons c cs =>
      rw [readWord]
      have hws := (ih cs).mono (List.suffix_cons c cs)
      split
      · split
        · next heq => exact hws.of_ok heq
        · next heq => exact hws.of_error heq
      · exact stays_unexpected List.suffix_rfl

theorem excess?_suffix {n : Nat} {s left : List Char} (h : excess? n s = some left) : left <:+ s := by
  induction s generalizing n with
  | nil => cases h
  | cons c cs ih =>
    rw [excess?] at h
    split at h
    · cases h
      exact List.suffix_cons c left
    · exact (ih h).trans (List.suffix_cons c cs)

theorem readWhole_stays (s : List Char) : Stays s Prod.snd (readWhole s) := by
  unfold readWhole
  split
  · exact stays_stop List.nil_suffix
  · rename_i c cs
    have hcs : cs <:+ c :: cs := List.suffix_cons c cs
    split
    · split
      · split
        · exact stays_unexpected hcs
        · exact hcs
      · exact hcs
    · split
      · exact (List.dropWhile_suffix _).trans hcs
      · exact stays_unexpected List.suffix_rfl

theorem readFraction_stays (s : List Char) : Stays s Prod.snd (readFraction s) := by
  unfold readFraction
  split
  · rename_i cs
    have hcs : cs <:+ '.' :: cs := List.suffix_cons '.' cs
    split
    · split
      · exact stays_stop List.nil_suffix
      · exact stays_unexpected hcs
    · exact (List.dropWhile_suffix _).trans hcs
  · exact List.suffix_rfl

theorem scanSign_suffix (s : List Char) : (Numeral.scanSign s).2 <:+ s := by
  unfold Numeral.scanSign
  split
  · exact List.suffix_cons _ _
  · exact List.suffix_cons _ _
  · exact List.suffix_rfl

theorem readExponent_stays (isZero : Bool) (s : List Char) :
    Stays s Prod.snd (readExponent isZero s) := by
  unfold readExponent
  split
  · exact List.suffix_rfl
  · rename_i c cs
    have hsign : (Numeral.scanSign cs).2 <:+ c :: cs :=
      (scanSign_suffix cs).trans (List.suffix_cons c cs)
    split
    · dsimp only
      split
      · split
        · exact stays_stop List.nil_suffix
        · exact stays_unexpected hsign
      · have hrest := (List.dropWhile_suffix Char.isDigit).trans hsign
        split
        · rename_i left hexcess
          split
          · exact hrest
          · obtain ⟨taken, htaken⟩ := excess?_suffix hexcess
            refine stays_stop (List.IsSuffix.trans ⟨taken, ?_⟩ hsign)
            rw [← List.append_assoc, htaken, List.takeWhile_append_dropWhile]
        · exact hrest
    · exact List.suffix_rfl

theorem readNumeral_stays (negative : Bool) (s : List Char) :
    Stays s Prod.snd (readNumeral negative s) := by
  unfold readNumeral
  refine (readWhole_stays s).bind fun whole => ?_
  refine (readFraction_stays whole.2).bind fun fraction => ?_
  refine (readExponent_stays _ fraction.2).bind fun exponent => ?_
  dsimp only
  split
  · exact stays_stop List.suffix_rfl
  · exact List.suffix_rfl

theorem readNumber_stays (s : List Char) : Stays s Prod.snd (readNumber s) := by
  unfold readNumber
  split
  · exact (readNumeral_stays true _).mono (List.suffix_cons _ _)
  · exact readNumeral_stays false s

/-! ## Strings -/

theorem readUnit_stays (s : List Char) : Stays s Front.rest (readUnit s) := by
  unfold readUnit
  split
  · split
    · exact ⟨[_, _, _, _], rfl⟩
    · exact List.suffix_rfl
  · split
    · exact List.suffix_rfl
    · exact stays_stop List.nil_suffix

theorem readSecondUnit_stays (s : List Char) : Stays s Front.rest (readSecondUnit s) := by
  unfold readSecondUnit
  split
  · exact stays_stop List.nil_suffix
  · exact stays_stop List.nil_suffix
  · rename_i r
    have hunit := (readUnit_stays r).mono (⟨['\\', 'u'], rfl⟩ : r <:+ '\\' :: 'u' :: r)
    split
    · next heq => exact hunit.of_ok heq
    · next heq => exact hunit.of_error heq
  · exact stays_unexpected (List.suffix_cons _ _)
  · exact stays_unexpected List.suffix_rfl

theorem readEscape_stays (s : List Char) : Stays s Front.rest (readEscape s) := by
  unfold readEscape
  split
  · exact stays_stop List.nil_suffix
  · rename_i r
    have hunit := (readUnit_stays r).mono (List.suffix_cons 'u' r)
    split
    · next hfirst => exact hunit.of_error hfirst
    · next first hfirst =>
      have hunit := hunit.of_ok hfirst
      split
      · exact hunit
      · split
        · have hsecond := (readSecondUnit_stays first.rest).mono hunit
          split
          · next heq => exact hsecond.of_error heq
          · next heq =>
            split
            · exact hsecond.of_ok heq
            · exact hsecond.of_ok heq
        · exact hunit
  · split
    · exact List.suffix_cons _ _
    · exact stays_unexpected List.suffix_rfl

theorem readChars_stays {whole : List Char} (taken s : List Char) (h : s.length ≤ whole.length) :
    Stays s Front.rest (readChars taken s h : Reading (List Char) whole) := by
  unfold readChars
  split
  · exact stays_stop List.nil_suffix
  · exact List.suffix_cons _ _
  · rename_i r _
    have hescape := (readEscape_stays r).mono (List.suffix_cons '\\' r)
    split
    · next heq => exact hescape.of_error heq
    · next c heq =>
      have hescape := hescape.of_ok heq
      have := c.shorter
      exact (readChars_stays (c.value :: taken) c.rest _).mono hescape
  · rename_i c r _ _ _
    split
    · exact stays_unexpected List.suffix_rfl
    · exact (readChars_stays (c :: taken) r _).mono (List.suffix_cons c r)
termination_by s.length
decreasing_by
  all_goals
    subst_vars
    simp only [List.length_cons]
    omega

theorem readString_stays (s : List Char) : Stays s Front.rest (readString s) := by
  have hchars := readChars_stays [] s (Front.whole_le s)
  unfold readString
  split
  · next heq => exact hchars.of_error heq
  · next heq => exact hchars.of_ok heq

/-! ## Values -/

theorem readListSeparator_stays (s : List Char) : Stays s Front.rest (readListSeparator s) := by
  unfold readListSeparator
  split
  · exact stays_stop List.nil_suffix
  · rename_i h
    exact suffix_of_skipBlanks h
  · rename_i r h
    have hr : r <:+ s := suffix_of_skipBlanks h
    split
    · exact stays_stop List.nil_suffix
    · rename_i t ht
      exact stays_unexpected ((ht ▸ skipBlanks_suffix r).trans hr)
    · exact hr
  · rename_i h
    exact stays_unexpected (h ▸ skipBlanks_suffix s)

theorem readFieldSeparator_stays (s : List Char) : Stays s Front.rest (readFieldSeparator s) := by
  unfold readFieldSeparator
  split
  · exact stays_stop List.nil_suffix
  · rename_i h
    exact suffix_of_skipBlanks h
  · rename_i r h
    have hr : r <:+ s := suffix_of_skipBlanks h
    split
    · exact stays_stop List.nil_suffix
    · exact hr
    · rename_i t ht
      exact stays_unexpected ((ht ▸ skipBlanks_suffix r).trans hr)
    · exact stays_unexpected ((skipBlanks_suffix r).trans hr)
  · rename_i h
    exact stays_unexpected (h ▸ skipBlanks_suffix s)

theorem readKey_stays (s : List Char) : Stays s Front.rest (readKey s) := by
  unfold readKey
  split
  · rename_i r h
    have hkey := (readString_stays r).mono (suffix_of_skipBlanks h)
    split
    · next heq => exact hkey.of_error heq
    · next key heq =>
      have hkey := hkey.of_ok heq
      split
      · exact stays_stop List.nil_suffix
      · rename_i t ht
        exact (suffix_of_skipBlanks ht).trans hkey
      · exact stays_unexpected ((skipBlanks_suffix key.rest).trans hkey)
  · exact stays_stop List.nil_suffix
  · exact stays_unexpected (skipBlanks_suffix s)

mutual

theorem readValue_stays (depth : Nat) (s : List Char) : Stays s Front.rest (readValue depth s) := by
  unfold readValue
  split
  · exact stays_stop List.nil_suffix
  · rename_i c r h
    have hr : r <:+ s := suffix_of_skipBlanks h
    have hlength : r.length < s.length := length_lt_of_skipBlanks h
    have hword : ∀ (word : List Char) (v : Value),
        Stays s Front.rest ((readWord word r).map fun t =>
          (⟨v, t.1, Nat.lt_of_le_of_lt t.2 hlength⟩ : Front Value s)) := by
      intro word v
      have hword := (readWord_stays word r).mono hr
      cases hw : readWord word r <;> rw [hw] at hword <;> exact hword
    have hhere : c :: r <:+ s := h ▸ skipBlanks_suffix s
    split
    · exact hword _ _
    split
    · exact hword _ _
    split
    · exact hword _ _
    split
    · have hnumber := (readNumber_stays (c :: r)).mono hhere
      split
      · next heq => exact hnumber.of_error heq
      · next heq => exact hnumber.of_ok heq
    split
    · have hstring := (readString_stays r).mono hr
      split
      · next heq => exact hstring.of_error heq
      · next heq => exact hstring.of_ok heq
    split
    · split
      · exact stays_unexpected hhere
      · split
        · rename_i ht
          exact (suffix_of_skipBlanks ht).trans hr
        · exact stays_stop List.nil_suffix
        · have hitems := (readItems_stays (depth - 1) [] r (Front.whole_le r)).mono hr
          split
          · next heq => exact hitems.of_error heq
          · next heq => exact hitems.of_ok heq
    split
    · split
      · exact stays_unexpected hhere
      · split
        · rename_i ht
          exact (suffix_of_skipBlanks ht).trans hr
        · exact stays_stop List.nil_suffix
        · have hfields := (readFields_stays (depth - 1) [] r (Front.whole_le r)).mono hr
          split
          · next heq => exact hfields.of_error heq
          · next heq => exact hfields.of_ok heq
    · exact stays_unexpected hhere
termination_by (s.length, 0)

theorem readItems_stays {whole : List Char} (depth : Nat) (taken : List Value) (s : List Char)
    (h : s.length ≤ whole.length) :
    Stays s Front.rest (readItems depth taken s h : Reading (List Value) whole) := by
  have hvalue := readValue_stays depth s
  unfold readItems
  split
  · next heq => exact hvalue.of_error heq
  · next v heq =>
    have hvalue := hvalue.of_ok heq
    have := v.shorter
    have hseparator := (readListSeparator_stays v.rest).mono hvalue
    dsimp only
    split
    · next heq => exact hseparator.of_error heq
    · next more heq =>
      have hseparator := hseparator.of_ok heq
      have := more.shorter
      split
      · exact (readItems_stays depth (v.value :: taken) more.rest _).mono hseparator
      · exact hseparator
termination_by (s.length, 1)

theorem readFields_stays {whole : List Char} (depth : Nat) (taken : Fields Value) (s : List Char)
    (h : s.length ≤ whole.length) :
    Stays s Front.rest (readFields depth taken s h : Reading (Fields Value) whole) := by
  have hkey := readKey_stays s
  unfold readFields
  split
  · next heq => exact hkey.of_error heq
  · next key heq =>
    have hkey := hkey.of_ok heq
    have := key.shorter
    have hvalue := (readValue_stays depth key.rest).mono hkey
    dsimp only
    split
    · next heq => exact hvalue.of_error heq
    · next v heq =>
      have hvalue := hvalue.of_ok heq
      have := v.shorter
      have hseparator := (readFieldSeparator_stays v.rest).mono hvalue
      split
      · next heq => exact hseparator.of_error heq
      · next more heq =>
        have hseparator := hseparator.of_ok heq
        have := more.shorter
        split
        · exact (readFields_stays depth _ more.rest _).mono hseparator
        · exact hseparator
termination_by (s.length, 1)

end

end JsonFilter.Json
