import JsonFilter.Proofs.Token.Lexemes
import Mathlib.Data.List.Basic

/-!
String literals. Between its quotes a string may be written in many ways, character by character: as
it is, by a short escape, or by one or two code units. Each of them is read as the string, and where
what stands behind an opening quote is not of this kind, no token begins at the quote.
-/

namespace JsonFilter

namespace Text

/-- The short escapes: what stands behind the backslash, and the character it means. -/
def shortEscapes : List (Char × Char) :=
  [('"', '"'), ('\\', '\\'), ('/', '/'), ('b', '\x08'), ('f', '\x0c'), ('n', '\n'), ('r', '\r'),
    ('t', '\t')]

/-- The digits of a code unit: four of them, hexadecimal, each in either case. -/
def IsUnit (n : Nat) (digits : List Char) : Prop :=
  n < 0x10000 ∧ digits.map Char.toLower =
    [n / 0x1000, n / 0x100 % 16, n / 0x10 % 16, n % 16].map Nat.digitChar

theorem shortEscape?_eq_some_iff {letter c : Char} :
    shortEscape? letter = some c ↔ (letter, c) ∈ shortEscapes := by
  unfold shortEscape?
  split <;> simp_all [shortEscapes, eq_comm]

/-! ## Code units -/

theorem toLower_of_le {c : Char} (h : 128 ≤ c.toNat) : c.toLower = c := by
  unfold Char.toLower
  rw [dif_neg]
  rintro ⟨_, hle⟩
  have : c.toNat ≤ 'Z'.toNat := hle
  have : 'Z'.toNat < 128 := by decide
  omega

theorem hexDigit?_of_le {c : Char} (h : 128 ≤ c.toNat) : hexDigit? c = none := by
  have hle : ∀ d : Char, d.toNat < 128 → ¬c ≤ d := fun d hd hcd => by
    have : c.toNat ≤ d.toNat := hcd
    omega
  unfold hexDigit?
  rw [if_neg fun hc => hle '9' (by decide) hc.2, if_neg fun hc => hle 'f' (by decide) hc.2,
    if_neg fun hc => hle 'F' (by decide) hc.2]

/-- A hexadecimal digit is one of the sixteen, in either case. -/
theorem hexDigit?_eq_some_iff {c : Char} {n : Nat} :
    hexDigit? c = some n ↔ n < 16 ∧ c.toLower = Nat.digitChar n := by
  by_cases hc : c.toNat < 128
  · have hascii : ∀ i < 128, ((hexDigit? (Char.ofNat i)).all fun n => decide (n < 16)) = true ∧
        ∀ n < 16, hexDigit? (Char.ofNat i) = some n ↔
          (Char.ofNat i).toLower = Nat.digitChar n := by decide
    obtain ⟨hlt, hiff⟩ := hascii c.toNat hc
    rw [Char.ofNat_toNat] at hlt hiff
    constructor
    · intro h
      rw [h, Option.all_some, decide_eq_true_eq] at hlt
      exact ⟨hlt, (hiff n hlt).mp h⟩
    · rintro ⟨hn, h⟩
      exact (hiff n hn).mpr h
  · have hle := Nat.le_of_not_lt hc
    rw [hexDigit?_of_le hle, toLower_of_le hle]
    refine iff_of_false (fun h => by cases h) ?_
    rintro ⟨hn, rfl⟩
    have hdigit : ∀ i < 16, (Nat.digitChar i).toNat < 128 := by decide
    exact hc (hdigit n hn)

/-- A code unit is read from its four digits. -/
theorem unit?_eq_some_iff {a b c d : Char} {n : Nat} :
    unit? a b c d = some n ↔ IsUnit n [a, b, c, d] := by
  simp only [unit?, Option.bind_eq_bind, Option.bind_eq_some_iff, hexDigit?_eq_some_iff, IsUnit,
    List.map_cons, List.map_nil, List.cons.injEq, and_true]
  constructor
  · rintro ⟨i, ⟨hi, ha⟩, j, ⟨hj, hb⟩, k, ⟨hk, hc⟩, l, ⟨hl, hd⟩, h⟩
    obtain rfl : ((i * 16 + j) * 16 + k) * 16 + l = n := Option.some.inj h
    rw [ha, hb, hc, hd]
    refine ⟨by omega, congrArg _ ?_, congrArg _ ?_, congrArg _ ?_, congrArg _ ?_⟩ <;> omega
  · rintro ⟨hn, ha, hb, hc, hd⟩
    refine ⟨_, ⟨?_, ha⟩, _, ⟨?_, hb⟩, _, ⟨?_, hc⟩, _, ⟨?_, hd⟩, congrArg some ?_⟩ <;> omega

theorem exists_unit? {n : Nat} {digits : List Char} (h : IsUnit n digits) :
    ∃ a b c d, digits = [a, b, c, d] ∧ unit? a b c d = some n := by
  have hlength : digits.length = 4 := by
    rw [← List.length_map Char.toLower, h.2]
    rfl
  obtain ⟨a, b, c, d, rfl⟩ := List.length_eq_four.mp hlength
  exact ⟨a, b, c, d, rfl, unit?_eq_some_iff.mpr h⟩

/-! ## Surrogates -/

/-- A character is no surrogate. -/
theorem toNat_cases (c : Char) : c.toNat < 0xd800 ∨ 0xe000 ≤ c.toNat ∧ c.toNat < 0x110000 := by
  rcases c.valid with h | ⟨h, h'⟩
  · exact .inl h
  · exact .inr ⟨h, h'⟩

theorem toNat_ofNat {n : Nat} (h : n < 0xd800 ∨ 0xe000 ≤ n ∧ n < 0x110000) :
    (Char.ofNat n).toNat = n := by
  have hvalid : n.isValidChar := h.imp_right fun ⟨h, h'⟩ => ⟨h, h'⟩
  rw [Char.ofNat, dif_pos hvalid]
  rfl

/-- A character beyond the first plane is that of its two surrogates. -/
theorem pairChar_halves {c : Char} (h : 0x10000 ≤ c.toNat) :
    pairChar (0xd800 + (c.toNat - 0x10000) / 0x400) (0xdc00 + (c.toNat - 0x10000) % 0x400) = c := by
  rw [pairChar, Nat.add_sub_cancel_left, Nat.add_sub_cancel_left]
  have hsum : 0x10000 + (c.toNat - 0x10000) / 0x400 * 0x400 + (c.toNat - 0x10000) % 0x400 =
      c.toNat := by omega
  rw [hsum, Char.ofNat_toNat]

theorem isHighSurrogate_half (c : Char) :
    isHighSurrogate (0xd800 + (c.toNat - 0x10000) / 0x400) = true := by
  have := toNat_cases c
  rw [isHighSurrogate_iff]
  omega

theorem isLowSurrogate_half (c : Char) :
    isLowSurrogate (0xdc00 + (c.toNat - 0x10000) % 0x400) = true := by
  rw [isLowSurrogate_iff]
  omega

theorem toNat_pairChar {high low : Nat} (hhigh : 0xd800 ≤ high ∧ high < 0xdc00)
    (hlow : 0xdc00 ≤ low ∧ low < 0xe000) :
    (pairChar high low).toNat = 0x10000 + (high - 0xd800) * 0x400 + (low - 0xdc00) :=
  toNat_ofNat (by omega)

end Text

namespace Token

/-! ## Ways of writing -/

/-- The ways of writing a character between quotes. -/
inductive CharForm : Char → List Char → Prop
  | plain {c : Char} : c ≠ '"' → c ≠ '\\' → CharForm c [c]
  | short {letter c : Char} : (letter, c) ∈ Text.shortEscapes → CharForm c ['\\', letter]
  | unit {c : Char} {digits : List Char} : Text.IsUnit c.toNat digits →
      CharForm c ('\\' :: 'u' :: digits)
  /-- Two surrogates, of which each holds ten bits. -/
  | pair {c : Char} {high low : List Char} : 0x10000 ≤ c.toNat →
      Text.IsUnit (0xd800 + (c.toNat - 0x10000) / 0x400) high →
      Text.IsUnit (0xdc00 + (c.toNat - 0x10000) % 0x400) low →
      CharForm c ('\\' :: 'u' :: (high ++ '\\' :: 'u' :: low))

/-- The ways of writing a text between quotes, character by character. -/
inductive TextForm : List Char → List Char → Prop
  | nil : TextForm [] []
  | cons {c : Char} {form text body : List Char} : CharForm c form → TextForm text body →
      TextForm (c :: text) (form ++ body)

/-- The ways in which what is left of a string goes wrong: it ends before a closing quote, or it
begins with a backslash and with no escape. -/
inductive Flawed : List Char → Prop
  | unclosed : Flawed []
  | backslash : Flawed ['\\']
  | unknown {letter : Char} {rest : List Char} : letter ≠ 'u' →
      (∀ c, (letter, c) ∉ Text.shortEscapes) → Flawed ('\\' :: letter :: rest)
  /-- There are fewer than four digits. -/
  | digits {rest : List Char} : (∀ n, ¬Text.IsUnit n (rest.take 4)) → Flawed ('\\' :: 'u' :: rest)
  | low {n : Nat} {digits rest : List Char} : Text.IsUnit n digits → 0xdc00 ≤ n → n < 0xe000 →
      Flawed ('\\' :: 'u' :: (digits ++ rest))
  /-- No low surrogate follows. -/
  | high {n : Nat} {digits rest : List Char} : Text.IsUnit n digits → 0xd800 ≤ n → n < 0xdc00 →
      (∀ n' digits' rest', rest = '\\' :: 'u' :: (digits' ++ rest') → Text.IsUnit n' digits' →
        ¬(0xdc00 ≤ n' ∧ n' < 0xe000)) →
      Flawed ('\\' :: 'u' :: (digits ++ rest))

/-! ## Escapes -/

section
variable {a b c d a' b' c' d' : Char} {n n' : Nat}

theorem scanEscape?_short {letter : Char} (h : (letter, c) ∈ Text.shortEscapes) (rest : List Char) :
    scanEscape? (letter :: rest) = some (c, rest) := by
  have hu : letter ≠ 'u' := by
    rintro rfl
    revert h
    simp [Text.shortEscapes]
  rw [scanEscape?, Text.shortEscape?_eq_some_iff.mpr h]
  · rfl
  · intro _ _ _ _ _ hletter
    exact absurd hletter hu

theorem scanEscape?_pair (h : Text.unit? a b c d = some n) (hhigh : Text.isHighSurrogate n = true)
    (h' : Text.unit? a' b' c' d' = some n') (hlow : Text.isLowSurrogate n' = true)
    (rest : List Char) :
    scanEscape? ('u' :: a :: b :: c :: d :: '\\' :: 'u' :: a' :: b' :: c' :: d' :: rest) =
      some (Text.pairChar n n', rest) := by
  simp only [scanEscape?, h, hhigh, h', hlow, Option.bind_eq_bind, Option.bind_some, if_true]
  rfl

end

/-- A character of a literal is read as what it means. -/
theorem scanChars?_charForm {c : Char} {form : List Char} (h : CharForm c form)
    (taken rest : List Char) :
    scanChars? taken (form ++ rest) = scanChars? (c :: taken) rest := by
  cases h with
  | plain hquote hslash =>
    rw [List.singleton_append, scanChars?]
    · exact hquote
    · exact hslash
  | short hshort => exact scanChars?_escape (scanEscape?_short hshort rest)
  | unit hunit =>
    obtain ⟨x, y, z, w, rfl, hread⟩ := Text.exists_unit? hunit
    have hescape := scanEscape?_unit hread ((Text.toNat_cases c).imp_right And.left) rest
    rw [Char.ofNat_toNat] at hescape
    exact scanChars?_escape hescape
  | pair hc hhigh hlow =>
    obtain ⟨x, y, z, w, rfl, hfirst⟩ := Text.exists_unit? hhigh
    obtain ⟨x', y', z', w', rfl, hsecond⟩ := Text.exists_unit? hlow
    have hescape := scanEscape?_pair hfirst (Text.isHighSurrogate_half c) hsecond
      (Text.isLowSurrogate_half c) rest
    rw [Text.pairChar_halves hc] at hescape
    exact scanChars?_escape hescape

theorem scanChars?_textForm {text body : List Char} (h : TextForm text body)
    (taken rest : List Char) :
    scanChars? taken (body ++ rest) = scanChars? (text.reverse ++ taken) rest := by
  induction h generalizing taken with
  | nil => rfl
  | cons hc _ ih =>
    rw [List.append_assoc, scanChars?_charForm hc, ih, List.reverse_cons, List.append_assoc]
    rfl

/-! ## Flaws -/

theorem scanChars?_none {taken rest : List Char} (h : scanEscape? rest = none) :
    scanChars? taken ('\\' :: rest) = none := by
  rw [scanChars?]
  split
  · rfl
  · next hsome => cases h.symm.trans hsome

/-- Four characters that are no digits of a code unit, or fewer than four, are no escape. -/
theorem scanEscape?_digits {rest : List Char} (h : ∀ n, ¬Text.IsUnit n (rest.take 4)) :
    scanEscape? ('u' :: rest) = none := by
  unfold scanEscape?
  split
  · next a b c d r heq =>
    obtain rfl := (List.cons.inj heq).2
    have hnone : Text.unit? a b c d = none :=
      Option.eq_none_iff_forall_ne_some.mpr fun n hn => h n (Text.unit?_eq_some_iff.mp hn)
    rw [hnone]
    rfl
  · next heq =>
    obtain ⟨rfl, -⟩ := List.cons.inj heq
    rfl
  · rfl

/-- Nothing is read from what goes wrong. -/
theorem scanChars?_flawed {rest : List Char} (h : Flawed rest) (taken : List Char) :
    scanChars? taken rest = none := by
  cases h with
  | unclosed => rw [scanChars?]
  | backslash => exact scanChars?_none rfl
  | @unknown letter rest hu hunknown =>
    refine scanChars?_none ?_
    have hnone : Text.shortEscape? letter = none :=
      Option.eq_none_iff_forall_ne_some.mpr fun c hc =>
        hunknown c (Text.shortEscape?_eq_some_iff.mp hc)
    rw [scanEscape?, hnone]
    · rfl
    · intro _ _ _ _ _ hletter
      exact absurd hletter hu
  | digits hdigits => exact scanChars?_none (scanEscape?_digits hdigits)
  | @low n _ rest hunit hle hlt =>
    obtain ⟨a, b, c, d, rfl, hread⟩ := Text.exists_unit? hunit
    have hlow := Text.isLowSurrogate_iff.mpr ⟨hle, hlt⟩
    have hhigh := Text.isHighSurrogate_eq_false (.inr hle)
    have hnone : scanEscape? ('u' :: a :: b :: c :: d :: rest) = none := by
      simp only [scanEscape?, hread, hhigh, hlow, Option.bind_eq_bind, Option.bind_some,
        Bool.false_eq_true, if_false, if_true]
    exact scanChars?_none hnone
  | @high n _ rest hunit hle hlt hsecond =>
    obtain ⟨a, b, c, d, rfl, hread⟩ := Text.exists_unit? hunit
    have hhigh := Text.isHighSurrogate_iff.mpr ⟨hle, hlt⟩
    have hnone : scanEscape? ('u' :: a :: b :: c :: d :: rest) = none := by
      simp only [scanEscape?, hread, hhigh, Option.bind_eq_bind, Option.bind_some, if_true]
      split
      · next a' b' c' d' r =>
        cases hread' : Text.unit? a' b' c' d' with
        | none => rfl
        | some n' =>
          have hlow : Text.isLowSurrogate n' = false := Bool.eq_false_iff.mpr fun h =>
            hsecond n' [a', b', c', d'] r rfl (Text.unit?_eq_some_iff.mp hread')
              (Text.isLowSurrogate_iff.mp h)
          simp only [Option.bind_some, hlow, Bool.false_eq_true, if_false]
      · rfl
    exact scanChars?_none hnone

/-! ## Nothing else can go wrong -/

section
variable {n n' : Nat} {digits digits' : List Char}

/-- A code unit that is no surrogate is a way of writing its character. -/
theorem charForm_unit (h : Text.IsUnit n digits) (hn : n < 0xd800 ∨ 0xe000 ≤ n) :
    CharForm (Char.ofNat n) ('\\' :: 'u' :: digits) := by
  have htoNat : (Char.ofNat n).toNat = n :=
    Text.toNat_ofNat (hn.imp_right fun hle => ⟨hle, Nat.lt_trans h.1 (by decide)⟩)
  exact .unit (htoNat.symm ▸ h)

/-- A high and a low surrogate are a way of writing a character. -/
theorem charForm_pair (h : Text.IsUnit n digits) (hhigh : 0xd800 ≤ n ∧ n < 0xdc00)
    (h' : Text.IsUnit n' digits') (hlow : 0xdc00 ≤ n' ∧ n' < 0xe000) :
    CharForm (Text.pairChar n n') ('\\' :: 'u' :: (digits ++ '\\' :: 'u' :: digits')) := by
  have htoNat := Text.toNat_pairChar hhigh hlow
  have hfirst : 0xd800 + ((Text.pairChar n n').toNat - 0x10000) / 0x400 = n := by omega
  have hsecond : 0xdc00 + ((Text.pairChar n n').toNat - 0x10000) % 0x400 = n' := by omega
  exact .pair (by omega) (hfirst.symm ▸ h) (hsecond.symm ▸ h')

end

/-- A backslash begins a way of writing a character, or something is wrong. -/
theorem escape_splits (rest : List Char) :
    (∃ c form more, CharForm c form ∧ '\\' :: rest = form ++ more) ∨ Flawed ('\\' :: rest) := by
  cases rest with
  | nil => exact .inr .backslash
  | cons letter rest =>
    by_cases hu : letter = 'u'
    · subst hu
      by_cases hunit : ∃ n, Text.IsUnit n (rest.take 4)
      · obtain ⟨n, hn⟩ := hunit
        rw [← List.take_append_drop 4 rest]
        generalize rest.take 4 = digits at *
        generalize rest.drop 4 = rest
        by_cases hlow : 0xdc00 ≤ n ∧ n < 0xe000
        · exact .inr (.low hn hlow.1 hlow.2)
        by_cases hhigh : 0xd800 ≤ n ∧ n < 0xdc00
        · by_cases hsecond : ∃ n' digits' more, rest = '\\' :: 'u' :: (digits' ++ more) ∧
              Text.IsUnit n' digits' ∧ 0xdc00 ≤ n' ∧ n' < 0xe000
          · obtain ⟨n', digits', more, rfl, hn', hlow'⟩ := hsecond
            exact .inl ⟨_, _, more, charForm_pair hn hhigh hn' hlow', by simp⟩
          · right
            refine .high hn hhigh.1 hhigh.2 fun n' digits' more hrest hn' hlow' => ?_
            exact hsecond ⟨n', digits', more, hrest, hn', hlow'⟩
        · exact .inl ⟨_, _, rest, charForm_unit hn (by omega), rfl⟩
      · exact .inr (.digits fun n hn => hunit ⟨n, hn⟩)
    · by_cases hshort : ∃ c, (letter, c) ∈ Text.shortEscapes
      · obtain ⟨c, hc⟩ := hshort
        exact .inl ⟨c, _, rest, .short hc, rfl⟩
      · exact .inr (.unknown hu fun c hc => hshort ⟨c, hc⟩)

theorem CharForm.ne_nil {c : Char} {form : List Char} (h : CharForm c form) : form ≠ [] := by
  cases h <;> exact List.cons_ne_nil _ _

/-- What stands behind an opening quote is the form of a text and then a closing quote, or something
goes wrong behind the form of a text. -/
theorem literal_splits (s : List Char) :
    ∃ text body rest, TextForm text body ∧ s = body ++ rest ∧
      (Flawed rest ∨ ∃ more, rest = '"' :: more) := by
  induction hn : s.length using Nat.strongRecOn generalizing s with
  | ind n ih =>
    subst hn
    -- One character of the text, and the rest of the text behind it.
    have hmore {c : Char} {form more : List Char} (hform : CharForm c form)
        (hs : s = form ++ more) : ∃ text body rest, TextForm text body ∧ s = body ++ rest ∧
          (Flawed rest ∨ ∃ more, rest = '"' :: more) := by
      have hlength := congrArg List.length hs
      have := List.length_pos_iff.mpr hform.ne_nil
      rw [List.length_append] at hlength
      obtain ⟨text, body, rest, htext, rfl, hrest⟩ := ih _ (by omega) more rfl
      exact ⟨c :: text, form ++ body, rest, .cons hform htext, by rw [hs, List.append_assoc], hrest⟩
    cases s with
    | nil => exact ⟨[], [], [], .nil, rfl, .inl .unclosed⟩
    | cons c rest =>
      by_cases hquote : c = '"'
      · exact ⟨[], [], _, .nil, rfl, .inr ⟨rest, hquote ▸ rfl⟩⟩
      by_cases hslash : c = '\\'
      · subst hslash
        rcases escape_splits rest with ⟨d, form, more, hform, hs⟩ | hflawed
        · exact hmore hform hs
        · exact ⟨[], [], _, .nil, rfl, .inl hflawed⟩
      · exact hmore (.plain hquote hslash) rfl

/-! ## Literals -/

/-- Nothing that begins with a quote is skipped, and only strings begin with one. -/
theorem scan?_quote (s : List Char) : scan? ('"' :: s) = scanString? ('"' :: s) := by
  show (scanString? ('"' :: s) <|> scanWord? ('"' :: s)) = _
  cases scanString? ('"' :: s) <;> rfl

theorem halts_quote (s : List Char) : Halts opensTrivia ('"' :: s) := by
  rintro c cs heq
  obtain ⟨rfl, -⟩ := List.cons.inj heq
  rfl

/-- The form of a text between quotes is taken as the string. -/
theorem takes_textForm {text body : List Char} (h : TextForm text body) (rest : List Char) :
    Takes scan? ('"' :: (body ++ ['"']) ++ rest) (.string (String.ofList text))
      ('"' :: (body ++ ['"'])) rest := by
  have hchars (r : List Char) : scanChars? [] (body ++ ['"'] ++ r) = some (text, r) := by
    rw [List.append_assoc, scanChars?_textForm h, List.singleton_append, scanChars?,
      List.append_nil, List.reverse_reverse]
  obtain ⟨t, ht, hfacts⟩ := takes_string hchars rest
  exact ⟨t, (scan?_quote _).trans ht, hfacts⟩

/-- The form of a text between quotes is one token, the string. -/
theorem isLexeme_textForm {text body : List Char} (h : TextForm text body) :
    IsLexeme (.string (String.ofList text)) ('"' :: (body ++ ['"'])) :=
  isLexeme_of_takes (halts_quote _) (takes_textForm h [])

/-- Where something goes wrong behind a quote, no token begins at the quote. -/
theorem list_flawed {text body rest : List Char} (h : TextForm text body) (hrest : Flawed rest) :
    Token.list (String.ofList ('"' :: (body ++ rest))) = .error ⟨.start, '"'⟩ := by
  have hnone : scan? ('"' :: (body ++ rest)) = none := by
    rw [scan?_quote]
    simp only [scanString?, scanChars?_textForm h, scanChars?_flawed hrest]
  exact list_error_of_none (halts_quote _) hnone (List.prefix_refl _) (List.cons_ne_nil _ _)

/-- String literals are those of JSON. Whichever way the characters of a text are written, one by
one as they are, by a short escape, by a code unit of four digits in either case or by a pair of
surrogates, quotes around them make one token, the string. What else stands behind a quote goes
wrong after some characters: it ends without a closing quote, or there is an escape that does not
exist, has fewer than four digits or is a surrogate without its other half. Then no token is made,
and the failure is that of an invalid string at the opening quote. -/
theorem string_literals :
    (∀ text body, TextForm text body →
      IsLexeme (.string (String.ofList text)) ('"' :: (body ++ ['"']))) ∧
    (∀ text body rest, TextForm text body → Flawed rest →
      ∃ e : Error, Token.list (String.ofList ('"' :: (body ++ rest))) = .error e ∧
        e.position = .start ∧ e.isString = true) ∧
    ∀ s, ∃ text body rest, TextForm text body ∧ s = body ++ rest ∧
      (Flawed rest ∨ ∃ more, rest = '"' :: more) :=
  ⟨fun _ _ h => isLexeme_textForm h,
    fun _ _ _ h hrest => ⟨_, list_flawed h hrest, rfl, rfl⟩, literal_splits⟩

/-- A text in which every way of writing a character occurs, and one with the halves of a pair in
the wrong order. -/
theorem string_literals_mixed :
    IsLexeme (.string (String.ofList ['a', '\n', 'é', '😀']))
      ['"', 'a', '\\', 'n', '\\', 'u', '0', '0', 'E', '9', '\\', 'u', 'D', '8', '3', 'd', '\\', 'u',
        'd', 'e', '0', '0', '"'] ∧
    ∃ e : Error, Token.list (String.ofList ['"', 'é', '\\', 'u', 'd', 'e', '0', '0', '\\', 'u', 'd',
        '8', '3', 'd', '"']) = .error e ∧ e.position = .start ∧ e.isString = true := by
  have hfeed : ('n', '\n') ∈ Text.shortEscapes := by decide
  have hacute : Text.IsUnit 0xe9 ['0', '0', 'E', '9'] := ⟨by decide, by decide⟩
  have hhigh : Text.IsUnit 0xd83d ['D', '8', '3', 'd'] := ⟨by decide, by decide⟩
  have hlow : Text.IsUnit 0xde00 ['d', 'e', '0', '0'] := ⟨by decide, by decide⟩
  have hform : TextForm ['a', '\n', 'é', '😀'] _ :=
    .cons (.plain (by decide) (by decide)) (.cons (.short hfeed)
      (.cons (.unit hacute) (.cons (.pair (by decide) hhigh hlow) .nil)))
  have hplain : TextForm ['é'] _ := .cons (.plain (by decide) (by decide)) .nil
  have hflawed : Flawed ('\\' :: 'u' :: (['d', 'e', '0', '0'] ++
      ['\\', 'u', 'd', '8', '3', 'd', '"'])) := .low hlow (by decide) (by decide)
  exact ⟨string_literals.1 _ _ hform, string_literals.2.1 _ _ _ hplain hflawed⟩

end Token

end JsonFilter
