import JsonFilter.Proofs.Json.Lexing

/-!
Numbers in JSON text. The text of a number is `null` or begins, after a minus, with a digit, and the
lexer takes it as far as a reader of numbers does who is given nothing else. So the tokens of the
text are those of the number that the text denotes.
-/

namespace JsonFilter

namespace Number

/-- The number that the JSON text of a number denotes. -/
def reread (n : Number) : Number :=
  match Number.ofText n.json with
  | .ok m => m
  | .error _ => n

/-- Whether the digits that are written for a number denote it. Zero is written without its sign, so
what they denote need only be equal. -/
def readsBack (n : Number) : Bool :=
  match Number.ofText n.json with
  | .ok m => m == n
  | .error _ => false

theorem of_readsBack {n : Number} (h : n.readsBack) :
    Number.ofText n.json = .ok n.reread ∧ (n.reread == n) = true := by
  unfold readsBack at h
  unfold reread
  split at h
  · next m hm =>
    rw [hm]
    exact ⟨rfl, h⟩
  · cases h

/-! ## Texts -/

/-- A text that begins with a digit. -/
def Begins (s : List Char) : Prop := ∃ c cs, s = c :: cs ∧ c.isDigit

theorem Begins.append {s : List Char} (h : Begins s) (t : List Char) : Begins (s ++ t) := by
  obtain ⟨c, cs, rfl, hc⟩ := h
  exact ⟨c, cs ++ t, rfl, hc⟩

theorem Begins.take {s : List Char} (h : Begins s) (n : Nat) : Begins (s.take (n + 1)) := by
  obtain ⟨c, cs, rfl, hc⟩ := h
  exact ⟨c, cs.take n, rfl, hc⟩

theorem toDigits_begins (n : Nat) : Begins (Nat.toDigits 10 n) := by
  cases hs : Nat.toDigits 10 n with
  | nil => exact absurd hs Nat.toDigits_ne_nil
  | cons c cs =>
    have hc : c ∈ Nat.toDigits 10 n := by rw [hs]; exact List.mem_cons_self
    exact ⟨c, cs, rfl, Nat.isDigit_of_mem_toDigits (by decide) (by decide) hc⟩

theorem fixed_begins (layout : Layout) {digits : List Char} (leading : Int) (h : Begins digits) :
    Begins (layout.fixed digits leading).toList := by
  unfold Layout.fixed
  split
  · rw [String.toList_append]
    exact Begins.append ⟨'0', ['.'], rfl, rfl⟩ _
  · dsimp only
    split
    · rw [String.toList_append, String.toList_ofList, List.append_assoc]
      exact h.append _
    · rw [String.toList_append, String.toList_append, String.toList_ofList, List.append_assoc]
      exact (h.take _).append _

theorem scientific_begins {digits : List Char} (leading : Int) (h : Begins digits) :
    Begins (Layout.scientific digits leading).toList := by
  unfold Layout.scientific
  simp only [String.toList_append, String.toList_ofList, List.append_assoc]
  exact (h.take 0).append _

theorem decimal_begins (layout : Layout) (d : Decimal) : Begins (layout.decimal d).toList := by
  unfold Layout.decimal
  split
  · exact fixed_begins layout _ (toDigits_begins _)
  · exact scientific_begins _ (toDigits_begins _)

/-- The JSON text of a number, apart from a NaN, is a numeral with or without a minus. -/
theorem json_begins (n : Number) :
    n.json = "null" ∨ ∃ s, Begins s ∧ (n.json.toList = s ∨ n.json.toList = '-' :: s) := by
  unfold json Layout.text
  split
  · next i _ =>
    rw [Int.toString_eq_repr, Int.repr_eq_if]
    refine .inr ⟨_, toDigits_begins (if 0 ≤ i then i.toNat else (-i).toNat), ?_⟩
    by_cases hi : 0 ≤ i
    · simp only [hi, if_true, Nat.toList_repr, true_or]
    · simp only [hi, if_false, String.toList_append, Nat.toList_repr]
      exact .inr rfl
  · split
    · exact .inl rfl
    · refine .inr ⟨_, ⟨'1', Layout.json.infinite.toList.tail, rfl, rfl⟩, ?_⟩
      split
      · exact .inr rfl
      · exact .inl rfl
  · next d _ _ =>
    have hdecimal := decimal_begins Layout.json
      ((Decimal.Interval.ofBinary d.mantissa d.exponent).shortest Layout.json.tie)
    refine .inr ⟨_, hdecimal, ?_⟩
    split
    · exact .inr (String.toList_append ..)
    · exact .inl (by rw [String.empty_append])

end Number

/-! ## Scanning -/

namespace Numeral

open Token (Ends closers isDigit_of_mem_closers takeWhile_of_ends dropWhile_of_ends)

section
variable {rest : List Char} (h : Ends rest)
include h

theorem takeWhile_append_ends {p : Char → Bool} (hp : ∀ c ∈ closers, p c = false) (s : List Char) :
    (s ++ rest).takeWhile p = s.takeWhile p := by
  induction s with
  | nil => exact takeWhile_of_ends hp h
  | cons c cs ih =>
    rw [List.cons_append, List.takeWhile_cons, List.takeWhile_cons, ih]

theorem dropWhile_append_ends {p : Char → Bool} (hp : ∀ c ∈ closers, p c = false) (s : List Char) :
    (s ++ rest).dropWhile p = s.dropWhile p ++ rest := by
  induction s with
  | nil => exact dropWhile_of_ends hp h
  | cons c cs ih =>
    rw [List.cons_append, List.dropWhile_cons, List.dropWhile_cons, ih]
    split
    · rfl
    · rfl

theorem scanSign_append (s : List Char) :
    scanSign (s ++ rest) = ((scanSign s).1, (scanSign s).2 ++ rest) := by
  have hother : ∀ c t, c ≠ '-' → c ≠ '+' → scanSign (c :: t) = (false, c :: t) := by
    intro c t hminus hplus
    rw [scanSign]
    · simpa using hminus
    · simpa using hplus
  cases s with
  | nil =>
    cases rest with
    | nil => rfl
    | cons c cs =>
      have hc := h c cs rfl
      exact hother c cs (by rintro rfl; revert hc; decide) (by rintro rfl; revert hc; decide)
  | cons c cs =>
    by_cases hminus : c = '-'
    · obtain rfl := hminus
      rfl
    · by_cases hplus : c = '+'
      · obtain rfl := hplus
        rfl
      · rw [List.cons_append, hother c _ hminus hplus, hother c _ hminus hplus]
        rfl

theorem scanFraction_append (s : List Char) :
    scanFraction (s ++ rest) = ((scanFraction s).1, (scanFraction s).2 ++ rest) := by
  have hother : ∀ c t, c ≠ '.' → scanFraction (c :: t) = ([], c :: t) := by
    intro c t hpoint
    rw [scanFraction]
    simpa using hpoint
  cases s with
  | nil =>
    cases rest with
    | nil => rfl
    | cons c cs =>
      have hc := h c cs rfl
      exact hother c cs (by rintro rfl; revert hc; decide)
  | cons c cs =>
    by_cases hpoint : c = '.'
    · obtain rfl := hpoint
      simp only [List.cons_append, scanFraction, takeWhile_append_ends h isDigit_of_mem_closers,
        dropWhile_append_ends h isDigit_of_mem_closers]
    · rw [List.cons_append, hother c _ hpoint, hother c _ hpoint]
      rfl

theorem scanExponent_append (s : List Char) :
    scanExponent (s ++ rest) = ((scanExponent s).1, (scanExponent s).2 ++ rest) := by
  cases s with
  | nil =>
    cases rest with
    | nil => rfl
    | cons c cs =>
      have hc : ¬(c = 'e' ∨ c = 'E') := by
        have hmem := h c cs rfl
        rintro (rfl | rfl) <;> revert hmem <;> decide
      simp only [List.nil_append, scanExponent, hc, if_false]
  | cons c cs =>
    by_cases he : c = 'e' ∨ c = 'E'
    · simp only [List.cons_append, scanExponent, he, if_true, scanSign_append h,
        takeWhile_append_ends h isDigit_of_mem_closers,
        dropWhile_append_ends h isDigit_of_mem_closers]
      split
      · rfl
      · rfl
    · simp only [List.cons_append, scanExponent, he, if_false]

/-- What is scanned of a numeral ends where the numeral does. -/
theorem scan_append (s : List Char) : scan (s ++ rest) = ((scan s).1, (scan s).2 ++ rest) := by
  simp only [scan, takeWhile_append_ends h isDigit_of_mem_closers,
    dropWhile_append_ends h isDigit_of_mem_closers,
    scanFraction_append h, scanExponent_append h]

end

/-- The decimal digits. -/
def digits : List Char := ['0', '1', '2', '3', '4', '5', '6', '7', '8', '9']

theorem mem_digits {c : Char} (h : c.isDigit) : c ∈ digits := by
  have hcode : ∀ n ≤ 57, 48 ≤ n → Char.ofNat n ∈ digits := by decide
  rw [Char.isDigit, Bool.and_eq_true, decide_eq_true_eq, decide_eq_true_eq] at h
  have hmem := hcode c.toNat h.2 h.1
  rwa [Char.ofNat_toNat] at hmem

/-- A text that begins with a digit is no name of a special number. -/
theorem size?_begins {s : List Char} (hs : Number.Begins s) :
    size? s = if (scan s).2.isEmpty && !((scan s).1.whole ++ (scan s).1.fraction).isEmpty then
      some (scan s).1.value else none := by
  obtain ⟨c, cs, rfl, hc⟩ := hs
  have hlower : c.toLower ≠ 'i' ∧ c.toLower ≠ 'n' := by
    have hall : ∀ d ∈ digits, d.toLower ≠ 'i' ∧ d.toLower ≠ 'n' :=
      List.all_iff_forall_prop.mp rfl
    exact hall c (mem_digits hc)
  have hname {name : String} {d : Char} {ds : List Char} (hne : c.toLower ≠ d)
      (htext : name.toList = d :: ds) : String.ofList ((c :: cs).map Char.toLower) ≠ name := by
    rintro rfl
    rw [String.toList_ofList, List.map_cons] at htext
    exact hne (List.cons.inj htext).1
  unfold size?
  simp only [hname hlower.1 (show "inf".toList = ['i', 'n', 'f'] from rfl),
    hname hlower.1 (show "infinity".toList = ['i', 'n', 'f', 'i', 'n', 'i', 't', 'y'] from rfl),
    hname hlower.2 (show "nan".toList = ['n', 'a', 'n'] from rfl), or_self, if_false]

theorem Begins.whole_ne_nil {s : List Char} (hs : Number.Begins s) : (scan s).1.whole ≠ [] := by
  obtain ⟨c, cs, rfl, hc⟩ := hs
  show (c :: cs).takeWhile Char.isDigit ≠ []
  rw [List.takeWhile_cons_of_pos hc]
  exact List.cons_ne_nil _ _

/-- A text that begins with a digit denotes a number only as a numeral. -/
theorem scan_of_size? {s : List Char} {x : Number} (hs : Number.Begins s) (h : size? s = some x) :
    ∃ numeral, scan s = (numeral, []) ∧ numeral.value = x ∧ numeral.whole ≠ [] := by
  rw [size?_begins hs] at h
  split at h
  · next hend =>
    rw [Bool.and_eq_true, List.isEmpty_iff] at hend
    exact ⟨(scan s).1, Prod.ext rfl hend.1, Option.some.inj h, Begins.whole_ne_nil hs⟩
  · cases h

/-- A numeral with a digit before its point denotes its value. -/
theorem size?_of_scan {s : List Char} {numeral : Numeral} (h : scan s = (numeral, []))
    (hwhole : numeral.whole ≠ []) : Number.Begins s ∧ size? s = some numeral.value := by
  have hs : Number.Begins s := by
    have htake : s.takeWhile Char.isDigit = numeral.whole := congrArg (·.1.whole) h
    cases s with
    | nil => exact absurd htake.symm hwhole
    | cons c cs =>
      cases hc : c.isDigit with
      | true => exact ⟨c, cs, rfl, hc⟩
      | false =>
        rw [List.takeWhile_cons_of_neg (Bool.eq_false_iff.mp hc)] at htake
        exact absurd htake.symm hwhole
  have hdigits : (numeral.whole ++ numeral.fraction).isEmpty = false :=
    List.isEmpty_eq_false_iff.mpr (List.append_ne_nil_of_left_ne_nil hwhole _)
  refine ⟨hs, ?_⟩
  rw [size?_begins hs, h]
  simp only [hdigits, List.isEmpty_nil, Bool.not_false, Bool.and_self, if_true]

end Numeral

/-! ## Tokens -/

namespace Number

open Token Numeral

theorem scan?_digit {c : Char} (hc : c.isDigit) (cs : List Char) :
    scan? (c :: cs) = (scanNumber? (c :: cs) <|> scanString? (c :: cs) <|> scanWord? (c :: cs)) := by
  have hmem := mem_digits hc
  simp only [digits, List.mem_cons, List.not_mem_nil, or_false] at hmem
  rcases hmem with rfl | rfl | rfl | rfl | rfl | rfl | rfl | rfl | rfl | rfl <;> rfl

/-- A numeral without a sign is one token. -/
theorem reads_size {s rest : List Char} {x : Number} (hs : Begins s) (h : size? s = some x)
    (hends : Ends rest) : Reads (s ++ rest) rest [.number x] := by
  obtain ⟨numeral, hscan, rfl, hwhole⟩ := scan_of_size? hs h
  obtain ⟨c, cs, rfl, hc⟩ := hs
  obtain ⟨t, ht, hk, hrest⟩ := upTo?_append (.number numeral.value) rest (List.cons_ne_nil c cs)
  have hnumber : scanNumber? (c :: cs ++ rest) = some t := by
    have hempty : numeral.whole.isEmpty = false := List.isEmpty_eq_false_iff.mpr hwhole
    simp only [scanNumber?, scan_append hends, hscan, List.nil_append, hempty, Bool.false_eq_true,
      if_false]
    exact ht
  have hspace : isSpace c = false ∧ c ≠ '#' := by
    have hall : ∀ d ∈ digits, isSpace d = false ∧ d ≠ '#' := List.all_iff_forall_prop.mp rfl
    exact hall c (mem_digits hc)
  refine .token hspace.1 hspace.2 ⟨t, (scan?_digit hc (cs ++ rest)).trans ?_, hk, hrest⟩
  show (scanNumber? (c :: cs ++ rest) <|> _ <|> _) = some t
  rw [hnumber]
  rfl

/-- The kinds of the tokens in the JSON text of a number. -/
def kinds (n : Number) : List Kind :=
  let (negative, s) := scanSign n.json.toList
  let size := Kind.number ((size? s).getD 0)
  if negative then [.symbol .minus, size] else [size]

theorem scanSign_begins {s : List Char} (hs : Begins s) : scanSign s = (false, s) := by
  obtain ⟨c, cs, rfl, hc⟩ := hs
  rw [scanSign]
  · rintro t heq
    obtain ⟨rfl, _⟩ := List.cons.inj heq
    cases hc
  · rintro t heq
    obtain ⟨rfl, _⟩ := List.cons.inj heq
    cases hc

/-- If the text of a number denotes a number at all, it does so by a numeral after an optional
minus. -/
theorem of_ofText {n m : Number} (h : Number.ofText n.json = .ok m) :
    ∃ s x, Begins s ∧ size? s = some x ∧
      ((n.json.toList = s ∧ m = x) ∨ (n.json.toList = '-' :: s ∧ m = -x)) := by
  rcases json_begins n with hnull | ⟨s, hs, htext⟩
  · rw [hnull] at h
    have herror : Number.ofText "null" = .error .invalid := rfl
    cases herror.symm.trans h
  · unfold Number.ofText at h
    split at h
    · cases h
    · rcases htext with htext | htext
      · simp only [htext, scanSign_begins hs] at h
        split at h
        · next x hx => exact ⟨s, x, hs, hx, .inl ⟨htext, (Except.ok.inj h).symm⟩⟩
        · cases h
      · simp only [htext, scanSign] at h
        split at h
        · next x hx => exact ⟨s, x, hs, hx, .inr ⟨htext, (Except.ok.inj h).symm⟩⟩
        · cases h

theorem reads_json {n m : Number} (h : Number.ofText n.json = .ok m) {rest : List Char}
    (hends : Ends rest) : Reads (n.json.toList ++ rest) rest n.kinds := by
  obtain ⟨s, x, hs, hx, ⟨htext, _⟩ | ⟨htext, _⟩⟩ := of_ofText h
  · simp only [kinds, htext, scanSign_begins hs, hx]
    exact reads_size hs hx hends
  · simp only [kinds, htext, scanSign, hx]
    exact (reads_minus (s ++ rest)).trans (reads_size hs hx hends)

/-- The tokens of the text of a number denote the number that is read back. -/
theorem kinds_of_ofText {n m : Number} (h : Number.ofText n.json = .ok m) :
    n.kinds = [.number n.reread] ∨ ∃ x, n.kinds = [.symbol .minus, .number x] ∧ n.reread = -x := by
  have hreread : n.reread = m := by rw [reread, h]
  obtain ⟨s, x, hs, hx, ⟨htext, rfl⟩ | ⟨htext, hm⟩⟩ := of_ofText h
  · refine .inl ?_
    simp only [kinds, htext, scanSign_begins hs, hx, hreread]
    rfl
  · refine .inr ⟨x, ?_, hreread.trans hm⟩
    simp only [kinds, htext, scanSign, hx]
    rfl

end Number

end JsonFilter
