import JsonFilter.Json.Document
import JsonFilter.Proofs.Json.Value
import JsonFilter.Proofs.Token.Scanners

/-!
The JSON text of a value through the reader of JSON. The reader takes from a text what the writer
wrote, with white space before it, and leaves what follows. Nothing is assumed of what follows but
that a number or a word could end there.
-/

namespace JsonFilter.Json

open Token (Ends closers)

/-- A reader takes `a` from the front of its text and leaves `rest`. -/
def Takes {α : Type} {s : List Char} (x : Reading α s) (a : α) (rest : List Char) : Prop :=
  ∃ h, x = .ok ⟨a, rest, h⟩

/-! ## White space -/

theorem skipBlanks_cons {c : Char} (h : isBlank c = false) (cs : List Char) :
    skipBlanks (c :: cs) = c :: cs := by
  rw [skipBlanks, List.dropWhile_cons_of_neg (Bool.eq_false_iff.mp h)]

theorem skipBlanks_append {s : List Char} (h : ∀ c ∈ s, isBlank c) (rest : List Char) :
    skipBlanks (s ++ rest) = skipBlanks rest := by
  rw [skipBlanks, List.dropWhile_append_of_pos h]
  rfl

theorem isBlank_of_mem_lineBreak {indent level : Nat} :
    ∀ c ∈ Value.lineBreak indent level, isBlank c := by
  intro c hc
  unfold Value.lineBreak at hc
  split at hc
  · cases hc
  · rcases List.mem_cons.mp hc with rfl | hc
    · rfl
    · obtain rfl := List.eq_of_mem_replicate hc
      rfl

theorem skipBlanks_lineBreak (indent level : Nat) (rest : List Char) :
    skipBlanks (Value.lineBreak indent level ++ rest) = skipBlanks rest :=
  skipBlanks_append isBlank_of_mem_lineBreak rest

/-! ## Brackets -/

section

variable {α : Type} {r t : List Char}

/-- Takes what stands behind an opening bracket, with the closing one: `empty` if there is nothing
between them, and what is read of it otherwise. -/
def readEnclosed (close : Char) (cause : Cause) (empty : α) (inner : Reading α r) : Reading α r :=
  match h : skipBlanks r with
  | [] => stop cause []
  | c :: t => if c = close then .ok ⟨empty, t, length_lt_of_skipBlanks h⟩ else inner

variable {close : Char} {cause : Cause} {empty : α} {inner : Reading α r}

theorem readEnclosed_of_close (h : skipBlanks r = close :: t) :
    readEnclosed close cause empty inner = .ok ⟨empty, t, length_lt_of_skipBlanks h⟩ := by
  unfold readEnclosed
  split
  · next hend => cases hend.symm.trans h
  · next heq =>
    obtain ⟨rfl, rfl⟩ := List.cons.inj (heq.symm.trans h)
    rw [if_pos rfl]

theorem readEnclosed_of_nil (h : skipBlanks r = []) :
    readEnclosed close cause empty inner = stop cause [] := by
  unfold readEnclosed
  split
  · rfl
  · next heq => cases heq.symm.trans h

theorem readEnclosed_of_inner (hclose : ∀ t, skipBlanks r = close :: t → False)
    (hend : skipBlanks r = [] → False) : readEnclosed close cause empty inner = inner := by
  unfold readEnclosed
  split
  · next heq => exact (hend heq).elim
  · next c t heq => rw [if_neg fun hc : c = close => hclose t (hc ▸ heq)]

theorem readEnclosed_of_cons {c : Char} (h : skipBlanks r = c :: t) (hc : c ≠ close) :
    readEnclosed close cause empty inner = inner := by
  refine readEnclosed_of_inner (fun u hu => ?_) fun hend => ?_
  · exact hc (List.cons.inj (h.symm.trans hu)).1
  · cases hend.symm.trans h

end

/-! ## Words and strings -/

theorem readWord_append (word rest : List Char) :
    ∃ h, readWord word (word ++ rest) = .ok ⟨rest, h⟩ := by
  induction word with
  | nil => exact ⟨_, rfl⟩
  | cons w ws ih =>
    obtain ⟨h, hws⟩ := ih
    refine ⟨Front.le_cons h, ?_⟩
    simp only [List.cons_append, readWord, if_true, hws]

/-- A control character is read back from its code unit. -/
theorem readEscape_control {c : Char} (h : c.toNat < 0x20) (r : List Char) :
    Takes (readEscape ('u' :: '0' :: '0' :: Nat.digitChar (c.toNat / 16) ::
      Nat.digitChar (c.toNat % 16) :: r)) c r := by
  have hhigh : Text.isHighSurrogate c.toNat = false := Text.isHighSurrogate_eq_false (by omega)
  have hlow : Text.isLowSurrogate c.toNat = false := Text.isLowSurrogate_eq_false (by omega)
  have hunit := Token.unit?_control h
  simp only [readEscape, readUnit, hunit, hhigh, hlow, Bool.false_eq_true, if_false,
    Char.ofNat_toNat]
  exact ⟨_, rfl⟩

theorem readChars_escape {whole taken r u : List Char} {c : Char} (h : Takes (readEscape r) c u)
    (hle : ('\\' :: r).length ≤ whole.length) :
    ∃ hu, (readChars taken ('\\' :: r) hle : Reading (List Char) whole) =
      readChars (c :: taken) u hu := by
  obtain ⟨hu, h⟩ := h
  refine ⟨by simp only [List.length_cons] at hle; omega, ?_⟩
  rw [readChars, h]

/-- Characters that stand for themselves are taken as they are. -/
theorem readChars_plain {whole taken r : List Char} {c : Char} (hquote : c ≠ '"')
    (hslash : c ≠ '\\') (hcontrol : ¬c.toNat < 0x20) (hle : (c :: r).length ≤ whole.length) :
    ∃ hr, (readChars taken (c :: r) hle : Reading (List Char) whole) =
      readChars (c :: taken) r hr := by
  refine ⟨Nat.le_of_succ_le hle, ?_⟩
  rw [readChars, if_neg hcontrol]
  · exact hquote
  · exact hslash

theorem readChars_escapedChar {whole r : List Char} (c : Char) (taken : List Char)
    (hle : (Text.escapedChar c ++ r).length ≤ whole.length) :
    ∃ hr, (readChars taken (Text.escapedChar c ++ r) hle : Reading (List Char) whole) =
      readChars (c :: taken) r hr := by
  revert hle
  unfold Text.escapedChar
  -- The seven escapes of two characters, in their order.
  split
  · next h =>
    obtain rfl := h
    exact readChars_escape ⟨_, rfl⟩
  split
  · next h =>
    obtain rfl := h
    exact readChars_escape ⟨_, rfl⟩
  split
  · next h =>
    obtain rfl := h
    exact readChars_escape ⟨_, rfl⟩
  split
  · next h =>
    obtain rfl := h
    exact readChars_escape ⟨_, rfl⟩
  split
  · next h =>
    obtain rfl := h
    exact readChars_escape ⟨_, rfl⟩
  split
  · next h =>
    obtain rfl := h
    exact readChars_escape ⟨_, rfl⟩
  split
  · next h =>
    obtain rfl := h
    exact readChars_escape ⟨_, rfl⟩
  -- Other control characters, and characters that stand for themselves.
  split
  · next h => exact readChars_escape (readEscape_control h r)
  · next hquote hslash _ _ _ _ _ hcontrol => exact readChars_plain hquote hslash hcontrol

/-- Any characters are read back up to the quote after them. -/
theorem readChars_escaped {whole : List Char} (s taken rest : List Char)
    (hle : (s.flatMap Text.escapedChar ++ '"' :: rest).length ≤ whole.length) :
    Takes (readChars taken (s.flatMap Text.escapedChar ++ '"' :: rest) hle :
      Reading (List Char) whole) (taken.reverse ++ s) rest := by
  induction s generalizing taken with
  | nil =>
    rw [List.append_nil]
    refine ⟨Nat.lt_of_succ_le hle, ?_⟩
    show readChars taken ('"' :: rest) _ = _
    rw [readChars]
  | cons c cs ih =>
    have hlist : (c :: cs).flatMap Text.escapedChar ++ '"' :: rest =
        Text.escapedChar c ++ (cs.flatMap Text.escapedChar ++ '"' :: rest) := by
      rw [List.flatMap_cons, List.append_assoc]
    have htaken : taken.reverse ++ c :: cs = (c :: taken).reverse ++ cs := by
      rw [List.reverse_cons, List.append_assoc, List.singleton_append]
    simp only [hlist, htaken] at hle ⊢
    obtain ⟨hr, hchar⟩ := readChars_escapedChar c taken hle
    rw [hchar]
    exact ih (c :: taken) hr

theorem readString_escaped (s : String) (rest : List Char) :
    Takes (readString (s.toList.flatMap Text.escapedChar ++ '"' :: rest)) s rest := by
  obtain ⟨h, hchars⟩ := readChars_escaped s.toList [] rest
    (Front.whole_le (s.toList.flatMap Text.escapedChar ++ '"' :: rest))
  refine ⟨h, ?_⟩
  rw [readString, hchars]
  show Except.ok (Front.mk (String.ofList s.toList) rest h) = _
  rw [String.ofList_toList]

/-! ## Where a reader looks -/

/-- What may stand in the place of `rest`, as far as a reader sees who looks at no more than its first
character: a text that begins as `rest` does, or where a number or a word could end. -/
def Follows (rest r : List Char) : Prop :=
  ∀ c cs, r = c :: cs → c ∈ closers ∨ ∃ ds, rest = c :: ds

namespace Follows

variable {rest r : List Char}

theorem nil (rest : List Char) : Follows rest [] := by
  intro c cs h
  cases h

theorem of_ends (h : Ends r) (rest : List Char) : Follows rest (rest ++ r) := by
  cases rest with
  | nil => exact fun c cs hr => .inl (h c cs hr)
  | cons d ds =>
    intro c cs heq
    obtain ⟨rfl, -⟩ := List.cons.inj heq
    exact .inr ⟨ds, rfl⟩

theorem append (front : List Char) (h : Follows rest r) : Follows (front ++ rest) (front ++ r) := by
  cases front with
  | nil => exact h
  | cons d ds =>
    intro c cs heq
    obtain ⟨rfl, -⟩ := List.cons.inj heq
    exact .inr ⟨ds ++ rest, rfl⟩

theorem halts {p : Char → Bool} (h : Follows rest r) (hp : ∀ c ∈ closers, p c = false)
    (hrest : Halts p rest) : Halts p r := by
  intro c cs heq
  rcases h c cs heq with hc | ⟨ds, hds⟩
  · exact hp c hc
  · exact hrest c ds hds

end Follows

/-- What is taken from `s` is told by a front of it, which leaves `rest`: with anything that may stand
in the place of `rest`, the same is taken from the front and leaves that. -/
def Local (takes : List Char → List Char → Prop) (s rest : List Char) : Prop :=
  ∃ front, s = front ++ rest ∧ ∀ r, Follows rest r → takes (front ++ r) r

namespace Local

variable {P Q : List Char → List Char → Prop} {s t rest : List Char}

theorem imp (h : Local P s rest) (hpq : ∀ u r, P u r → Q u r) : Local Q s rest := by
  obtain ⟨front, hfront, hp⟩ := h
  exact ⟨front, hfront, fun r hr => hpq _ _ (hp r hr)⟩

/-- One reader after another. -/
theorem comp (hp : Local P s t) (hq : Local Q t rest) :
    Local (fun u r => ∃ v, P u v ∧ Q v r) s rest := by
  obtain ⟨front, rfl, hp⟩ := hp
  obtain ⟨front', rfl, hq⟩ := hq
  refine ⟨front ++ front', (List.append_assoc ..).symm, fun r hr => ?_⟩
  rw [List.append_assoc]
  exact ⟨front' ++ r, hp _ (hr.append front'), hq r hr⟩

theorem cons (c : Char) (h : Local P s rest) :
    Local (fun u r => ∃ v, u = c :: v ∧ P v r) (c :: s) rest := by
  obtain ⟨front, rfl, hp⟩ := h
  exact ⟨c :: front, rfl, fun r hr => ⟨front ++ r, rfl, hp r hr⟩⟩

theorem front (front rest : List Char) : Local (fun u r => u = front ++ r) (front ++ rest) rest :=
  ⟨front, rfl, fun _ _ => rfl⟩

end Local

/-! ## Numbers -/

theorem readWhole_eq {s d r : List Char} (hs : readWhole s = .ok (d, r)) :
    s.takeWhile Char.isDigit = d ∧ s.dropWhile Char.isDigit = r ∧ d ≠ [] := by
  cases s with
  | nil => cases hs
  | cons c cs =>
    by_cases hzero : c = '0'
    · obtain rfl := hzero
      cases cs with
      | nil =>
        obtain ⟨rfl, rfl⟩ := Prod.mk.inj (Except.ok.inj hs)
        exact ⟨rfl, rfl, List.cons_ne_nil _ _⟩
      | cons e es =>
        simp only [readWhole, if_true] at hs
        split at hs
        · cases hs
        · next he =>
          obtain ⟨rfl, rfl⟩ := Prod.mk.inj (Except.ok.inj hs)
          rw [List.takeWhile_cons_of_pos rfl, List.takeWhile_cons_of_neg he,
            List.dropWhile_cons_of_pos rfl, List.dropWhile_cons_of_neg he]
          exact ⟨rfl, rfl, List.cons_ne_nil _ _⟩
    · simp only [readWhole, hzero, if_false] at hs
      split at hs
      · next hc =>
        obtain ⟨rfl, rfl⟩ := Prod.mk.inj (Except.ok.inj hs)
        rw [List.takeWhile_cons_of_pos hc, List.dropWhile_cons_of_pos hc]
        exact ⟨rfl, rfl, List.cons_ne_nil _ _⟩
      · cases hs

section
variable {s d rest : List Char}

theorem readWhole_zero (h : Halts Char.isDigit rest) :
    readWhole ('0' :: rest) = .ok (['0'], rest) := by
  cases rest with
  | nil => rfl
  | cons c cs => simp only [readWhole, h c cs rfl, if_true, Bool.false_eq_true, if_false]

theorem readWhole_digits {c : Char} (hzero : c ≠ '0') (hc : c.isDigit) (hd : ∀ e ∈ d, e.isDigit)
    (h : Halts Char.isDigit rest) : readWhole (c :: (d ++ rest)) = .ok (c :: d, rest) := by
  simp only [readWhole, hzero, hc, if_true, if_false, h.takeWhile_append hd,
    h.dropWhile_append hd]

theorem readWhole_local (hs : readWhole s = .ok (d, rest)) :
    Local (fun t r => readWhole t = .ok (d, r)) s rest := by
  cases s with
  | nil => cases hs
  | cons c cs =>
    by_cases hzero : c = '0'
    · obtain rfl := hzero
      have hhalts : Halts Char.isDigit cs := by
        rintro e es rfl
        cases he : e.isDigit with
        | false => rfl
        | true => simp [readWhole, he, unexpected] at hs
      obtain ⟨rfl, rfl⟩ := Prod.mk.inj (Except.ok.inj ((readWhole_zero hhalts).symm.trans hs))
      exact ⟨['0'], rfl, fun r hr => readWhole_zero (hr.halts Token.isDigit_of_mem_closers hhalts)⟩
    · simp only [readWhole, hzero, if_false] at hs
      split at hs
      · next hc =>
        obtain ⟨rfl, rfl⟩ := Prod.mk.inj (Except.ok.inj hs)
        refine ⟨c :: cs.takeWhile Char.isDigit, ?_, fun r hr => ?_⟩
        · rw [List.cons_append, List.takeWhile_append_dropWhile]
        · exact readWhole_digits hzero hc (fun _ he => List.mem_takeWhile_imp he)
            (hr.halts Token.isDigit_of_mem_closers (.dropWhile _ cs))
      · cases hs

theorem readFraction_none (h : Halts (· == '.') rest) : readFraction rest = .ok ([], rest) := by
  rw [readFraction]
  rintro cs rfl
  cases h '.' cs rfl

theorem readFraction_digits (hne : d ≠ []) (hd : ∀ e ∈ d, e.isDigit)
    (h : Halts Char.isDigit rest) : readFraction ('.' :: (d ++ rest)) = .ok (d, rest) := by
  obtain ⟨e, es, rfl⟩ := List.exists_cons_of_ne_nil hne
  rw [readFraction, h.takeWhile_append hd, h.dropWhile_append hd]

theorem readFraction_local (hs : readFraction s = .ok (d, rest)) :
    Local (fun t r => readFraction t = .ok (d, r)) s rest := by
  by_cases hpoint : ∃ cs, s = '.' :: cs
  · obtain ⟨cs, rfl⟩ := hpoint
    rw [readFraction] at hs
    split at hs
    · split at hs <;> cases hs
    · next hne =>
      obtain ⟨rfl, rfl⟩ := Prod.mk.inj (Except.ok.inj hs)
      refine ⟨'.' :: cs.takeWhile Char.isDigit, ?_, fun r hr => ?_⟩
      · rw [List.cons_append, List.takeWhile_append_dropWhile]
      · exact readFraction_digits hne (fun _ he => List.mem_takeWhile_imp he)
          (hr.halts Token.isDigit_of_mem_closers (.dropWhile _ cs))
  · have hhalts : Halts (· == '.') s := fun c cs hcs =>
      beq_eq_false_iff_ne.mpr fun hc => hpoint ⟨cs, hc ▸ hcs⟩
    obtain ⟨rfl, rfl⟩ := Prod.mk.inj (Except.ok.inj ((readFraction_none hhalts).symm.trans hs))
    have hclosers : ∀ c ∈ closers, (c == '.') = false := List.all_iff_forall_prop.mp rfl
    exact ⟨[], rfl, fun r hr => readFraction_none (hr.halts hclosers hhalts)⟩

/-- A letter that begins a power of ten. -/
def beginsPower (c : Char) : Bool := decide (c = 'e' ∨ c = 'E')

theorem readExponent_none {isZero : Bool} (h : Halts beginsPower rest) :
    readExponent isZero rest = .ok (0, rest) := by
  cases rest with
  | nil => rfl
  | cons c cs =>
    rw [readExponent, if_neg (of_decide_eq_false (h c cs rfl))]

/-- A power of ten is taken unless it is too large, positive, and of digits that are not all zero. -/
theorem readExponent_written {isZero negative : Bool} {c : Char} (hc : c = 'e' ∨ c = 'E')
    (hs : Numeral.scanSign s = (negative, d ++ rest)) (hne : d ≠ []) (hd : ∀ e ∈ d, e.isDigit)
    (h : Halts Char.isDigit rest) (hsize : excess? 0 d = none ∨ (isZero || negative) = true) :
    readExponent isZero (c :: s) = .ok (Numeral.power (negative, d), rest) := by
  obtain ⟨e, es, rfl⟩ := List.exists_cons_of_ne_nil hne
  simp only [readExponent, hc, if_true, hs, h.takeWhile_append hd, h.dropWhile_append hd]
  split
  · next hexcess =>
    rw [if_pos (hsize.resolve_left fun hnone => by cases hnone.symm.trans hexcess)]
    rfl
  · rfl

/-- Behind a sign with digits there may stand whatever ends the digits. -/
theorem scanSign_local (hd : (Numeral.scanSign s).2 = d ++ rest) (hne : d ≠ []) :
    ∃ sign, s = sign ++ (d ++ rest) ∧
      ∀ r, Numeral.scanSign (sign ++ (d ++ r)) = ((Numeral.scanSign s).1, d ++ r) := by
  obtain ⟨e, es, rfl⟩ := List.exists_cons_of_ne_nil hne
  cases s with
  | nil => cases hd
  | cons c cs =>
    by_cases hminus : c = '-'
    · subst hminus
      exact ⟨['-'], congrArg ('-' :: ·) hd, fun _ => rfl⟩
    by_cases hplus : c = '+'
    · subst hplus
      exact ⟨['+'], congrArg ('+' :: ·) hd, fun _ => rfl⟩
    rw [Numeral.scanSign_of_ne hminus hplus] at hd ⊢
    obtain ⟨rfl, rfl⟩ := List.cons.inj hd
    exact ⟨[], rfl, fun r => Numeral.scanSign_of_ne hminus hplus⟩

theorem readExponent_local {isZero : Bool} {e : Int} (hs : readExponent isZero s = .ok (e, rest)) :
    Local (fun t r => readExponent isZero t = .ok (e, r)) s rest := by
  by_cases hletter : ∃ c cs, s = c :: cs ∧ (c = 'e' ∨ c = 'E')
  · obtain ⟨c, cs, rfl, hc⟩ := hletter
    -- The digits behind the letter and the sign, and what stands behind them.
    obtain ⟨d, r, hd, hne, hdigits, hhalts⟩ : ∃ d r, (Numeral.scanSign cs).2 = d ++ r ∧ d ≠ [] ∧
        (∀ e ∈ d, e.isDigit) ∧ Halts Char.isDigit r := by
      refine ⟨_, _, List.takeWhile_append_dropWhile.symm, ?_,
        fun _ he => List.mem_takeWhile_imp he, .dropWhile Char.isDigit _⟩
      intro hnone
      simp only [readExponent, hc, if_true, hnone] at hs
      split at hs <;> cases hs
    obtain ⟨sign, hcs, hsign⟩ := scanSign_local hd hne
    have hsize : excess? 0 d = none ∨ (isZero || (Numeral.scanSign cs).1) = true := by
      refine or_iff_not_imp_right.mpr fun hbig => Option.eq_none_iff_forall_ne_some.mpr ?_
      intro left hexcess
      obtain ⟨e, es, rfl⟩ := List.exists_cons_of_ne_nil hne
      simp only [readExponent, hc, if_true, hd, hhalts.takeWhile_append hdigits, hexcess,
        hbig, Bool.false_eq_true, if_false] at hs
      cases hs
    have hwritten := readExponent_written hc (Prod.ext rfl hd) hne hdigits hhalts hsize
    obtain ⟨rfl, rfl⟩ := Prod.mk.inj (Except.ok.inj (hwritten.symm.trans hs))
    refine ⟨c :: (sign ++ d), by rw [hcs]; simp, fun u hu => ?_⟩
    rw [List.cons_append, List.append_assoc]
    exact readExponent_written hc (hsign u) hne hdigits
      (hu.halts Token.isDigit_of_mem_closers hhalts) hsize
  · have hhalts : Halts beginsPower s := fun c cs hcs =>
      decide_eq_false fun hc => hletter ⟨c, cs, hcs, hc⟩
    obtain ⟨rfl, rfl⟩ := Prod.mk.inj (Except.ok.inj ((readExponent_none hhalts).symm.trans hs))
    have hclosers : ∀ c ∈ closers, beginsPower c = false := List.all_iff_forall_prop.mp rfl
    exact ⟨[], rfl, fun r hr => readExponent_none (hr.halts hclosers hhalts)⟩

theorem readNumeral_local {negative : Bool} {x : Number}
    (hs : readNumeral negative s = .ok (x, rest)) :
    Local (fun t r => readNumeral negative t = .ok (x, r)) s rest := by
  unfold readNumeral at hs
  obtain ⟨⟨whole, s₁⟩, hwhole, hs⟩ := ok_of_bind hs
  obtain ⟨⟨fraction, s₂⟩, hfraction, hs⟩ := ok_of_bind hs
  obtain ⟨⟨exponent, s₃⟩, hexponent, hs⟩ := ok_of_bind hs
  dsimp only at hs
  split at hs
  · cases hs
  · next hfinite =>
    obtain ⟨rfl, rfl⟩ := Prod.mk.inj (Except.ok.inj hs)
    have hparts := (readWhole_local hwhole).comp
      ((readFraction_local hfraction).comp (readExponent_local hexponent))
    refine hparts.imp ?_
    rintro u r ⟨u₁, hwhole, u₂, hfraction, hexponent⟩
    rw [readNumeral, hwhole]
    show (readFraction u₁ >>= _) = _
    rw [hfraction]
    show (readExponent _ u₂ >>= _) = _
    rw [hexponent]
    exact if_neg hfinite

/-- A numeral begins with a digit. -/
theorem begins_of_readNumeral {negative : Bool} {x : Number}
    (hs : readNumeral negative s = .ok (x, rest)) : Number.Begins s := by
  unfold readNumeral at hs
  obtain ⟨⟨whole, s₁⟩, hwhole, -⟩ := ok_of_bind hs
  obtain ⟨htake, -, hne⟩ := readWhole_eq hwhole
  cases s with
  | nil => cases hwhole
  | cons c cs =>
    refine ⟨c, cs, rfl, ?_⟩
    by_contra hc
    rw [List.takeWhile_cons_of_neg hc] at htake
    exact hne htake.symm

theorem readNumber_of_begins (h : Number.Begins s) : readNumber s = readNumeral false s := by
  rw [readNumber]
  rintro cs rfl
  obtain ⟨c, ds, heq, hc⟩ := h
  obtain ⟨rfl, -⟩ := List.cons.inj heq
  cases hc

theorem readNumber_cases {x : Number} (hs : readNumber s = .ok (x, rest)) :
    (∃ cs, s = '-' :: cs ∧ readNumeral true cs = .ok (x, rest)) ∨
      readNumeral false s = .ok (x, rest) := by
  unfold readNumber at hs
  split at hs
  · exact .inl ⟨_, rfl, hs⟩
  · exact .inr hs

/-- A number begins with a minus or a digit. -/
theorem begins_of_readNumber {x : Number} (hs : readNumber s = .ok (x, rest)) :
    ∃ c cs, s = c :: cs ∧ (c = '-' ∨ c.isDigit) := by
  rcases readNumber_cases hs with ⟨cs, rfl, -⟩ | hnumeral
  · exact ⟨'-', cs, rfl, .inl rfl⟩
  · obtain ⟨c, cs, rfl, hc⟩ := begins_of_readNumeral hnumeral
    exact ⟨c, cs, rfl, .inr hc⟩

theorem readNumber_local {x : Number} (hs : readNumber s = .ok (x, rest)) :
    Local (fun t r => readNumber t = .ok (x, r)) s rest := by
  rcases readNumber_cases hs with ⟨cs, rfl, hnumeral⟩ | hnumeral
  · refine ((readNumeral_local hnumeral).cons '-').imp ?_
    rintro _ r ⟨u, rfl, hu⟩
    exact hu
  · exact (readNumeral_local hnumeral).imp fun u r hu =>
      (readNumber_of_begins (begins_of_readNumeral hu)).trans hu

/-- A number is taken from a longer text as it is from a shorter one. -/
theorem readNumber_append {x : Number} {r : List Char} (h : Ends rest)
    (hs : readNumber s = .ok (x, r)) : readNumber (s ++ rest) = .ok (x, r ++ rest) := by
  obtain ⟨front, rfl, hnumber⟩ := readNumber_local hs
  rw [List.append_assoc]
  exact hnumber _ (.of_ends h r)

end

theorem readFraction_eq {s d r : List Char} (hs : readFraction s = .ok (d, r)) :
    Numeral.scanFraction s = (d, r) := by
  unfold readFraction at hs
  split at hs
  · next cs =>
    split at hs
    · split at hs <;> cases hs
    · obtain ⟨rfl, rfl⟩ := Prod.mk.inj (Except.ok.inj hs)
      rfl
  · next hpoint =>
    obtain ⟨rfl, rfl⟩ := Prod.mk.inj (Except.ok.inj hs)
    rw [Numeral.scanFraction]
    exact hpoint

theorem readExponent_eq {isZero : Bool} {s r : List Char} {e : Int}
    (hs : readExponent isZero s = .ok (e, r)) : Numeral.scanExponent s = (e, r) := by
  cases s with
  | nil => exact Except.ok.inj hs
  | cons c cs =>
    by_cases he : c = 'e' ∨ c = 'E'
    · simp only [readExponent, Numeral.scanExponent, he, if_true] at hs ⊢
      split at hs
      · split at hs <;> cases hs
      · next hdigits =>
        rw [if_neg fun hempty => hdigits (List.isEmpty_iff.mp hempty)]
        split at hs
        · split at hs
          · exact Except.ok.inj hs
          · cases hs
        · exact Except.ok.inj hs
    · simp only [readExponent, Numeral.scanExponent, he, if_false] at hs ⊢
      exact Except.ok.inj hs

/-- What is taken for a numeral, a reader of plain numbers takes for the same one. -/
theorem scan_of_readNumeral {negative : Bool} {s : List Char} {x : Number}
    (hs : readNumeral negative s = .ok (x, [])) :
    ∃ numeral, Numeral.scan s = (numeral, []) ∧ numeral.whole ≠ [] ∧
      x = if negative then -numeral.value else numeral.value := by
  unfold readNumeral at hs
  obtain ⟨⟨whole, s₁⟩, hwhole, hs⟩ := ok_of_bind hs
  obtain ⟨⟨fraction, s₂⟩, hfraction, hs⟩ := ok_of_bind hs
  obtain ⟨⟨exponent, s₃⟩, hexponent, hs⟩ := ok_of_bind hs
  obtain ⟨htake, hdrop, hne⟩ := readWhole_eq hwhole
  dsimp only at hs hfraction hexponent
  split at hs
  · cases hs
  · obtain ⟨rfl, rfl⟩ := Prod.mk.inj (Except.ok.inj hs)
    refine ⟨⟨false, whole, fraction, exponent⟩, ?_, hne, ?_⟩
    · simp only [Numeral.scan, htake, hdrop, readFraction_eq hfraction, readExponent_eq hexponent]
    · cases negative <;> rfl

/-- A text that is a number for the reader denotes that number. -/
theorem ofText_of_readNumber {text : String} {x : Number}
    (h : readNumber text.toList = .ok (x, [])) : Number.ofText text = .ok x := by
  have hempty : text.isEmpty = false := by
    rw [Bool.eq_false_iff, ne_eq, String.isEmpty_iff]
    rintro rfl
    cases h
  rw [Number.ofText, if_neg (Bool.eq_false_iff.mp hempty)]
  rcases readNumber_cases h with ⟨cs, hcs, h⟩ | h
  · rw [hcs]
    obtain ⟨numeral, hscan, hwhole, rfl⟩ := scan_of_readNumeral h
    obtain ⟨_, hsize⟩ := Numeral.size?_of_scan hscan hwhole
    simp only [Numeral.scanSign, hsize, if_true]
  · obtain ⟨numeral, hscan, hwhole, rfl⟩ := scan_of_readNumeral h
    obtain ⟨hbegins, hsize⟩ := Numeral.size?_of_scan hscan hwhole
    simp only [Number.scanSign_begins hbegins, hsize, Bool.false_eq_true, if_false]

end JsonFilter.Json

namespace JsonFilter.Number

open Json

/-- Whether the JSON text of a number is decoded as a number that equals it. -/
def decodes (n : Number) : Bool :=
  match readNumber n.json.toList with
  | .ok (m, []) => m == n
  | _ => false

/-- What is decoded is what the text denotes. -/
theorem of_decodes {n : Number} (h : n.decodes) :
    readNumber n.json.toList = .ok (n.reread, []) ∧ n.readsBack := by
  unfold decodes at h
  split at h
  · next m hm =>
    have htext := ofText_of_readNumber hm
    rw [reread, readsBack, htext]
    exact ⟨hm, h⟩
  · cases h

/-- The text of a number that is decoded begins like a number. -/
theorem head_of_decodes {n : Number} (h : n.decodes) :
    ∃ c cs, n.json.toList = c :: cs ∧ (c = '-' ∨ c.isDigit = true) :=
  begins_of_readNumber (of_decodes h).1

end JsonFilter.Number
