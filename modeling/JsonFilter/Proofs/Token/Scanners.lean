import JsonFilter.Proofs.Json.Lexing
import Mathlib.Data.List.TakeWhile

/-!
Scanners. A scanner is steady if a text that is cut off anywhere behind the lexeme has the same
token at its front, and a longer text still has one. Both are kept when one scanner is tried after
another, so they hold of `scan?` once they hold of the scanners that it tries. It follows that a
lexeme by itself is the token that it was in the text (`Steady.alone`), and that no longer beginning
of the text is a token by itself (`Steady.longest`).
-/

namespace JsonFilter

/-! ## Where a run of characters ends -/

/-- A text does not begin with a character of a class. -/
def Halts (p : Char → Bool) (s : List Char) : Prop := ∀ c cs, s = c :: cs → p c = false

namespace Halts

variable {p : Char → Bool} {r s cs : List Char}

theorem nil : Halts p [] := by
  intro c cs h
  cases h

theorem of_front (h : Halts p s) (hr : r <+: s) : Halts p r := by
  rintro c cs rfl
  obtain ⟨u, rfl⟩ := hr
  exact h c (cs ++ u) rfl

theorem dropWhile (p : Char → Bool) (s : List Char) : Halts p (s.dropWhile p) := by
  induction s with
  | nil => exact nil
  | cons c cs ih =>
    rw [List.dropWhile_cons]
    split
    · exact ih
    · next hc =>
      rintro d ds heq
      obtain ⟨rfl, _⟩ := List.cons.inj heq
      simpa using hc

theorem of_takeWhile (h : s.takeWhile p = []) : Halts p s := by
  rintro c cs rfl
  rw [List.takeWhile_cons] at h
  split at h
  · cases h
  · next hc => simpa using hc

theorem takeWhile_eq (h : Halts p s) : s.takeWhile p = [] := by
  cases s with
  | nil => rfl
  | cons c cs => rw [List.takeWhile_cons, h c cs rfl]; rfl

theorem dropWhile_eq (h : Halts p s) : s.dropWhile p = s := by
  cases s with
  | nil => rfl
  | cons c cs => rw [List.dropWhile_cons, h c cs rfl]; rfl

theorem takeWhile_append (h : Halts p s) (hcs : ∀ c ∈ cs, p c) : (cs ++ s).takeWhile p = cs := by
  rw [List.takeWhile_append_of_pos hcs, h.takeWhile_eq, List.append_nil]

theorem dropWhile_append (h : Halts p s) (hcs : ∀ c ∈ cs, p c) : (cs ++ s).dropWhile p = s := by
  rw [List.dropWhile_append_of_pos hcs, h.dropWhile_eq]

end Halts

namespace Token

/-! ## Steady scanners -/

/-- Takes a token from the front of a text, if there is one. -/
abbrev Scanner := (s : List Char) → Option (Scanned s)

/-- A scanner takes a token of a kind from a text that consists of this lexeme and this rest. -/
def Takes (scanner : Scanner) (s : List Char) (kind : Kind) (lexeme rest : List Char) : Prop :=
  ∃ t, scanner s = some t ∧ t.kind = kind ∧ t.lexeme = lexeme ∧ t.rest = rest

/-- A scanner that looks no further than it has to. -/
structure Steady (scanner : Scanner) : Prop where
  /-- The token is the same if the text ends sooner, but behind the lexeme. -/
  cut : ∀ {s kind lexeme rest r}, Takes scanner s kind lexeme rest → r <+: rest →
    Takes scanner (lexeme ++ r) kind lexeme r
  /-- A text that goes on still has a token at its front. -/
  kept : ∀ {s} u, (scanner s).isSome → (scanner (s ++ u)).isSome

section
variable {scanner : Scanner} {s lexeme rest lexeme' rest' : List Char} {kind kind' : Kind}

theorem Takes.splits (h : Takes scanner s kind lexeme rest) : s = lexeme ++ rest := by
  obtain ⟨t, _, _, rfl, rfl⟩ := h
  exact t.splits.symm

theorem Takes.ne_nil (h : Takes scanner s kind lexeme rest) : lexeme ≠ [] := by
  obtain ⟨t, _, _, rfl, _⟩ := h
  exact t.nonempty

theorem Takes.isSome (h : Takes scanner s kind lexeme rest) : (scanner s).isSome := by
  obtain ⟨t, ht, _⟩ := h
  rw [ht]
  rfl

theorem takes_of_eq_some {t : Scanned s} (h : scanner s = some t) :
    Takes scanner s t.kind t.lexeme t.rest :=
  ⟨t, h, rfl, rfl, rfl⟩

theorem Takes.rest_eq (h : Takes scanner s kind lexeme rest)
    (h' : Takes scanner s kind' lexeme' rest') : rest = rest' := by
  obtain ⟨t, ht, _, _, rfl⟩ := h
  obtain ⟨t', ht', _, _, rfl⟩ := h'
  obtain rfl := Option.some.inj (ht.symm.trans ht')
  rfl

namespace Steady

/-- A lexeme by itself is the token that it was in the text. -/
theorem alone (h : Steady scanner) (ht : Takes scanner s kind lexeme rest) :
    Takes scanner lexeme kind lexeme [] := by
  have hcut := h.cut ht (List.nil_prefix)
  rwa [List.append_nil] at hcut

/-- No beginning of the text that is a token by itself is longer than the lexeme. -/
theorem longest (h : Steady scanner) (ht : Takes scanner s kind lexeme rest)
    (hfront : lexeme' <+: s) (ht' : Takes scanner lexeme' kind' lexeme' []) :
    lexeme'.length ≤ lexeme.length := by
  apply Nat.le_of_not_lt
  intro hlt
  rw [ht.splits] at hfront
  -- What the longer token has beyond the lexeme would be left over.
  obtain ⟨r, rfl⟩ : lexeme <+: lexeme' :=
    List.prefix_of_prefix_length_le (List.prefix_append lexeme rest) hfront (Nat.le_of_lt hlt)
  have hr : r <+: rest := (List.prefix_append_right_inj lexeme).mp hfront
  obtain rfl := (h.cut ht hr).rest_eq ht'
  simp at hlt

/-- One steady scanner after another. -/
theorem orElse {x y : Scanner} (hx : Steady x) (hy : Steady y) : Steady fun s => x s <|> y s where
  cut := by
    intro s kind lexeme rest r ht hr
    cases hxs : x s with
    | some t =>
      have htx : Takes x s kind lexeme rest := by
        obtain ⟨t', ht', hfacts⟩ := ht
        simp only [hxs, Option.orElse_eq_orElse, Option.orElse_some] at ht'
        exact ⟨t', hxs.trans ht', hfacts⟩
      obtain ⟨t', ht', hfacts⟩ := hx.cut htx hr
      exact ⟨t', by simp only [ht', Option.orElse_eq_orElse, Option.orElse_some], hfacts⟩
    | none =>
      have hty : Takes y s kind lexeme rest := by
        obtain ⟨t', ht', hfacts⟩ := ht
        simp only [hxs, Option.orElse_eq_orElse, Option.orElse_none] at ht'
        exact ⟨t', ht', hfacts⟩
      -- The first scanner takes nothing from the shorter text, or else it would from the longer.
      have hnone : x (lexeme ++ r) = none := by
        cases hcut : x (lexeme ++ r) with
        | none => rfl
        | some t =>
          obtain ⟨u, rfl⟩ := hr
          have hkept := hx.kept u (by rw [hcut]; rfl)
          rw [List.append_assoc, ← hty.splits, hxs] at hkept
          cases hkept
      obtain ⟨t', ht', hfacts⟩ := hy.cut hty hr
      exact ⟨t', by simp only [hnone, ht', Option.orElse_eq_orElse, Option.orElse_none], hfacts⟩
  kept := by
    intro s u h
    have horElse : ∀ t, (x t <|> y t).isSome ↔ (x t).isSome ∨ (y t).isSome := by
      intro t
      cases x t <;> simp
    exact (horElse _).mpr (((horElse s).mp h).imp (hx.kept u) (hy.kept u))

/-- The first of some steady scanners that takes anything. -/
theorem findSome {α : Type} {f : α → Scanner} (h : ∀ a, Steady (f a)) (as : List α) :
    Steady fun s => as.findSome? fun a => f a s := by
  induction as with
  | nil =>
    refine ⟨fun ht _ => ?_, fun u hsome => ?_⟩
    · obtain ⟨t, ht, _⟩ := ht
      cases ht
    · cases hsome
  | cons a as ih =>
    have horElse : (fun s => (a :: as).findSome? fun a => f a s) =
        fun s => f a s <|> as.findSome? fun a => f a s := by
      funext s
      rw [List.findSome?_cons]
      cases f a s <;> rfl
    rw [horElse]
    exact (h a).orElse ih

end Steady

end

/-! ## Symbols and words -/

theorem takes_symbol (symbol : Symbol) (r : List Char) :
    Takes (scanSymbol? symbol) (symbol.text.toList ++ r) (.symbol symbol) symbol.text.toList r := by
  have hstrip : ∀ lead : List Char, ∃ h, strip? lead (lead ++ r) = some ⟨r, h⟩ := by
    intro lead
    induction lead with
    | nil => exact ⟨rfl, rfl⟩
    | cons l ls ih =>
      obtain ⟨h, hls⟩ := ih
      refine ⟨rfl, ?_⟩
      simp only [List.cons_append, strip?, ↓reduceDIte, hls, Option.map_some]
  obtain ⟨h, hlead⟩ := hstrip symbol.text.toList
  unfold Takes scanSymbol?
  rw [hlead]
  exact ⟨_, rfl, rfl, rfl, rfl⟩

theorem of_takes_symbol {symbol : Symbol} {s lexeme rest : List Char} {kind : Kind}
    (h : Takes (scanSymbol? symbol) s kind lexeme rest) :
    kind = .symbol symbol ∧ lexeme = symbol.text.toList := by
  obtain ⟨t, ht, rfl, rfl, -⟩ := h
  obtain ⟨r, _, rfl⟩ := Option.map_eq_some_iff.mp ht
  exact ⟨rfl, rfl⟩

theorem steady_symbol (symbol : Symbol) : Steady (scanSymbol? symbol) := by
  refine ⟨fun ht _ => ?_, fun u h => ?_⟩
  · obtain ⟨rfl, rfl⟩ := of_takes_symbol ht
    exact takes_symbol symbol _
  · obtain ⟨t, ht⟩ := Option.isSome_iff_exists.mp h
    have htakes := takes_of_eq_some ht
    rw [htakes.splits, (of_takes_symbol htakes).2, List.append_assoc]
    exact (takes_symbol symbol _).isSome

theorem takes_word {c : Char} {cs r : List Char} (hstart : isWordStart c)
    (hpart : ∀ d ∈ cs, isWordPart d) (hr : Halts isWordPart r) :
    Takes scanWord? (c :: (cs ++ r)) (.ofWord (String.ofList (c :: cs))) (c :: cs) r := by
  refine ⟨_, if_pos hstart, ?_, ?_, hr.dropWhile_append hpart⟩
  · show Kind.ofWord (String.ofList (c :: (cs ++ r).takeWhile isWordPart)) = _
    rw [hr.takeWhile_append hpart]
  · show c :: (cs ++ r).takeWhile isWordPart = _
    rw [hr.takeWhile_append hpart]

/-- A word is all of the text that could belong to it. -/
theorem of_takes_word {s lexeme rest : List Char} {kind : Kind}
    (h : Takes scanWord? s kind lexeme rest) :
    ∃ c cs, lexeme = c :: cs ∧ kind = .ofWord (String.ofList lexeme) ∧ isWordStart c ∧
      (∀ d ∈ cs, isWordPart d) ∧ Halts isWordPart rest := by
  obtain ⟨t, ht, rfl, rfl, rfl⟩ := h
  unfold scanWord? at ht
  split at ht
  · cases ht
  · split at ht
    · next c cs hstart =>
      obtain rfl := Option.some.inj ht
      exact ⟨c, _, rfl, rfl, hstart, fun d hd => List.mem_takeWhile_imp hd, .dropWhile _ cs⟩
    · cases ht

theorem steady_word : Steady scanWord? := by
  refine ⟨fun ht hr => ?_, fun u h => ?_⟩
  · obtain ⟨c, cs, rfl, rfl, hstart, hpart, hrest⟩ := of_takes_word ht
    exact takes_word hstart hpart (hrest.of_front hr)
  · unfold scanWord? at h ⊢
    split at h
    · cases h
    · next c cs =>
      split at h
      · next hstart => simp only [List.cons_append, if_pos hstart, Option.isSome_some]
      · cases h

/-- A mark and the word behind it. -/
theorem takes_marked {mark : Char} {kind : String → Kind} {s lexeme rest : List Char} {k : Kind} :
    Takes (scanMarked? mark kind) s k lexeme rest ↔
      ∃ word k', lexeme = mark :: word ∧ k = kind (String.ofList word) ∧ s = mark :: (word ++ rest) ∧
        Takes scanWord? (word ++ rest) k' word rest := by
  constructor
  · rintro ⟨t, ht, rfl, rfl, rfl⟩
    unfold scanMarked? at ht
    split at ht
    · cases ht
    · next c cs =>
      split at ht
      · next hmark =>
        obtain rfl := hmark
        obtain ⟨w, hw, rfl⟩ := Option.map_eq_some_iff.mp ht
        have htakes := takes_of_eq_some hw
        exact ⟨w.lexeme, w.kind, rfl, rfl, by rw [w.splits], by rw [w.splits]; exact htakes⟩
      · cases ht
  · rintro ⟨word, k', hlexeme, hk, rfl, w, hw, _, hword, hrest⟩
    unfold Takes scanMarked?
    simp only [↓reduceIte, hw, Option.map_some]
    exact ⟨_, rfl, (congrArg (kind ∘ String.ofList) hword).trans hk.symm,
      (congrArg (mark :: ·) hword).trans hlexeme.symm, hrest⟩

theorem steady_marked (mark : Char) (kind : String → Kind) : Steady (scanMarked? mark kind) := by
  refine ⟨fun ht hr => ?_, fun u h => ?_⟩
  · obtain ⟨word, k', rfl, rfl, _, hword⟩ := takes_marked.mp ht
    exact takes_marked.mpr ⟨word, k', rfl, rfl, rfl, steady_word.cut hword hr⟩
  · obtain ⟨t, ht⟩ := Option.isSome_iff_exists.mp h
    obtain ⟨word, k', _, _, hs, hword⟩ := takes_marked.mp (takes_of_eq_some ht)
    obtain ⟨w, hw⟩ := Option.isSome_iff_exists.mp (steady_word.kept u hword.isSome)
    have hmarked : Takes (scanMarked? mark kind) (mark :: (word ++ t.rest ++ u))
        (kind (String.ofList w.lexeme)) (mark :: w.lexeme) w.rest :=
      takes_marked.mpr ⟨w.lexeme, w.kind, rfl, rfl, by rw [w.splits], by
        rw [w.splits]
        exact takes_of_eq_some hw⟩
    rw [hs, List.cons_append]
    exact hmarked.isSome

end Token

/-! ## Numerals -/

namespace Numeral

/-- What a part of a numeral takes from a text is told by itself: it is the same if the rest ends
sooner. -/
def LocalAt {α : Type} (part : List Char → α × List Char) (s : List Char) : Prop :=
  ∃ front, s = front ++ (part s).2 ∧ ∀ r, r <+: (part s).2 → part (front ++ r) = ((part s).1, r)

/-- One part and then another one. -/
def both {α β : Type} (x : List Char → α × List Char) (y : List Char → β × List Char)
    (s : List Char) : (α × β) × List Char :=
  (((x s).1, (y (x s).2).1), (y (x s).2).2)

section
variable {α β : Type} {x : List Char → α × List Char} {y : List Char → β × List Char}
  {s : List Char}

/-- A part that is missing is missing as well if the text ends sooner. -/
theorem LocalAt.of_missing {a : α} (h : ∀ r, r <+: s → x r = (a, r)) : LocalAt x s := by
  unfold LocalAt
  rw [h s (List.prefix_refl s)]
  exact ⟨[], rfl, h⟩

theorem LocalAt.both (hx : LocalAt x s) (hy : LocalAt y (x s).2) : LocalAt (both x y) s := by
  obtain ⟨front, hfront, hcut⟩ := hx
  obtain ⟨front', hfront', hcut'⟩ := hy
  refine ⟨front ++ front', ?_, fun r hr => ?_⟩
  · rw [List.append_assoc]
    exact hfront.trans (congrArg (front ++ ·) hfront')
  · have hr' : front' ++ r <+: (x s).2 := by
      rw [hfront']
      exact (List.prefix_append_right_inj front').mpr hr
    unfold Numeral.both
    rw [List.append_assoc, hcut _ hr', hcut' r hr]

theorem LocalAt.map (f : α → β) (hx : LocalAt x s) : LocalAt (fun s => (f (x s).1, (x s).2)) s := by
  obtain ⟨front, hfront, hcut⟩ := hx
  exact ⟨front, hfront, fun r hr => by simp only [hcut r hr]⟩

end

/-- The digits at the front of a text. -/
def scanDigits (s : List Char) : List Char × List Char :=
  (s.takeWhile Char.isDigit, s.dropWhile Char.isDigit)

theorem local_scanDigits (s : List Char) : LocalAt scanDigits s := by
  refine ⟨s.takeWhile Char.isDigit, List.takeWhile_append_dropWhile.symm, fun r hr => ?_⟩
  have hrest : Halts Char.isDigit r := (Halts.dropWhile _ s).of_front hr
  have hdigits : ∀ c ∈ s.takeWhile Char.isDigit, c.isDigit := fun c hc => List.mem_takeWhile_imp hc
  rw [scanDigits, hrest.takeWhile_append hdigits, hrest.dropWhile_append hdigits]
  rfl

theorem scanSign_of_ne {c : Char} {cs : List Char} (hminus : c ≠ '-') (hplus : c ≠ '+') :
    scanSign (c :: cs) = (false, c :: cs) := by
  unfold scanSign
  split
  · next heq => exact absurd (List.cons.inj heq).1 hminus
  · next heq => exact absurd (List.cons.inj heq).1 hplus
  · rfl

/-- A text that ends sooner has less behind its sign. -/
theorem scanSign_front {r s : List Char} (hr : r <+: s) : (scanSign r).2 <+: (scanSign s).2 := by
  obtain ⟨u, rfl⟩ := hr
  cases r with
  | nil => exact List.nil_prefix
  | cons c cs =>
    by_cases hminus : c = '-'
    · subst hminus
      exact List.prefix_append cs u
    by_cases hplus : c = '+'
    · subst hplus
      exact List.prefix_append cs u
    rw [List.cons_append, scanSign_of_ne hminus hplus, scanSign_of_ne hminus hplus]
    exact List.prefix_append (c :: cs) u

theorem local_scanSign (s : List Char) : LocalAt scanSign s := by
  cases s with
  | nil => exact .of_missing fun r hr => by rw [List.prefix_nil.mp hr]; rfl
  | cons c cs =>
    by_cases hminus : c = '-'
    · subst hminus
      exact ⟨['-'], rfl, fun r _ => rfl⟩
    by_cases hplus : c = '+'
    · subst hplus
      exact ⟨['+'], rfl, fun r _ => rfl⟩
    apply LocalAt.of_missing
    intro r hr
    cases r with
    | nil => rfl
    | cons d ds =>
      obtain ⟨rfl, _⟩ := List.cons_prefix_cons.mp hr
      exact scanSign_of_ne hminus hplus

theorem scanFraction_of_ne {c : Char} {cs : List Char} (hpoint : c ≠ '.') :
    scanFraction (c :: cs) = ([], c :: cs) := by
  unfold scanFraction
  split
  · next heq => exact absurd (List.cons.inj heq).1 hpoint
  · rfl

theorem local_scanFraction (s : List Char) : LocalAt scanFraction s := by
  cases s with
  | nil => exact .of_missing fun r hr => by rw [List.prefix_nil.mp hr]; rfl
  | cons c cs =>
    by_cases hpoint : c = '.'
    · subst hpoint
      obtain ⟨digits, hdigits, hcut⟩ := local_scanDigits cs
      exact ⟨'.' :: digits, congrArg ('.' :: ·) hdigits, hcut⟩
    apply LocalAt.of_missing
    intro r hr
    cases r with
    | nil => rfl
    | cons d ds =>
      obtain ⟨rfl, _⟩ := List.cons_prefix_cons.mp hr
      exact scanFraction_of_ne hpoint

/-- The exponent that a sign and digits denote. -/
def power (written : Bool × List Char) : Int :=
  if written.1 then -(digitsValue written.2 : Int) else digitsValue written.2

/-- The letter `e` belongs to a numeral if there are digits behind it and its sign. -/
theorem scanExponent_cons (c : Char) (cs : List Char) :
    scanExponent (c :: cs) =
      if (c = 'e' ∨ c = 'E') ∧ (both scanSign scanDigits cs).1.2 ≠ [] then
        (power (both scanSign scanDigits cs).1, (both scanSign scanDigits cs).2)
      else (0, c :: cs) := by
  unfold scanExponent
  by_cases hletter : c = 'e' ∨ c = 'E'
  · by_cases hdigits : (scanSign cs).2.takeWhile Char.isDigit = []
    · simp [hletter, hdigits, both, scanDigits]
    · cases hsign : (scanSign cs).1 <;> simp [hletter, hdigits, hsign, both, power, scanDigits]
  · simp [hletter]

theorem local_scanExponent (s : List Char) : LocalAt scanExponent s := by
  cases s with
  | nil => exact .of_missing fun r hr => by rw [List.prefix_nil.mp hr]; rfl
  | cons c cs =>
    by_cases hwritten : (c = 'e' ∨ c = 'E') ∧ (both scanSign scanDigits cs).1.2 ≠ []
    · obtain ⟨front, hfront, hcut⟩ := (local_scanSign cs).both (local_scanDigits _)
      unfold LocalAt
      rw [scanExponent_cons, if_pos hwritten]
      refine ⟨c :: front, congrArg (c :: ·) hfront, fun r hr => ?_⟩
      rw [List.cons_append, scanExponent_cons, hcut r hr, if_pos hwritten]
    · apply LocalAt.of_missing
      intro r hr
      cases r with
      | nil => rfl
      | cons d ds =>
        obtain ⟨rfl, hds⟩ := List.cons_prefix_cons.mp hr
        rw [scanExponent_cons, if_neg]
        rintro ⟨hletter, hdigits⟩
        refine hwritten ⟨hletter, fun hnone => hdigits ?_⟩
        exact ((Halts.of_takeWhile hnone).of_front (scanSign_front hds)).takeWhile_eq

theorem local_scan (s : List Char) : LocalAt scan s := by
  have hparts : LocalAt (both scanDigits (both scanFraction scanExponent)) s :=
    (local_scanDigits s).both ((local_scanFraction _).both (local_scanExponent _))
  exact hparts.map fun parts => (⟨false, parts.1, parts.2.1, parts.2.2⟩ : Numeral)

end Numeral

namespace Token

theorem takes_upTo (kind : Kind) {lexeme : List Char} (rest : List Char) (h : lexeme ≠ []) :
    Takes (fun s => Scanned.upTo? kind s rest) (lexeme ++ rest) kind lexeme rest := by
  obtain ⟨t, ht, hkind, hrest⟩ := upTo?_append kind rest h
  exact ⟨t, ht, hkind, List.append_cancel_right ((congrArg (t.lexeme ++ ·) hrest).symm.trans t.splits),
    hrest⟩

theorem takes_number {lexeme rest : List Char} {numeral : Numeral}
    (h : Numeral.scan (lexeme ++ rest) = (numeral, rest)) (hwhole : numeral.whole ≠ [])
    (hlexeme : lexeme ≠ []) :
    Takes scanNumber? (lexeme ++ rest) (.number numeral.value) lexeme rest := by
  have heq : scanNumber? (lexeme ++ rest) =
      Scanned.upTo? (.number numeral.value) (lexeme ++ rest) rest := by
    simp only [scanNumber?, h, List.isEmpty_iff, hwhole, ↓reduceIte]
  obtain ⟨t, ht, hfacts⟩ := takes_upTo (.number numeral.value) rest hlexeme
  exact ⟨t, heq.trans ht, hfacts⟩

/-- A numeral is what the scan of the text says, and it has a whole part. -/
theorem of_takes_number {s lexeme rest : List Char} {kind : Kind}
    (h : Takes scanNumber? s kind lexeme rest) :
    (Numeral.scan s).1.whole ≠ [] ∧ kind = .number (Numeral.scan s).1.value ∧
      rest = (Numeral.scan s).2 := by
  obtain ⟨t, ht, rfl, rfl, rfl⟩ := h
  simp only [scanNumber?, Scanned.upTo?, List.isEmpty_iff] at ht
  split at ht
  · cases ht
  · next hwhole =>
    split at ht
    · obtain rfl := Option.some.inj ht
      exact ⟨hwhole, rfl, rfl⟩
    · cases ht

theorem scanNumber?_isSome {s : List Char} (h : (Numeral.scan s).1.whole ≠ []) :
    (scanNumber? s).isSome := by
  obtain ⟨front, hfront, hcut⟩ := Numeral.local_scan s
  have hne : front ≠ [] := by
    rintro rfl
    exact h (congrArg (fun read => read.1.whole) (hcut [] List.nil_prefix)).symm
  have htakes := takes_number (hcut _ (List.prefix_refl _)) h hne
  rw [← hfront] at htakes
  exact htakes.isSome

theorem steady_number : Steady scanNumber? := by
  refine ⟨fun {s kind lexeme rest r} ht hr => ?_, fun {s} u h => ?_⟩
  · obtain ⟨hwhole, rfl, rfl⟩ := of_takes_number ht
    obtain ⟨front, hfront, hcut⟩ := Numeral.local_scan s
    obtain rfl : front = lexeme := List.append_cancel_right (hfront.symm.trans ht.splits)
    exact takes_number (hcut r hr) hwhole ht.ne_nil
  · obtain ⟨t, ht⟩ := Option.isSome_iff_exists.mp h
    apply scanNumber?_isSome
    have hwhole : s.takeWhile Char.isDigit ≠ [] := (of_takes_number (takes_of_eq_some ht)).1
    cases s with
    | nil => exact absurd rfl hwhole
    | cons c cs =>
      have hc : c.isDigit := by
        cases hc : c.isDigit with
        | true => rfl
        | false => simp [hc] at hwhole
      show (c :: (cs ++ u)).takeWhile Char.isDigit ≠ []
      simp [hc]

/-! ## Strings -/

/-- An escape is told by its own characters, whatever stands behind them. -/
theorem scanEscape?_append {s t : List Char} {c : Char} (h : scanEscape? s = some (c, t)) :
    ∃ front, s = front ++ t ∧ ∀ r, scanEscape? (front ++ r) = some (c, r) := by
  unfold scanEscape? at h
  split at h
  · next x₁ x₂ x₃ x₄ r =>
    obtain ⟨first, hfirst, h⟩ := Option.bind_eq_some_iff.mp h
    split at h
    · next hhigh =>
      split at h
      · next y₁ y₂ y₃ y₄ r' _ =>
        obtain ⟨second, hsecond, h⟩ := Option.bind_eq_some_iff.mp h
        split at h
        · next hlow =>
          obtain ⟨rfl, rfl⟩ := Prod.mk.inj (Option.some.inj h)
          refine ⟨['u', x₁, x₂, x₃, x₄, '\\', 'u', y₁, y₂, y₃, y₄], rfl, fun r => ?_⟩
          simp [scanEscape?, hfirst, hhigh, hsecond, hlow]
        · cases h
      · cases h
    · next hhigh =>
      split at h
      · cases h
      · next hlow =>
        obtain ⟨rfl, rfl⟩ := Prod.mk.inj (Option.some.inj h)
        refine ⟨['u', x₁, x₂, x₃, x₄], rfl, fun r => ?_⟩
        simp [scanEscape?, hfirst, hhigh, hlow]
  · next d r hnot =>
    obtain ⟨e, he, heq⟩ := Option.map_eq_some_iff.mp h
    obtain ⟨rfl, rfl⟩ := Prod.mk.inj heq
    have hu : d ≠ 'u' := by
      rintro rfl
      cases he
    refine ⟨[d], rfl, fun r => ?_⟩
    rw [List.singleton_append, scanEscape?, he]
    · rfl
    · intro _ _ _ _ _ hd
      exact absurd hd hu
  · cases h

/-- The text of a string is told by the characters up to its closing quote. -/
theorem scanChars?_append {taken s text rest : List Char}
    (h : scanChars? taken s = some (text, rest)) :
    ∃ body, s = body ++ rest ∧ ∀ r, scanChars? taken (body ++ r) = some (text, r) := by
  fun_induction scanChars? taken s with
  | case1 => cases h
  | case2 taken r =>
    obtain ⟨rfl, rfl⟩ := Prod.mk.inj (Option.some.inj h)
    exact ⟨['"'], rfl, fun r => by rw [List.singleton_append, scanChars?]⟩
  | case3 => cases h
  | case4 taken r c t hescape hshorter ih =>
    obtain ⟨front, rfl, hfront⟩ := scanEscape?_append hescape
    obtain ⟨body, rfl, hbody⟩ := ih h
    refine ⟨'\\' :: (front ++ body), by simp, fun r => ?_⟩
    rw [List.cons_append, List.append_assoc, scanChars?_escape (hfront _), hbody]
  | case5 taken c r hquote hslash ih =>
    obtain ⟨body, rfl, hbody⟩ := ih h
    refine ⟨c :: body, rfl, fun r => ?_⟩
    rw [List.cons_append, scanChars?, hbody]
    · exact hquote
    · exact hslash

theorem of_takes_string {s lexeme rest : List Char} {kind : Kind}
    (h : Takes scanString? s kind lexeme rest) :
    ∃ body text, lexeme = '"' :: body ∧ kind = .string (String.ofList text) ∧
      ∀ r, scanChars? [] (body ++ r) = some (text, r) := by
  obtain ⟨t, ht, rfl, rfl, rfl⟩ := h
  unfold scanString? at ht
  split at ht
  · next cs =>
    split at ht
    · next text rest hchars =>
      obtain ⟨body, rfl, hbody⟩ := scanChars?_append hchars
      obtain ⟨t', ht', hkind, hlexeme, _⟩ :=
        takes_upTo (.string (String.ofList text)) rest (List.cons_ne_nil '"' body)
      obtain rfl := Option.some.inj (ht'.symm.trans ht)
      exact ⟨body, text, hlexeme, hkind, hbody⟩
    · cases ht
  · cases ht

theorem takes_string {body text : List Char}
    (h : ∀ r, scanChars? [] (body ++ r) = some (text, r)) (r : List Char) :
    Takes scanString? ('"' :: body ++ r) (.string (String.ofList text)) ('"' :: body) r := by
  obtain ⟨t, ht, hfacts⟩ :=
    takes_upTo (.string (String.ofList text)) r (List.cons_ne_nil '"' body)
  refine ⟨t, ?_, hfacts⟩
  simp only [List.cons_append, scanString?, h r]
  exact ht

theorem steady_string : Steady scanString? := by
  refine ⟨fun ht _ => ?_, fun {s} u h => ?_⟩
  · obtain ⟨body, text, rfl, rfl, hbody⟩ := of_takes_string ht
    exact takes_string hbody _
  · obtain ⟨t, ht⟩ := Option.isSome_iff_exists.mp h
    have htakes := takes_of_eq_some ht
    obtain ⟨body, text, hlexeme, _, hbody⟩ := of_takes_string htakes
    rw [htakes.splits, hlexeme, List.append_assoc]
    exact (takes_string hbody _).isSome

/-! ## All scanners -/

/-- The scanner of the language is steady. -/
theorem steady_scan? : Steady scan? :=
  (Steady.findSome steady_symbol Symbol.all).orElse <|
    (steady_marked '.' .field).orElse <|
    (steady_symbol .dot).orElse <|
    (steady_marked '$' .binding).orElse <|
    steady_number.orElse <|
    steady_string.orElse steady_word

end Token

end JsonFilter
