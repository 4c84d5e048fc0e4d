import JsonFilter.Proofs.Json.Numeral
import JsonFilter.Proofs.Token.Literals
import JsonFilter.Proofs.Token.Separation

/-!
Which texts are lexemes. They have six forms: the spelling of a symbol, a word, a word behind a dot
or behind a dollar sign, a numeral, and a string between quotes. A text of any of these forms is one
token by itself, and no other text is (`isLexeme_iff_form`).
-/

namespace JsonFilter

/-! ## Numerals -/

namespace Numeral

/-- The ways of writing a sign; the flag says whether it is a minus. -/
inductive SignForm : Bool → List Char → Prop
  | absent : SignForm false []
  | plus : SignForm false ['+']
  | minus : SignForm true ['-']

/-- The ways of writing the digits of a fraction. A point needs none behind it. -/
inductive FractionForm : List Char → List Char → Prop
  | absent : FractionForm [] []
  | point {digits : List Char} : (∀ c ∈ digits, c.isDigit) → FractionForm digits ('.' :: digits)

/-- The ways of writing a power of ten. -/
inductive ExponentForm : Int → List Char → Prop
  | absent : ExponentForm 0 []
  | letter {e : Char} {negative : Bool} {sign digits : List Char} : e = 'e' ∨ e = 'E' →
      SignForm negative sign → digits ≠ [] → (∀ c ∈ digits, c.isDigit) →
      ExponentForm (power (negative, digits)) (e :: (sign ++ digits))

/-- The ways of writing a numeral, which begins with a digit. -/
inductive Form : Numeral → List Char → Prop
  | intro {whole fraction fractionText exponentText : List Char} {exponent : Int} : whole ≠ [] →
      (∀ c ∈ whole, c.isDigit) → FractionForm fraction fractionText →
      ExponentForm exponent exponentText →
      Form ⟨false, whole, fraction, exponent⟩ (whole ++ (fractionText ++ exponentText))

section
variable {s digits : List Char}

theorem scanSign_form {negative : Bool} {sign : List Char} (h : SignForm negative sign)
    (hne : digits ≠ []) (hdigits : ∀ c ∈ digits, c.isDigit) :
    scanSign (sign ++ digits) = (negative, digits) := by
  cases h with
  | absent =>
    obtain ⟨c, cs, rfl⟩ := List.exists_cons_of_ne_nil hne
    have hc := hdigits c List.mem_cons_self
    refine scanSign_of_ne ?_ ?_
    · rintro rfl
      cases hc
    · rintro rfl
      cases hc
  | plus => rfl
  | minus => rfl

theorem scanDigits_all (hdigits : ∀ c ∈ digits, c.isDigit) : scanDigits digits = (digits, []) := by
  have hall := Halts.nil.takeWhile_append hdigits
  have hnone := Halts.nil.dropWhile_append hdigits
  rw [List.append_nil] at hall hnone
  rw [scanDigits, hall, hnone]

theorem scanExponent_form {exponent : Int} (h : ExponentForm exponent s) :
    scanExponent s = (exponent, []) := by
  cases h with
  | absent => rfl
  | @letter e negative sign digits he hsign hne hdigits =>
    have hboth : both scanSign scanDigits (sign ++ digits) = ((negative, digits), []) := by
      rw [both, scanSign_form hsign hne hdigits, scanDigits_all hdigits]
    rw [scanExponent_cons, hboth, if_pos ⟨he, hne⟩]

/-- A power of ten begins with neither a digit nor a point. -/
theorem ExponentForm.head {exponent : Int} (h : ExponentForm exponent s) {c : Char}
    {cs : List Char} (hs : s = c :: cs) : c.isDigit = false ∧ c ≠ '.' := by
  cases h with
  | absent => cases hs
  | letter he _ _ _ =>
    obtain ⟨rfl, -⟩ := List.cons.inj hs
    rcases he with rfl | rfl
    · exact ⟨rfl, by decide⟩
    · exact ⟨rfl, by decide⟩

theorem scanFraction_form {fraction fractionText : List Char} {exponent : Int}
    (h : FractionForm fraction fractionText) (hs : ExponentForm exponent s) :
    scanFraction (fractionText ++ s) = (fraction, s) := by
  cases h with
  | absent =>
    cases s with
    | nil => rfl
    | cons c cs => exact scanFraction_of_ne (hs.head rfl).2
  | point hdigits =>
    have hhalts : Halts Char.isDigit s := fun c cs heq => (hs.head heq).1
    rw [List.cons_append, scanFraction, hhalts.takeWhile_append hdigits,
      hhalts.dropWhile_append hdigits]

theorem Form.head {n : Numeral} (h : Form n s) :
    ∃ c cs, s = c :: cs ∧ c.isDigit ∧ n.whole ≠ [] := by
  cases h with
  | @intro whole fraction fractionText exponentText exponent hne hwhole _ _ =>
    obtain ⟨c, cs, rfl⟩ := List.exists_cons_of_ne_nil hne
    exact ⟨c, _, rfl, hwhole c List.mem_cons_self, hne⟩

/-- A numeral is scanned as a whole. -/
theorem scan_form {n : Numeral} (h : Form n s) : scan s = (n, []) := by
  cases h with
  | @intro whole fraction fractionText exponentText exponent _ hwhole hfraction hexponent =>
    have hhalts : Halts Char.isDigit (fractionText ++ exponentText) := by
      intro c cs heq
      cases hfraction with
      | absent => exact (hexponent.head heq).1
      | point _ =>
        obtain ⟨rfl, -⟩ := List.cons.inj heq
        rfl
    rw [scan, hhalts.dropWhile_append hwhole, hhalts.takeWhile_append hwhole,
      scanFraction_form hfraction hexponent]
    simp only [scanExponent_form hexponent]

end

theorem form_scanSign (s : List Char) :
    ∃ sign, SignForm (scanSign s).1 sign ∧ s = sign ++ (scanSign s).2 := by
  unfold scanSign
  split
  · exact ⟨['-'], .minus, rfl⟩
  · exact ⟨['+'], .plus, rfl⟩
  · exact ⟨[], .absent, rfl⟩

theorem form_scanFraction (s : List Char) :
    ∃ text, FractionForm (scanFraction s).1 text ∧ s = text ++ (scanFraction s).2 := by
  unfold scanFraction
  split
  · next rest =>
    refine ⟨'.' :: rest.takeWhile Char.isDigit, .point fun c hc => List.mem_takeWhile_imp hc, ?_⟩
    rw [List.cons_append, List.takeWhile_append_dropWhile]
  · exact ⟨[], .absent, rfl⟩

theorem form_scanExponent (s : List Char) :
    ∃ text, ExponentForm (scanExponent s).1 text ∧ s = text ++ (scanExponent s).2 := by
  cases s with
  | nil => exact ⟨[], .absent, rfl⟩
  | cons c cs =>
    rw [scanExponent_cons]
    split
    · next h =>
      obtain ⟨hletter, hne⟩ := h
      obtain ⟨sign, hsign, hcs⟩ := form_scanSign cs
      refine ⟨_, .letter hletter hsign hne fun d hd => List.mem_takeWhile_imp hd, ?_⟩
      rw [List.cons_append, List.append_assoc]
      refine congrArg (c :: ·) (hcs.trans (congrArg (sign ++ ·) ?_))
      exact List.takeWhile_append_dropWhile.symm
    · exact ⟨[], .absent, rfl⟩

/-- What is scanned as a whole and begins with a digit is a numeral. -/
theorem form_of_scan {s : List Char} {n : Numeral} (h : scan s = (n, [])) (hne : n.whole ≠ []) :
    Form n s := by
  obtain ⟨fractionText, hfraction, hafter⟩ := form_scanFraction (s.dropWhile Char.isDigit)
  obtain ⟨exponentText, hexponent, hrest⟩ :=
    form_scanExponent (scanFraction (s.dropWhile Char.isDigit)).2
  obtain ⟨rfl, hnil⟩ := Prod.mk.inj h
  replace hnil : (scanExponent (scanFraction (s.dropWhile Char.isDigit)).2).2 = [] := hnil
  have hform := Form.intro hne (fun c hc => List.mem_takeWhile_imp hc) hfraction hexponent
  rw [hnil, List.append_nil] at hrest
  rw [← hrest, ← hafter] at hform
  rwa [List.takeWhile_append_dropWhile] at hform

end Numeral

namespace Token

/-! ## Words -/

section
variable {c : Char} (hc : isWordStart c) (cs : List Char)
include hc

theorem scanSymbol?_word (symbol : Symbol) : scanSymbol? symbol (c :: cs) = none := by
  have hfirst : ∃ d ds, symbol.text.toList = d :: ds ∧ isWordStart d = false := by
    cases symbol <;> exact ⟨_, _, rfl, rfl⟩
  obtain ⟨d, ds, htext, hd⟩ := hfirst
  have hne : ¬d = c := by
    rintro rfl
    rw [hd] at hc
    cases hc
  have hstrip : ∀ lead, lead = d :: ds → strip? lead (c :: cs) = none := by
    rintro _ rfl
    rw [strip?, dif_neg hne]
  exact Option.map_eq_none_iff.mpr (hstrip _ htext)

theorem scanMarked?_word {mark : Char} (kind : String → Kind) (hmark : isWordStart mark = false) :
    scanMarked? mark kind (c :: cs) = none := by
  have hne : ¬c = mark := by
    rintro rfl
    rw [hmark] at hc
    cases hc
  rw [scanMarked?, if_neg hne]

/-- A word is no other token. -/
theorem scan?_word : scan? (c :: cs) = scanWord? (c :: cs) := by
  have hsymbols : (Symbol.all.findSome? fun symbol => scanSymbol? symbol (c :: cs)) = none :=
    List.findSome?_eq_none_iff.mpr fun symbol _ => scanSymbol?_word hc cs symbol
  have hdigit : c.isDigit = false := by
    have hdigits : ∀ d ∈ Numeral.digits, isWordStart d = false := List.all_iff_forall_prop.mp rfl
    refine Bool.eq_false_iff.mpr fun hdigit => ?_
    rw [hdigits c (Numeral.mem_digits hdigit)] at hc
    cases hc
  have hnumber : scanNumber? (c :: cs) = none := by
    have hwhole : (Numeral.scan (c :: cs)).1.whole = [] :=
      List.takeWhile_cons_of_neg (Bool.eq_false_iff.mp hdigit)
    rw [scanNumber?]
    dsimp only
    rw [hwhole]
    rfl
  have hstring : scanString? (c :: cs) = none := by
    rw [scanString?]
    rintro ds hds
    obtain ⟨rfl, _⟩ := List.cons.inj hds
    cases hc
  rw [scan?, hsymbols, scanMarked?_word hc cs .field rfl, scanSymbol?_word hc cs .dot,
    scanMarked?_word hc cs .binding rfl, hnumber, hstring]
  rfl

end

/-- Characters that make a word. -/
def WordForm (word : List Char) : Prop :=
  ∃ c cs, word = c :: cs ∧ isWordStart c ∧ ∀ d ∈ cs, isWordPart d

section
variable {word : List Char}

/-- A word is taken as a whole from a text that is nothing else. -/
theorem WordForm.takes (h : WordForm word) :
    Takes scanWord? word (.ofWord (String.ofList word)) word [] := by
  obtain ⟨c, cs, rfl, hstart, hpart⟩ := h
  have htakes := takes_word hstart hpart Halts.nil
  rwa [List.append_nil] at htakes

theorem WordForm.of_takes {s rest : List Char} {kind : Kind}
    (h : Takes scanWord? s kind word rest) :
    WordForm word ∧ kind = .ofWord (String.ofList word) := by
  obtain ⟨c, cs, hword, hkind, hstart, hpart, -⟩ := of_takes_word h
  exact ⟨⟨c, cs, hword, hstart, hpart⟩, hkind⟩

/-- A word begins with a character that opens neither white space nor a comment. -/
theorem WordForm.bare (h : WordForm word) : Bare word := by
  obtain ⟨c, cs, rfl, hstart, hpart⟩ := h
  exact bare_word hstart hpart

theorem Bare.halts (h : Bare word) : Halts opensTrivia word := by
  rintro c cs rfl
  exact h c List.mem_cons_self

/-- A mark and a word behind it are taken as a whole. -/
theorem WordForm.takes_marked (h : WordForm word) (mark : Char) (kind : String → Kind) :
    Takes (scanMarked? mark kind) (mark :: word) (kind (String.ofList word)) (mark :: word) [] :=
  Token.takes_marked.mpr ⟨word, _, rfl, rfl, by rw [List.append_nil], by
    rw [List.append_nil]
    exact h.takes⟩

theorem WordForm.of_takes_marked {mark : Char} {kind : String → Kind} {s lexeme rest : List Char}
    {k : Kind} (h : Takes (scanMarked? mark kind) s k lexeme rest) :
    ∃ word, WordForm word ∧ lexeme = mark :: word ∧ k = kind (String.ofList word) := by
  obtain ⟨word, k', hlexeme, hkind, -, hword⟩ := Token.takes_marked.mp h
  exact ⟨word, (WordForm.of_takes hword).1, hlexeme, hkind⟩

end

/-! ## All forms -/

/-- The texts of the tokens. -/
inductive Form : Kind → List Char → Prop
  | symbol (symbol : Symbol) : Form (.symbol symbol) symbol.text.toList
  /-- A keyword or a name. -/
  | word {word : List Char} : WordForm word → Form (.ofWord (String.ofList word)) word
  | field {word : List Char} : WordForm word → Form (.field (String.ofList word)) ('.' :: word)
  | binding {word : List Char} : WordForm word → Form (.binding (String.ofList word)) ('$' :: word)
  | number {n : Numeral} {digits : List Char} : Numeral.Form n digits → Form (.number n.value) digits
  | string {text body : List Char} : TextForm text body →
      Form (.string (String.ofList text)) ('"' :: (body ++ ['"']))

section
variable {kind : Kind} {lexeme : List Char}

/-! ### Each form is a token -/

theorem isLexeme_symbol (symbol : Symbol) : IsLexeme (.symbol symbol) symbol.text.toList := by
  refine isLexeme_of_takes (bare_symbol symbol).halts (?_ : Takes _ _ _ _ [])
  cases symbol <;> exact ⟨_, rfl, rfl, rfl, rfl⟩

theorem isLexeme_word {word : List Char} (h : WordForm word) :
    IsLexeme (.ofWord (String.ofList word)) word := by
  obtain ⟨t, ht, hfacts⟩ := h.takes
  have hhalts := h.bare.halts
  obtain ⟨c, cs, rfl, hstart, -⟩ := h
  exact isLexeme_of_takes hhalts ⟨t, (scan?_word hstart cs).trans ht, hfacts⟩

/-- A dot in front of a word is no symbol. -/
theorem scanSymbol?_field {c : Char} (hc : isWordStart c) (cs : List Char) :
    (Symbol.all.findSome? fun symbol => scanSymbol? symbol ('.' :: c :: cs)) = none := by
  have hne : '.' ≠ c := by
    rintro rfl
    cases hc
  have hdots : strip? ['.', '.'] ('.' :: c :: cs) = none := by
    rw [strip?, dif_pos rfl, strip?, dif_neg hne]
    rfl
  refine List.findSome?_eq_none_iff.mpr fun symbol hmem => ?_
  cases symbol
  case dotDot => exact Option.map_eq_none_iff.mpr hdots
  case dot => exact absurd hmem (by decide)
  all_goals rfl

theorem isLexeme_field {word : List Char} (h : WordForm word) :
    IsLexeme (.field (String.ofList word)) ('.' :: word) := by
  obtain ⟨t, ht, hfacts⟩ := h.takes_marked '.' .field
  have hhalts := (Bare.cons rfl h.bare : Bare ('.' :: word)).halts
  obtain ⟨c, cs, rfl, hstart, -⟩ := h
  refine isLexeme_of_takes hhalts ⟨t, ?_, hfacts⟩
  rw [scan?, scanSymbol?_field hstart cs, ht]
  rfl

theorem isLexeme_binding {word : List Char} (h : WordForm word) :
    IsLexeme (.binding (String.ofList word)) ('$' :: word) := by
  obtain ⟨t, ht, hfacts⟩ := h.takes_marked '$' .binding
  refine isLexeme_of_takes (Bare.cons rfl h.bare).halts ⟨t, ?_, hfacts⟩
  show (scanMarked? '$' .binding ('$' :: word) <|> _) = some t
  rw [ht]
  rfl

theorem isLexeme_number {n : Numeral} {digits : List Char} (h : Numeral.Form n digits) :
    IsLexeme (.number n.value) digits := by
  have hscan : Numeral.scan (digits ++ []) = (n, []) := by
    rw [List.append_nil]
    exact Numeral.scan_form h
  obtain ⟨c, cs, rfl, hc, hwhole⟩ := h.head
  have htakes := takes_number hscan hwhole (List.cons_ne_nil c cs)
  rw [List.append_nil] at htakes
  obtain ⟨t, ht, hfacts⟩ := htakes
  refine isLexeme_of_takes ?_ ⟨t, ?_, hfacts⟩
  · rintro d ds heq
    obtain ⟨rfl, -⟩ := List.cons.inj heq
    exact bare_digits (List.forall_mem_singleton.mpr hc) c List.mem_cons_self
  · rw [Number.scan?_digit hc, ht]
    rfl

theorem isLexeme_of_form (h : Form kind lexeme) : IsLexeme kind lexeme := by
  cases h with
  | symbol symbol => exact isLexeme_symbol symbol
  | word h => exact isLexeme_word h
  | field h => exact isLexeme_field h
  | binding h => exact isLexeme_binding h
  | number h => exact isLexeme_number h
  | string h => exact isLexeme_textForm h

/-! ### Nothing else is a token -/

theorem form_of_takes_symbol {symbol : Symbol} {s rest : List Char}
    (h : Takes (scanSymbol? symbol) s kind lexeme rest) : Form kind lexeme := by
  obtain ⟨rfl, rfl⟩ := of_takes_symbol h
  exact .symbol symbol

theorem form_of_takes_number (h : Takes scanNumber? lexeme kind lexeme []) : Form kind lexeme := by
  obtain ⟨hwhole, rfl, hrest⟩ := of_takes_number h
  exact .number (Numeral.form_of_scan (Prod.ext rfl hrest.symm) hwhole)

/-- A string that is taken as a whole ends with the first quote that closes it. -/
theorem form_of_takes_string (h : Takes scanString? lexeme kind lexeme []) : Form kind lexeme := by
  obtain ⟨body, text, rfl, rfl, hbody⟩ := of_takes_string h
  have hchars := hbody []
  rw [List.append_nil] at hchars
  obtain ⟨text', body', rest, htext, rfl, hflawed | ⟨more, rfl⟩⟩ := literal_splits body
  · rw [scanChars?_textForm htext, scanChars?_flawed hflawed] at hchars
    cases hchars
  · rw [scanChars?_textForm htext, scanChars?, List.append_nil, List.reverse_reverse] at hchars
    obtain ⟨rfl, rfl⟩ := Prod.mk.inj (Option.some.inj hchars)
    exact .string htext

theorem form_of_isLexeme (h : IsLexeme kind lexeme) : Form kind lexeme := by
  have htakes := takes_of_isLexeme h.halts h
  rcases takes_orElse htakes with h | h
  · obtain ⟨symbol, h⟩ := takes_findSome h
    exact form_of_takes_symbol h
  rcases takes_orElse h with h | h
  · obtain ⟨word, hword, rfl, rfl⟩ := WordForm.of_takes_marked h
    exact .field hword
  rcases takes_orElse h with h | h
  · exact form_of_takes_symbol h
  rcases takes_orElse h with h | h
  · obtain ⟨word, hword, rfl, rfl⟩ := WordForm.of_takes_marked h
    exact .binding hword
  rcases takes_orElse h with h | h
  · exact form_of_takes_number h
  rcases takes_orElse h with h | h
  · exact form_of_takes_string h
  · obtain ⟨hword, rfl⟩ := WordForm.of_takes h
    exact .word hword

/-- The lexical grammar: a text is one token by itself exactly if it has one of the six forms, and
then its form tells the token. -/
theorem isLexeme_iff_form : IsLexeme kind lexeme ↔ Form kind lexeme :=
  ⟨form_of_isLexeme, isLexeme_of_form⟩

end

end Token

end JsonFilter
