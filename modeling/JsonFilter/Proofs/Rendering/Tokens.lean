import JsonFilter.Filter.Printer
import JsonFilter.Proofs.Grammar.Table
import JsonFilter.Proofs.Rendering.Written
import JsonFilter.Proofs.Token.Forms

/-!
The tokens of a filter's text. Punctuation is read as its own tokens whatever follows, and a word, a
number or a `.` if it does not go on. Every text of a part of a filter is followed by a space, by
punctuation or by nothing, so the tokens of the whole text are those of its pieces.
-/

namespace JsonFilter

namespace Token

/-! ## Pieces of text -/

/-- A text is read as tokens of the kinds `ks`, whatever follows. -/
def Sealed (s : String) (ks : List Kind) : Prop :=
  ∀ rest, Reads (s.toList ++ rest) rest ks

/-- A text is read as tokens of the kinds `ks` where a word or a number could end. -/
def ReadAs (s : String) (ks : List Kind) : Prop :=
  ∀ rest, Ends rest → Reads (s.toList ++ rest) rest ks

/-- A text begins with a space or with punctuation, where a word or a number could end. -/
def Splits (s : String) : Prop := ∃ c cs, s.toList = c :: cs ∧ c ∈ closers

/-- A text is read as tokens of the kinds `ks`, whatever is before it and after it. -/
structure Separates (s : String) (ks : List Kind) : Prop where
  whole : Sealed s ks
  splits : Splits s

section
variable {s t : String} {ks ls : List Kind}

theorem Splits.ends (h : Splits s) (rest : List Char) : Ends (s.toList ++ rest) := by
  obtain ⟨c, cs, hs, hc⟩ := h
  intro d ds hd
  rw [hs, List.cons_append] at hd
  obtain ⟨rfl, _⟩ := List.cons.inj hd
  exact hc

theorem Splits.append (h : Splits s) (t : String) : Splits (s ++ t) := by
  obtain ⟨c, cs, hs, hc⟩ := h
  exact ⟨c, cs ++ t.toList, by rw [String.toList_append, hs, List.cons_append], hc⟩

theorem Sealed.readAs (h : Sealed s ks) : ReadAs s ks := fun rest _ => h rest

theorem Sealed.append (hs : Sealed s ks) (ht : Sealed t ls) : Sealed (s ++ t) (ks ++ ls) := by
  intro rest
  rw [String.toList_append, List.append_assoc]
  exact (hs _).trans (ht rest)

theorem Sealed.append_readAs (hs : Sealed s ks) (ht : ReadAs t ls) :
    ReadAs (s ++ t) (ks ++ ls) := by
  intro rest hrest
  rw [String.toList_append, List.append_assoc]
  exact (hs _).trans (ht rest hrest)

theorem ReadAs.append (hs : ReadAs s ks) (ht : ReadAs t ls) (hsplits : Splits t) :
    ReadAs (s ++ t) (ks ++ ls) := by
  intro rest hrest
  rw [String.toList_append, List.append_assoc]
  exact (hs _ (hsplits.ends rest)).trans (ht rest hrest)

theorem ReadAs.separated (hs : ReadAs s ks) (ht : Separates t ls) : Sealed (s ++ t) (ks ++ ls) := by
  intro rest
  rw [String.toList_append, List.append_assoc]
  exact (hs _ (ht.splits.ends rest)).trans (ht.whole rest)

end

/-! ## Symbols and words -/

theorem separates_space : Separates " " [] := ⟨fun _ => .space rfl, ⟨' ', [], rfl, by decide⟩⟩

/-- A piece of text between spaces. -/
theorem separates_spaced {s : String} {ks : List Kind} (h : ReadAs s ks) :
    Separates (" " ++ s ++ " ") ks := by
  have hspaced := (separates_space.whole.append_readAs h).separated separates_space
  rw [List.nil_append, List.append_nil] at hspaced
  exact ⟨hspaced, (separates_space.splits.append s).append " "⟩

/-- Whether no longer symbol begins with a symbol, and no other token. -/
def isSealed : Symbol → Bool
  | .less | .greater | .slash | .dot => false
  | _ => true

theorem sealed_symbol (symbol : Symbol) (h : isSealed symbol) :
    Sealed symbol.text [.symbol symbol] := by
  intro rest
  cases symbol <;> first | cases h; done | exact .token rfl (by decide) ⟨_, rfl, rfl, rfl⟩

theorem readAs_symbol (symbol : Symbol) : ReadAs symbol.text [.symbol symbol] := by
  intro rest hrest
  cases symbol
  case less | greater | slash | dot =>
    -- The character after the symbol tells that it is over.
    cases rest with
    | nil => exact .token rfl (by decide) ⟨_, rfl, rfl, rfl⟩
    | cons d ds =>
      have hd := hrest d ds rfl
      simp only [closers, List.mem_cons, List.not_mem_nil, or_false] at hd
      rcases hd with rfl | rfl | rfl | rfl | rfl | rfl | rfl | rfl | rfl | rfl <;>
        exact .token rfl (by decide) ⟨_, rfl, rfl, rfl⟩
  all_goals exact sealed_symbol _ rfl rest

theorem separates_symbol (symbol : Symbol) (h : symbol ∈ [Symbol.comma, .colon, .semicolon,
    .openParen, .closeParen, .openBracket, .closeBracket, .closeBrace]) :
    Separates symbol.text [.symbol symbol] := by
  simp only [List.mem_cons, List.not_mem_nil, or_false] at h
  rcases h with rfl | rfl | rfl | rfl | rfl | rfl | rfl | rfl <;>
    exact ⟨sealed_symbol _ rfl, ⟨_, [], rfl, by decide⟩⟩

theorem isWord_iff {word : String} : isWord word = true ↔ WordForm word.toList := by
  unfold isWord WordForm
  cases word.toList with
  | nil => simp
  | cons c cs => simp [List.all_eq_true]

theorem readAs_word {word : String} (h : isWord word) : ReadAs word [.ofWord word] := by
  intro rest hrest
  obtain ⟨c, cs, hword, hstart, hpart⟩ := isWord_iff.mp h
  obtain ⟨t, hscan, hkind, _, ht⟩ := scanWord?_append hstart hpart hrest
  have hspace : isSpace c = false := by
    refine Bool.eq_false_iff.mpr fun hspace => ?_
    simp only [isSpace, Bool.or_eq_true, beq_iff_eq] at hspace
    rcases hspace with ((rfl | rfl) | rfl) | rfl <;> cases hstart
  have hhash : c ≠ '#' := by
    rintro rfl
    cases hstart
  rw [← hword, String.ofList_toList] at hkind
  rw [hword, List.cons_append]
  exact .token hspace hhash ⟨t, (scan?_word hstart _).trans hscan, hkind, ht⟩

theorem readAs_binding {name : String} (h : isWord name) :
    ReadAs ("$" ++ name) [.binding name] := by
  intro rest hrest
  obtain ⟨c, cs, hname, hstart, hpart⟩ := isWord_iff.mp h
  obtain ⟨t, hscan, _, hlexeme, ht⟩ := scanWord?_append hstart hpart hrest
  have hmarked : ∃ m, scanMarked? '$' .binding ('$' :: c :: (cs ++ rest)) = some m ∧
      m.kind = .binding name ∧ m.rest = rest := by
    rw [scanMarked?, if_pos rfl, hscan]
    refine ⟨_, rfl, ?_, ht⟩
    show Kind.binding (String.ofList t.lexeme) = _
    rw [hlexeme, ← hname, String.ofList_toList]
  obtain ⟨m, hm, hkind, hrest⟩ := hmarked
  rw [String.toList_append, hname]
  refine .token (c := '$') rfl (by decide) ⟨m, ?_, hkind, hrest⟩
  show (scanMarked? '$' .binding ('$' :: c :: (cs ++ rest)) <|> (scanNumber? _ <|> scanString? _ <|>
    scanWord? _)) = some m
  rw [hm]
  rfl

theorem readAs_keyword (k : Keyword) : ReadAs k.text [.keyword k] := by
  have hword : isWord k.text ∧ Kind.ofWord k.text = .keyword k := by
    cases k <;> exact ⟨rfl, rfl⟩
  exact hword.2 ▸ readAs_word hword.1

theorem readAs_builtin (b : Builtin) : ReadAs b.name [.name b.name] := by
  have hword : isWord b.name ∧ Kind.ofWord b.name = .name b.name := by
    cases b <;> exact ⟨rfl, rfl⟩
  exact hword.2 ▸ readAs_word hword.1

/-- Punctuation before a space. -/
theorem separates_spaced_right {s : String} {ks : List Kind} (h : Separates s ks) :
    Separates (s ++ " ") ks := by
  have hwhole := h.whole.append separates_space.whole
  rw [List.append_nil] at hwhole
  exact ⟨hwhole, h.splits.append " "⟩

theorem separates_keyword (k : Keyword) : Separates (" " ++ k.text ++ " ") [.keyword k] :=
  separates_spaced (readAs_keyword k)

end Token

namespace Filter

open Token

/-! ## Filters -/

/-- The tokens of an operator between its operands, in parentheses. -/
def Joint.kinds (j : Joint) (ks ls : List Kind) : List Kind :=
  .symbol .openParen :: ((ks ++ j.kind :: ls) ++ [.symbol .closeParen])

mutual

/-- The tokens of the text of a filter. -/
def kinds : Filter → List Kind
  | .identity _ => [.symbol .dot]
  | .recurse _ => [.symbol .dotDot]
  | .literal _ l => [literalKind (l.mapNumber Number.capped)]
  | .var _ name => [.binding name]
  | .index _ target key =>
    target.kinds ++ .symbol .openBracket :: (key.kinds ++ [.symbol .closeBracket])
  | .slice _ target low high =>
    target.kinds ++ .symbol .openBracket ::
      ((optionKinds low ++ .symbol .colon :: optionKinds high) ++ [.symbol .closeBracket])
  | .iterate _ target => target.kinds ++ [.symbol .openBracket, .symbol .closeBracket]
  | .pipe _ left right => Joint.pipe.kinds left.kinds right.kinds
  | .comma _ left right => Joint.comma.kinds left.kinds right.kinds
  | .alternative _ left right => Joint.alternative.kinds left.kinds right.kinds
  | .and _ left right => Joint.and.kinds left.kinds right.kinds
  | .or _ left right => Joint.or.kinds left.kinds right.kinds
  | .binary _ op left right => (Joint.binary op).kinds left.kinds right.kinds
  | .negate _ operand =>
    .symbol .openParen :: ((.symbol .minus :: operand.kinds) ++ [.symbol .closeParen])
  | .array _ body => .symbol .openBracket :: (optionKinds body ++ [.symbol .closeBracket])
  | .object _ entries => .symbol .openBrace :: (entryKinds entries ++ [.symbol .closeBrace])
  | .cond _ branches none => .keyword .ifWord :: (branchKinds branches ++ [.keyword .endWord])
  | .cond _ branches (some otherwise) =>
    .keyword .ifWord ::
      (branchKinds branches ++ .keyword .elseWord :: (otherwise.kinds ++ [.keyword .endWord]))
  | .attempt _ body none => .keyword .tryWord :: body.kinds
  | .attempt _ body (some handler) =>
    .keyword .tryWord :: (body.kinds ++ .keyword .catchWord :: handler.kinds)
  | .bind _ source name body =>
    .symbol .openParen ::
      ((source.kinds ++ .keyword .asWord :: .binding name :: .symbol .pipe :: body.kinds) ++
        [.symbol .closeParen])
  | .call _ builtin [] => [.name builtin.name]
  | .call _ builtin (arg :: args) =>
    .name builtin.name :: .symbol .openParen :: (argKinds (arg :: args) ++ [.symbol .closeParen])

/-- The tokens of a filter that may be missing. -/
def optionKinds : Option Filter → List Kind
  | none => []
  | some f => f.kinds

/-- The tokens of the arguments of a call. -/
def argKinds : List Filter → List Kind
  | [] => []
  | [f] => f.kinds
  | f :: g :: fs => f.kinds ++ .symbol .semicolon :: argKinds (g :: fs)

/-- The tokens of the entries of an object. -/
def entryKinds : List (Filter × Filter) → List Kind
  | [] => []
  | [(k, v)] => k.kinds ++ .symbol .colon :: v.kinds
  | (k, v) :: e :: es => k.kinds ++ .symbol .colon :: (v.kinds ++ .symbol .comma :: entryKinds (e :: es))

/-- The tokens of the branches of a condition. -/
def branchKinds : List (Filter × Filter) → List Kind
  | [] => []
  | [(test, body)] => test.kinds ++ .keyword .thenWord :: body.kinds
  | (test, body) :: b :: bs =>
    test.kinds ++ .keyword .thenWord :: (body.kinds ++ .keyword .elifWord :: branchKinds (b :: bs))

end

/-! ### Pieces around the texts of parts -/

section
variable {s t u : String} {ks ls ms : List Kind}

theorem readAs_bracket (hs : ReadAs s ks) (ht : ReadAs t ls) :
    ReadAs (s ++ "[" ++ t ++ "]") (ks ++ .symbol .openBracket :: (ls ++ [.symbol .closeBracket])) := by
  have hopen : Separates "[" [.symbol .openBracket] := separates_symbol .openBracket (by decide)
  have hclose : Separates "]" [.symbol .closeBracket] := separates_symbol .closeBracket (by decide)
  have hwhole := (((hs.separated hopen).append_readAs ht).separated hclose).readAs
  simpa only [List.append_assoc, List.cons_append, List.nil_append] using hwhole

theorem readAs_paren (hs : ReadAs s ks) :
    ReadAs ("(" ++ s ++ ")") (.symbol .openParen :: (ks ++ [.symbol .closeParen])) := by
  have hopen : Separates "(" [.symbol .openParen] := separates_symbol .openParen (by decide)
  have hclose : Separates ")" [.symbol .closeParen] := separates_symbol .closeParen (by decide)
  have hwhole := ((hopen.whole.append_readAs hs).separated hclose).readAs
  simpa only [List.append_assoc, List.cons_append, List.nil_append] using hwhole

theorem readAs_separated {separator : String} {k : Kind} (hs : ReadAs s ks)
    (hk : Separates separator [k]) (ht : ReadAs t ls) :
    ReadAs (s ++ separator ++ t) (ks ++ k :: ls) := by
  have hwhole := (hs.separated hk).append_readAs ht
  simpa only [List.append_assoc, List.cons_append, List.nil_append] using hwhole

theorem readAs_joined {j : Joint} {separator : String} (hs : ReadAs s ks)
    (hj : Separates separator [j.kind]) (ht : ReadAs t ls) :
    ReadAs ("(" ++ s ++ separator ++ t ++ ")") (j.kinds ks ls) := by
  have hwhole := readAs_paren (readAs_separated hs hj ht)
  rw [← String.append_assoc, ← String.append_assoc] at hwhole
  exact hwhole

/-- A word that begins a filter, with what follows it. -/
theorem readAs_leading (k : Keyword) (hs : ReadAs s ks) :
    ReadAs (k.text ++ " " ++ s) (.keyword k :: ks) :=
  ((readAs_keyword k).separated separates_space).append_readAs hs

theorem readAs_trailing (k : Keyword) (hs : ReadAs s ks) :
    ReadAs (s ++ (" " ++ k.text)) (ks ++ [.keyword k]) :=
  hs.append (separates_space.whole.append_readAs (readAs_keyword k))
    (separates_space.splits.append k.text)

end

theorem readAs_literal (loc : Range) (l : Literal) (h : (literal loc l).isWritten) :
    ReadAs (literal loc l).text (literal loc l).kinds := by
  intro rest hrest
  rw [text, Value.json, Value.toList_text]
  cases l with
  | null => exact reads_null hrest
  | bool b =>
    cases b with
    | false => exact reads_false hrest
    | true => exact reads_true hrest
  | number n =>
    have hreads := Number.reads_json (Number.ofText_json h) hrest
    rw [Number.kinds_of_isUnsigned h] at hreads
    exact hreads
  | string s => exact reads_string s rest

theorem splits_branchesText {bs : List (Filter × Filter)} (h : bs ≠ []) :
    Splits (branchesText bs) := by
  match bs, h with
  | [(test, body)], _ =>
    exact ((separates_space.splits.append test.text).append " then ").append body.text
  | (test, body) :: b :: bs, _ =>
    exact ((((separates_space.splits.append test.text).append " then ").append body.text).append
      " elif").append (branchesText (b :: bs))

theorem readAs_branch {s t : String} {ks ls : List Kind} (hs : ReadAs s ks) (ht : ReadAs t ls) :
    ReadAs (" " ++ s ++ " then " ++ t) (ks ++ .keyword .thenWord :: ls) :=
  readAs_separated (separates_space.whole.append_readAs hs) (separates_keyword .thenWord) ht

/-- The branches of a condition after `if`. -/
theorem readAs_if {bs : List (Filter × Filter)} (h : ReadAs (branchesText bs) (branchKinds bs))
    (hne : bs ≠ []) : ReadAs ("if" ++ branchesText bs) (.keyword .ifWord :: branchKinds bs) :=
  (readAs_keyword .ifWord).append h (splits_branchesText hne)

theorem readAs_bound {s t name : String} {ks ls : List Kind} (hs : ReadAs s ks) (hname : isWord name)
    (ht : ReadAs t ls) : ReadAs ("(" ++ s ++ " as $" ++ name ++ " | " ++ t ++ ")")
      (.symbol .openParen ::
        ((ks ++ .keyword .asWord :: .binding name :: .symbol .pipe :: ls) ++
          [.symbol .closeParen])) := by
  have hbinding := readAs_separated hs (separates_keyword .asWord) (readAs_binding hname)
  have hpipe : Separates " | " [.symbol .pipe] := separates_spaced (readAs_symbol .pipe)
  have hwhole := readAs_paren (readAs_separated hbinding hpipe ht)
  rw [show " as $" = " " ++ Keyword.asWord.text ++ " " ++ "$" from rfl]
  simpa only [String.append_assoc, List.append_assoc, List.cons_append, List.nil_append] using hwhole

theorem separates_colon : Separates ": " [.symbol .colon] :=
  separates_spaced_right (separates_symbol .colon (by decide))

theorem separates_operator (op : BinaryOp) :
    Separates (" " ++ op.text ++ " ") [(Joint.binary op).kind] := by
  obtain ⟨symbol, hkind, htext⟩ :
      ∃ symbol, (Joint.binary op).kind = .symbol symbol ∧ op.text = symbol.text := by
    cases op <;> exact ⟨_, rfl, rfl⟩
  rw [hkind, htext]
  exact separates_spaced (readAs_symbol symbol)

mutual

/-- The text of a filter that was written down is read as its tokens. -/
theorem readAs_text : ∀ f : Filter, f.all isWritten → ReadAs f.text f.kinds
  | .identity _, _ => readAs_symbol .dot
  | .recurse _, _ => readAs_symbol .dotDot
  | .literal loc l, h => readAs_literal loc l h
  | .var _ _, h => readAs_binding h
  | .index _ target key, h => by
    simp only [all, Bool.and_eq_true] at h
    exact readAs_bracket (readAs_text target h.1.2) (readAs_text key h.2)
  | .slice _ target low high, h => by
    simp only [all, Bool.and_eq_true] at h
    have hcolon : Separates ":" [.symbol .colon] := separates_symbol .colon (by decide)
    have hrange := readAs_separated (readAs_optionText low h.1.2) hcolon
      (readAs_optionText high h.2)
    have hwhole := readAs_bracket (readAs_text target h.1.1.2) hrange
    rw [← String.append_assoc, ← String.append_assoc] at hwhole
    exact hwhole
  | .iterate _ target, h => by
    simp only [all, Bool.and_eq_true] at h
    have hempty : ReadAs "" [] := fun rest _ => .refl rest
    have hwhole := readAs_bracket (readAs_text target h.2) hempty
    rw [String.append_empty, String.append_assoc] at hwhole
    exact hwhole
  | .pipe _ left right, h => by
    simp only [all, Bool.and_eq_true] at h
    exact readAs_joined (readAs_text left h.1.2) (separates_spaced (readAs_symbol .pipe))
      (readAs_text right h.2)
  | .comma _ left right, h => by
    simp only [all, Bool.and_eq_true] at h
    exact readAs_joined (readAs_text left h.1.2) (separates_spaced_right (separates_symbol .comma (by decide)))
      (readAs_text right h.2)
  | .alternative _ left right, h => by
    simp only [all, Bool.and_eq_true] at h
    exact readAs_joined (readAs_text left h.1.2) (separates_spaced (readAs_symbol .alternative))
      (readAs_text right h.2)
  | .and _ left right, h => by
    simp only [all, Bool.and_eq_true] at h
    exact readAs_joined (readAs_text left h.1.2) (separates_keyword .andWord)
      (readAs_text right h.2)
  | .or _ left right, h => by
    simp only [all, Bool.and_eq_true] at h
    exact readAs_joined (readAs_text left h.1.2) (separates_keyword .orWord)
      (readAs_text right h.2)
  | .binary _ op left right, h => by
    simp only [all, Bool.and_eq_true] at h
    have hwhole := readAs_joined (readAs_text left h.1.2) (separates_operator op)
      (readAs_text right h.2)
    simpa only [text, kinds, String.append_assoc] using hwhole
  | .negate _ operand, h => by
    simp only [all, Bool.and_eq_true] at h
    have hminus : Sealed "-" [.symbol .minus] := sealed_symbol .minus rfl
    have hwhole := readAs_paren (hminus.append_readAs (readAs_text operand h.2))
    rw [← String.append_assoc] at hwhole
    exact hwhole
  | .array _ body, h => by
    simp only [all, Bool.and_eq_true] at h
    have hopen : Separates "[" [.symbol .openBracket] := separates_symbol .openBracket (by decide)
    have hclose : Separates "]" [.symbol .closeBracket] :=
      separates_symbol .closeBracket (by decide)
    exact ((hopen.whole.append_readAs (readAs_optionText body h.2)).separated hclose).readAs
  | .object _ entries, h => by
    simp only [all, Bool.and_eq_true] at h
    have hopen : Sealed "\x7b" [.symbol .openBrace] := sealed_symbol .openBrace rfl
    have hclose : Separates "\x7d" [.symbol .closeBrace] := separates_symbol .closeBrace (by decide)
    exact ((hopen.append_readAs (readAs_entryTexts entries h.2)).separated hclose).readAs
  | .cond _ branches none, h => by
    simp only [all, isWritten, Bool.and_eq_true, Bool.not_eq_true', List.isEmpty_eq_false_iff] at h
    exact readAs_trailing .endWord (readAs_if (readAs_branchesText branches h.1.2) h.1.1)
  | .cond _ branches (some otherwise), h => by
    simp only [all, isWritten, Bool.and_eq_true, Bool.not_eq_true', List.isEmpty_eq_false_iff] at h
    have helse := readAs_separated (readAs_if (readAs_branchesText branches h.1.2) h.1.1)
      (separates_keyword .elseWord) (readAs_optionText (some otherwise) h.2)
    have hwhole := readAs_trailing .endWord helse
    rw [List.cons_append, List.cons_append, List.append_assoc, List.cons_append] at hwhole
    exact hwhole
  | .attempt _ body none, h => by
    simp only [all, Bool.and_eq_true] at h
    exact readAs_leading .tryWord (readAs_text body h.1.2)
  | .attempt _ body (some handler), h => by
    simp only [all, Bool.and_eq_true] at h
    exact readAs_separated (readAs_leading .tryWord (readAs_text body h.1.2))
      (separates_keyword .catchWord) (readAs_text handler h.2)
  | .bind _ source name body, h => by
    simp only [all, Bool.and_eq_true] at h
    exact readAs_bound (readAs_text source h.1.2) h.1.1 (readAs_text body h.2)
  | .call _ builtin [], _ => readAs_builtin builtin
  | .call _ builtin (arg :: args), h => by
    simp only [all, Bool.and_eq_true] at h
    have hopen : Separates "(" [.symbol .openParen] := separates_symbol .openParen (by decide)
    have hclose : Separates ")" [.symbol .closeParen] := separates_symbol .closeParen (by decide)
    exact ((((readAs_builtin builtin).separated hopen).append_readAs
      (readAs_texts (arg :: args) h.2)).separated hclose).readAs

theorem readAs_optionText : ∀ f : Option Filter, allOption isWritten f →
    ReadAs (optionText f) (optionKinds f)
  | none, _ => fun rest _ => .refl rest
  | some f, h => readAs_text f h

theorem readAs_texts : ∀ fs : List Filter, allList isWritten fs →
    ReadAs (String.intercalate "; " (texts fs)) (argKinds fs)
  | [], _ => fun rest _ => .refl rest
  | [f], h => by
    simp only [allList, Bool.and_eq_true] at h
    rw [texts, texts, String.intercalate_singleton]
    exact readAs_text f h.1
  | f :: g :: fs, h => by
    rw [allList, Bool.and_eq_true] at h
    have hsemicolon : Separates "; " [.symbol .semicolon] :=
      separates_spaced_right (separates_symbol .semicolon (by decide))
    rw [texts, texts, String.intercalate_cons_cons]
    exact readAs_separated (readAs_text f h.1) hsemicolon (readAs_texts (g :: fs) h.2)

theorem readAs_entryTexts : ∀ es : List (Filter × Filter), allPairs isWritten es →
    ReadAs (String.intercalate ", " (entryTexts es)) (entryKinds es)
  | [], _ => fun rest _ => .refl rest
  | [(k, v)], h => by
    simp only [allPairs, Bool.and_eq_true] at h
    rw [entryTexts, entryTexts, String.intercalate_singleton]
    exact readAs_separated (readAs_text k h.1.1) separates_colon (readAs_text v h.1.2)
  | (k, v) :: (k', v') :: es, h => by
    rw [allPairs, Bool.and_eq_true, Bool.and_eq_true] at h
    have hcomma : Separates ", " [.symbol .comma] :=
      separates_spaced_right (separates_symbol .comma (by decide))
    have hentry := readAs_separated (readAs_text k h.1.1) separates_colon (readAs_text v h.1.2)
    have hwhole := readAs_separated hentry hcomma (readAs_entryTexts ((k', v') :: es) h.2)
    rw [List.append_assoc, List.cons_append] at hwhole
    rw [entryTexts, entryTexts, String.intercalate_cons_cons]
    exact hwhole

theorem readAs_branchesText : ∀ bs : List (Filter × Filter), allPairs isWritten bs →
    ReadAs (branchesText bs) (branchKinds bs)
  | [], _ => fun rest _ => .refl rest
  | [(test, body)], h => by
    simp only [allPairs, Bool.and_eq_true] at h
    exact readAs_branch (readAs_text test h.1.1) (readAs_text body h.1.2)
  | (test, body) :: b :: bs, h => by
    rw [allPairs, Bool.and_eq_true, Bool.and_eq_true] at h
    have hbranch := readAs_branch (readAs_text test h.1.1) (readAs_text body h.1.2)
    have hwhole := (readAs_trailing .elifWord hbranch).append (readAs_branchesText (b :: bs) h.2)
      (splits_branchesText (List.cons_ne_nil b bs))
    rw [List.append_assoc, List.append_assoc, List.cons_append] at hwhole
    exact hwhole

end

end Filter

end JsonFilter
