import JsonFilter.Proofs.Token.Lexemes

/-!
White space and comments are insignificant. No token goes on over a character that opens white space
or a comment, since only strings hold such characters and a string ends with its quote; so a lexeme
in front of such a character is the token that it is by itself. What stands between two lexemes is
skipped, whatever it is, and a text of lexemes and gaps is read as the tokens of the lexemes.
-/

namespace JsonFilter

namespace Token

/-! ## Characters of tokens -/

/-- A text without white space and without a character that opens a comment. -/
def Bare (cs : List Char) : Prop := ∀ c ∈ cs, opensTrivia c = false

section
variable {p : Char → Bool} (hp : ∀ c ∈ [' ', '\t', '\r', '\n', '#'], p c = false)
include hp

/-- A class of characters without those that open trivia. -/
theorem not_opensTrivia {c : Char} (hc : p c) : opensTrivia c = false := by
  refine Bool.eq_false_iff.mpr fun hopens => ?_
  have hmem : c ∈ [' ', '\t', '\r', '\n', '#'] := by
    simpa [opensTrivia, isSpace, or_assoc] using hopens
  rw [hp c hmem] at hc
  cases hc

theorem bare_of_class {cs : List Char} (hcs : ∀ c ∈ cs, p c) : Bare cs :=
  fun c hc => not_opensTrivia hp (hcs c hc)

end

section
variable {c : Char} {cs ds : List Char}

theorem bare_nil : Bare [] := List.forall_mem_nil _

theorem Bare.cons (hc : opensTrivia c = false) (hcs : Bare cs) : Bare (c :: cs) :=
  List.forall_mem_cons.mpr ⟨hc, hcs⟩

theorem Bare.append (hcs : Bare cs) (hds : Bare ds) : Bare (cs ++ ds) :=
  List.forall_mem_append.mpr ⟨hcs, hds⟩

theorem bare_digits (hcs : ∀ c ∈ cs, c.isDigit) : Bare cs :=
  bare_of_class (List.all_iff_forall_prop.mp rfl) hcs

theorem bare_word (hc : isWordStart c) (hcs : ∀ d ∈ cs, isWordPart d) : Bare (c :: cs) :=
  .cons (not_opensTrivia (List.all_iff_forall_prop.mp rfl) hc)
    (bare_of_class (List.all_iff_forall_prop.mp rfl) hcs)

theorem bare_symbol (symbol : Symbol) : Bare symbol.text.toList := by
  cases symbol <;> exact List.all_iff_forall_prop.mp rfl

end

end Token

/-! ## Numerals -/

namespace Numeral

open Token (Bare bare_nil bare_digits)

/-- What a part of a numeral takes from a text is bare. -/
def BareAt {α : Type} (part : List Char → α × List Char) (s : List Char) : Prop :=
  ∃ front, s = front ++ (part s).2 ∧ Bare front

section
variable {α β : Type} {x : List Char → α × List Char} {y : List Char → β × List Char}
  {s : List Char}

theorem BareAt.both (hx : BareAt x s) (hy : BareAt y (x s).2) : BareAt (both x y) s := by
  obtain ⟨front, hfront, hbare⟩ := hx
  obtain ⟨front', hfront', hbare'⟩ := hy
  refine ⟨front ++ front', ?_, hbare.append hbare'⟩
  rw [List.append_assoc]
  exact hfront.trans (congrArg (front ++ ·) hfront')

end

theorem bareAt_scanDigits (s : List Char) : BareAt scanDigits s :=
  ⟨s.takeWhile Char.isDigit, List.takeWhile_append_dropWhile.symm,
    bare_digits fun _ hc => List.mem_takeWhile_imp hc⟩

theorem bareAt_scanSign (s : List Char) : BareAt scanSign s := by
  unfold BareAt scanSign
  split
  · exact ⟨['-'], rfl, bare_nil.cons rfl⟩
  · exact ⟨['+'], rfl, bare_nil.cons rfl⟩
  · exact ⟨[], rfl, bare_nil⟩

theorem bareAt_scanFraction (s : List Char) : BareAt scanFraction s := by
  unfold BareAt scanFraction
  split
  · next cs =>
    obtain ⟨digits, hdigits, hbare⟩ := bareAt_scanDigits cs
    exact ⟨'.' :: digits, congrArg ('.' :: ·) hdigits, hbare.cons rfl⟩
  · exact ⟨[], rfl, bare_nil⟩

theorem bareAt_scanExponent (s : List Char) : BareAt scanExponent s := by
  unfold BareAt
  cases s with
  | nil => exact ⟨[], rfl, bare_nil⟩
  | cons c cs =>
    rw [scanExponent_cons]
    split
    · next hwritten =>
      obtain ⟨front, hfront, hbare⟩ := (bareAt_scanSign cs).both (bareAt_scanDigits _)
      refine ⟨c :: front, congrArg (c :: ·) hfront, hbare.cons ?_⟩
      rcases hwritten.1 with rfl | rfl <;> rfl
    · exact ⟨[], rfl, bare_nil⟩

theorem bareAt_scan (s : List Char) : BareAt scan s :=
  (bareAt_scanDigits s).both ((bareAt_scanFraction _).both (bareAt_scanExponent _))

end Numeral

namespace Token

/-! ## Lexemes in front of trivia -/

section
variable {s lexeme rest : List Char} {kind : Kind}

theorem Takes.kind_eq {scanner : Scanner} {kind' : Kind} {lexeme' rest' : List Char}
    (h : Takes scanner s kind lexeme rest) (h' : Takes scanner s kind' lexeme' rest') :
    kind = kind' := by
  obtain ⟨t, ht, rfl, _⟩ := h
  obtain ⟨t', ht', rfl, _⟩ := h'
  obtain rfl := Option.some.inj (ht.symm.trans ht')
  rfl

theorem takes_orElse {x y : Scanner} (h : Takes (fun s => x s <|> y s) s kind lexeme rest) :
    Takes x s kind lexeme rest ∨ Takes y s kind lexeme rest := by
  obtain ⟨t, ht, hfacts⟩ := h
  replace ht : (x s <|> y s) = some t := ht
  cases hx : x s with
  | some u =>
    rw [hx] at ht
    exact .inl ⟨t, hx.trans ht, hfacts⟩
  | none =>
    rw [hx] at ht
    exact .inr ⟨t, ht, hfacts⟩

theorem takes_findSome {α : Type} {f : α → Scanner} {as : List α}
    (h : Takes (fun s => as.findSome? fun a => f a s) s kind lexeme rest) :
    ∃ a, Takes (f a) s kind lexeme rest := by
  obtain ⟨t, ht, hfacts⟩ := h
  obtain ⟨a, _, ha⟩ := List.exists_of_findSome?_eq_some ht
  exact ⟨a, t, ha, hfacts⟩

theorem bare_of_takes_symbol {symbol : Symbol} (h : Takes (scanSymbol? symbol) s kind lexeme rest) :
    Bare lexeme := by
  obtain ⟨-, rfl⟩ := of_takes_symbol h
  exact bare_symbol symbol

theorem bare_of_takes_word (h : Takes scanWord? s kind lexeme rest) : Bare lexeme := by
  obtain ⟨c, cs, rfl, _, hstart, hpart, _⟩ := of_takes_word h
  exact bare_word hstart hpart

theorem bare_of_takes_marked {mark : Char} (hmark : opensTrivia mark = false) {k : String → Kind}
    (h : Takes (scanMarked? mark k) s kind lexeme rest) : Bare lexeme := by
  obtain ⟨word, k', rfl, _, _, hword⟩ := takes_marked.mp h
  exact (bare_of_takes_word hword).cons hmark

theorem bare_of_takes_number (h : Takes scanNumber? s kind lexeme rest) : Bare lexeme := by
  obtain ⟨_, _, rfl⟩ := of_takes_number h
  obtain ⟨front, hfront, hbare⟩ := Numeral.bareAt_scan s
  obtain rfl : front = lexeme := List.append_cancel_right (hfront.symm.trans h.splits)
  exact hbare

/-- A lexeme with white space or a comment character in it is a string. -/
theorem bare_or_string (h : Takes scan? s kind lexeme rest) :
    Bare lexeme ∨ ∃ body, lexeme = '"' :: body := by
  rcases takes_orElse h with h | h
  · obtain ⟨symbol, h⟩ := takes_findSome h
    exact .inl (bare_of_takes_symbol h)
  rcases takes_orElse h with h | h
  · exact .inl (bare_of_takes_marked rfl h)
  rcases takes_orElse h with h | h
  · exact .inl (bare_of_takes_symbol h)
  rcases takes_orElse h with h | h
  · exact .inl (bare_of_takes_marked rfl h)
  rcases takes_orElse h with h | h
  · exact .inl (bare_of_takes_number h)
  rcases takes_orElse h with h | h
  · obtain ⟨body, _, rfl, _⟩ := of_takes_string h
    exact .inr ⟨body, rfl⟩
  · exact .inl (bare_of_takes_word h)

/-- What begins with a quote is a string or no token at all. -/
theorem takes_string_of_quote {cs : List Char} (h : Takes scan? ('"' :: cs) kind lexeme rest) :
    Takes scanString? ('"' :: cs) kind lexeme rest := by
  have h' : Takes (fun s => scanString? s <|> scanWord? s) ('"' :: cs) kind lexeme rest := h
  rcases takes_orElse h' with h' | ⟨t, ht, _⟩
  · exact h'
  · cases ht

/-- A string is the same whatever stands behind its closing quote. -/
theorem takes_string_append {body : List Char} (h : Takes scan? ('"' :: body) kind ('"' :: body) [])
    (u : List Char) : Takes scan? ('"' :: body ++ u) kind ('"' :: body) u := by
  obtain ⟨body', text, hlexeme, rfl, hbody⟩ := of_takes_string (takes_string_of_quote h)
  obtain ⟨_, rfl⟩ := List.cons.inj hlexeme
  obtain ⟨t, ht, hfacts⟩ := takes_string hbody u
  refine ⟨t, ?_, hfacts⟩
  show (scanString? ('"' :: body ++ u) <|> scanWord? ('"' :: body ++ u)) = some t
  rw [ht]
  rfl

/-- What stands behind a text does not go on with one of its tokens. -/
def Parted (u : List Char) : Prop := ∀ c cs, u = c :: cs → opensTrivia c

/-- A lexeme in front of white space or a comment is the token that it is by itself. -/
theorem takes_of_parted (h : Takes scan? lexeme kind lexeme []) {u : List Char} (hu : Parted u) :
    Takes scan? (lexeme ++ u) kind lexeme u := by
  obtain ⟨t, ht⟩ := Option.isSome_iff_exists.mp (steady_scan?.kept u h.isSome)
  have htakes := takes_of_eq_some ht
  -- The token of the longer text begins with the lexeme, and it must not go on behind it.
  have hle : lexeme.length ≤ t.lexeme.length :=
    steady_scan?.longest htakes (List.prefix_append lexeme u) h
  obtain ⟨more, hmore⟩ : lexeme <+: t.lexeme :=
    List.prefix_of_prefix_length_le (List.prefix_append lexeme u) ⟨t.rest, t.splits⟩ hle
  have hrest : u = more ++ t.rest := by
    have hsplits : lexeme ++ u = lexeme ++ (more ++ t.rest) := by
      rw [← List.append_assoc, hmore, ← htakes.splits]
    exact List.append_cancel_left hsplits
  cases more with
  | nil =>
    rw [List.append_nil] at hmore
    have hsame : Takes scan? (lexeme ++ u) t.kind lexeme u := ⟨t, ht, rfl, hmore.symm, hrest.symm⟩
    rwa [(steady_scan?.alone hsame).kind_eq h] at hsame
  | cons c cs =>
    rcases bare_or_string htakes with hbare | ⟨body, hbody⟩
    · have hc := hbare c (hmore ▸ List.mem_append_right _ List.mem_cons_self)
      rw [hu c (cs ++ t.rest) hrest] at hc
      cases hc
    · rw [hbody] at hmore
      cases lexeme with
      | nil => exact absurd rfl h.ne_nil
      | cons d ds =>
        obtain ⟨rfl, _⟩ := List.cons.inj hmore
        exact takes_string_append h u

end

/-! ## Gaps -/

/-- White space and comments, none of which is still open at the end. -/
def IsGap (w : List Char) : Prop := ∀ rest, Trivia rest w

section
variable {w rest : List Char}

theorem isGap_nil : IsGap [] := fun _ => .nil

theorem IsGap.space {c : Char} (hc : isSpace c) (hw : IsGap w) : IsGap (c :: w) :=
  fun rest => .space hc (hw rest)

/-- A comment is closed by the end of its line. -/
theorem IsGap.comment {body : List Char} {c : Char} (hbody : ∀ d ∈ body, inComment d)
    (hc : inComment c = false) (hw : IsGap (c :: w)) : IsGap ('#' :: (body ++ c :: w)) := by
  intro rest
  refine .comment hbody ?_ (hw rest)
  rintro d ds heq
  obtain ⟨rfl, _⟩ := List.cons.inj heq
  exact hc

theorem Trivia.parted (h : Trivia rest w) (hne : w ≠ []) (u : List Char) : Parted (w ++ u) := by
  rintro c cs heq
  cases h with
  | nil => exact absurd rfl hne
  | space hc _ =>
    obtain ⟨rfl, _⟩ := List.cons.inj heq
    simp [opensTrivia, hc]
  | comment _ _ _ =>
    obtain ⟨rfl, _⟩ := List.cons.inj heq
    rfl

theorem Trivia.parted_end (h : Trivia [] w) : Parted w := by
  cases w with
  | nil => rintro c cs ⟨⟩
  | cons c cs =>
    have hparted := h.parted (List.cons_ne_nil c cs) []
    rwa [List.append_nil] at hparted

/-- Inside a comment, the lexer goes on to the end of the line. -/
theorem skipTrivia_comment {body u : List Char} (hbody : ∀ c ∈ body, inComment c)
    (hu : Halts inComment u) (p : Position) :
    skipTrivia true p (body ++ u) = skipTrivia false (p.after body) u := by
  induction body generalizing p with
  | nil =>
    cases u with
    | nil => rfl
    | cons c cs =>
      have hc := hu c cs rfl
      have hspace : isSpace c := by
        simp only [inComment, ne_eq, decide_eq_false_iff_not, not_and_or, not_not] at hc
        rcases hc with rfl | rfl <;> rfl
      show skipTrivia (inComment c) (p.advance c) cs = _
      rw [hc, Position.after_nil, skipTrivia]
      simp only [hspace, Bool.false_eq_true, ↓reduceIte]
  | cons c cs ih =>
    obtain ⟨hc, hcs⟩ := List.forall_mem_cons.mp hbody
    show skipTrivia (inComment c) (p.advance c) (cs ++ u) = _
    rw [hc, ih hcs, Position.after_cons]

/-- White space and comments are skipped. -/
theorem skipTrivia_of_trivia (h : Trivia rest w) (p : Position) :
    skipTrivia false p (w ++ rest) = skipTrivia false (p.after w) rest := by
  induction h generalizing p with
  | nil => rfl
  | space hc _ ih =>
    rw [List.cons_append, skipTrivia, Position.after_cons, ← ih]
    simp only [hc, Bool.false_eq_true, ↓reduceIte]
  | @comment body w hbody hend _ ih =>
    have hskip : skipTrivia false p ('#' :: (body ++ w) ++ rest) =
        skipTrivia true (p.advance '#') (body ++ (w ++ rest)) := by
      rw [List.cons_append, List.append_assoc, skipTrivia]
      rfl
    rw [hskip, skipTrivia_comment hbody hend, ih, Position.after_cons, Position.after_append]

theorem reads_trivia (h : Trivia rest w) : Reads (w ++ rest) rest [] := by
  intro p
  refine ⟨p.after w, [], rfl, ?_⟩
  rw [listFrom_congr (skipTrivia_of_trivia h p)]
  cases listFrom (p.after w) rest <;> rfl

end

/-! ## Lexemes between gaps -/

section
variable {kind : Kind} {lexeme : List Char}

/-- A text that is one token by itself begins with its token. -/
theorem IsLexeme.halts (h : IsLexeme kind lexeme) : Halts opensTrivia lexeme := by
  unfold IsLexeme Token.list at h
  rw [String.toList_ofList] at h
  obtain ⟨w, rest, rfl, hskip, hhalts, _⟩ := skipTrivia_splits false .start lexeme
  cases rest with
  | nil =>
    rw [listFrom_finish hskip] at h
    cases (List.cons.inj (Except.ok.inj h)).2
  | cons c cs =>
    cases hscan : scan? (c :: cs) with
    | none =>
      rw [listFrom_error hskip hscan] at h
      cases h
    | some t =>
      rw [listFrom_scan hskip hscan] at h
      cases hrest : listFrom ((Position.start.after w).after t.lexeme) t.rest with
      | error e =>
        rw [hrest] at h
        cases h
      | ok ts =>
        rw [hrest] at h
        have htoken := (List.cons.inj (Except.ok.inj h)).1
        have hstart : Position.start.after w = .start := congrArg (·.range.first) htoken
        rw [Position.after_eq_self hstart]
        exact hhalts

/-- A lexeme is read as its token wherever it stands in front of white space, of a comment or of the
end. -/
theorem IsLexeme.reads (h : IsLexeme kind lexeme) {u : List Char} (hu : Parted u) :
    Reads (lexeme ++ u) u [kind] := by
  have hhalts := h.halts
  have htakes := takes_of_parted (takes_of_isLexeme hhalts h) hu
  cases lexeme with
  | nil => exact absurd rfl htakes.ne_nil
  | cons c cs =>
    obtain ⟨hspace, hhash⟩ := Halts.opensTrivia_false hhalts
    obtain ⟨t, ht, hkind, _, hrest⟩ := htakes
    exact .token hspace hhash ⟨t, ht, hkind, hrest⟩

end

/-- A lexeme, the kind of token it is, and what stands in front of it. -/
structure Piece where
  gap : List Char
  lexeme : List Char
  kind : Kind

/-- The text of some lexemes, each behind its gap, and of what stands behind the last one. -/
def joined (pieces : List Piece) (last : List Char) : List Char :=
  pieces.foldr (fun piece text => piece.gap ++ (piece.lexeme ++ text)) last

/-- Behind a lexeme stands a gap that is not empty, or what comes last. -/
theorem parted_joined {pieces : List Piece} {last : List Char}
    (hgaps : ∀ piece ∈ pieces, IsGap piece.gap ∧ piece.gap ≠ []) (hlast : Trivia [] last) :
    Parted (joined pieces last) := by
  cases pieces with
  | nil => exact hlast.parted_end
  | cons piece pieces =>
    obtain ⟨hgap, hne⟩ := hgaps piece List.mem_cons_self
    exact (hgap []).parted hne _

theorem reads_joined {pieces : List Piece} {last : List Char}
    (hpieces : ∀ piece ∈ pieces, IsGap piece.gap ∧ IsLexeme piece.kind piece.lexeme)
    (hbetween : ∀ piece ∈ pieces.tail, piece.gap ≠ []) (hlast : Trivia [] last) :
    Reads (joined pieces last) last (pieces.map Piece.kind) := by
  induction pieces with
  | nil => exact .refl last
  | cons piece pieces ih =>
    obtain ⟨⟨hgap, hlexeme⟩, hpieces⟩ := List.forall_mem_cons.mp hpieces
    have hparted : Parted (joined pieces last) :=
      parted_joined (fun p hp => ⟨(hpieces p hp).1, hbetween p hp⟩) hlast
    have hrest := ih hpieces fun p hp => hbetween p (List.mem_of_mem_tail hp)
    exact (reads_trivia (hgap _)).trans ((hlexeme.reads hparted).trans hrest)

/-- White space and comments are insignificant: lexemes with gaps between them, and with anything
before and behind them that is skipped, are read as the tokens that they are by themselves. The gaps
between two lexemes are not empty, and a comment that the text ends in need not be closed. -/
theorem kinds_of_joined (pieces : List Piece) (last : List Char)
    (hpieces : ∀ piece ∈ pieces, IsGap piece.gap ∧ IsLexeme piece.kind piece.lexeme)
    (hbetween : ∀ piece ∈ pieces.tail, piece.gap ≠ []) (hlast : Trivia [] last) :
    ∃ ts, Token.list (String.ofList (joined pieces last)) = .ok ts ∧
      ts.map Token.kind = pieces.map Piece.kind ++ [.finish] := by
  have hend : Reads last [] [] := by
    have hreads := reads_trivia hlast
    rwa [List.append_nil] at hreads
  have hreads := (reads_joined hpieces hbetween hlast).trans hend
  rw [List.append_nil, ← String.toList_ofList (l := joined pieces last)] at hreads
  obtain ⟨ts, finish, hlist, hkinds, hfinish⟩ := list_of_reads hreads
  refine ⟨_, hlist, ?_⟩
  rw [List.map_append, hkinds, List.map_singleton, eq_of_beq hfinish]

/-- A number that ends in a dot, a string that looks like a comment, and a comment that is still open
at the end of the text. -/
theorem kinds_of_joined_mixed :
    ∃ ts, Token.list (String.ofList (joined [⟨[' '], ['1', '.'], .number 1⟩,
        ⟨['#', '.', '\n'], ['.', '.'], .symbol .dotDot⟩,
        ⟨['\t'], ['"', '#', ' ', '"'], .string "# "⟩] [' ', '#', '1'])) = .ok ts ∧
      ts.map Token.kind = [.number 1, .symbol .dotDot, .string "# ", .finish] := by
  have hnumber : Takes scan? ['1', '.'] (.number 1) ['1', '.'] [] :=
    ⟨_, rfl, by decide +kernel, rfl, rfl⟩
  have hdots : Takes scan? ['.', '.'] (.symbol .dotDot) ['.', '.'] [] := ⟨_, rfl, rfl, rfl, rfl⟩
  have hstring : Takes scan? ['"', '#', ' ', '"'] (.string "# ") ['"', '#', ' ', '"'] [] := by
    have hchars (r : List Char) : scanChars? [] (['#', ' ', '"'] ++ r) = some (['#', ' '], r) := by
      simp [scanChars?]
    obtain ⟨t, ht, hfacts⟩ := takes_string hchars []
    refine ⟨t, ?_, hfacts⟩
    show (scanString? ['"', '#', ' ', '"'] <|> scanWord? ['"', '#', ' ', '"']) = some t
    exact congrArg (· <|> scanWord? ['"', '#', ' ', '"']) ht
  have hcomment : IsGap ['#', '.', '\n'] :=
    IsGap.comment (List.forall_mem_singleton.mpr rfl : ∀ d ∈ ['.'], inComment d) rfl
      (isGap_nil.space rfl)
  have hopen : Trivia [] [' ', '#', '1'] :=
    .space rfl (.comment (List.forall_mem_singleton.mpr rfl : ∀ d ∈ ['1'], inComment d) .nil .nil)
  have halone {c : Char} {cs : List Char} (hc : opensTrivia c = false) :
      Halts opensTrivia (c :: cs) := by
    rintro d ds heq
    obtain ⟨rfl, _⟩ := List.cons.inj heq
    exact hc
  refine kinds_of_joined _ _ ?_ ?_ hopen
  · simp only [List.forall_mem_cons]
    exact ⟨⟨isGap_nil.space rfl, isLexeme_of_takes (halone rfl) hnumber⟩,
      ⟨hcomment, isLexeme_of_takes (halone rfl) hdots⟩,
      ⟨isGap_nil.space rfl, isLexeme_of_takes (halone rfl) hstring⟩, List.forall_mem_nil _⟩
  · simp only [List.tail_cons, List.forall_mem_cons]
    exact ⟨List.cons_ne_nil _ _, List.cons_ne_nil _ _, List.forall_mem_nil _⟩

end Token

end JsonFilter
