import JsonFilter.Diagnostic
import JsonFilter.Proofs.Places
import JsonFilter.Proofs.Token.Scanners

/-!
The lexer loses nothing. A text splits into lexemes with white space and comments between them, and
each token has the range of its lexeme; where the lexer fails, the text before the place of failure
splits in the same way, and nothing that begins there is a token.
-/

namespace JsonFilter

namespace Token

/-! ## White space and comments -/

/-- Whether a character can stand inside a comment. -/
def inComment (c : Char) : Bool := c ≠ '\r' ∧ c ≠ '\n'

/-- Whether a character opens what separates tokens. -/
def opensTrivia (c : Char) : Bool := isSpace c || c == '#'

/-- White space and comments in front of `rest`. A comment goes on to the end of its line. -/
inductive Trivia (rest : List Char) : List Char → Prop
  | nil : Trivia rest []
  | space {c : Char} {w : List Char} : isSpace c → Trivia rest w → Trivia rest (c :: w)
  | comment {body w : List Char} : (∀ c ∈ body, inComment c) → Halts inComment (w ++ rest) →
      Trivia rest w → Trivia rest ('#' :: (body ++ w))

/-- What is left of a comment, and white space and comments behind it. -/
def Commented (rest w : List Char) : Prop :=
  ∃ body w', w = body ++ w' ∧ (∀ c ∈ body, inComment c) ∧ Halts inComment (w' ++ rest) ∧
    Trivia rest w'

section
variable {rest w : List Char}

theorem Commented.hash (h : Commented rest w) : Trivia rest ('#' :: w) := by
  obtain ⟨body, w', rfl, hbody, hend, hw⟩ := h
  exact .comment hbody hend hw

theorem Commented.cons {c : Char} (hc : inComment c) (h : Commented rest w) :
    Commented rest (c :: w) := by
  obtain ⟨body, w', rfl, hbody, hend, hw⟩ := h
  exact ⟨c :: body, w', rfl, List.forall_mem_cons.mpr ⟨hc, hbody⟩, hend, hw⟩

/-- A comment is over where the line is, and the end of the line is white space. -/
theorem Commented.of_end {c : Char} (hc : inComment c = false) (h : Trivia rest w) :
    Commented rest (c :: w) := by
  have hspace : isSpace c := by
    simp only [inComment, ne_eq, decide_eq_false_iff_not, not_and_or, not_not] at hc
    rcases hc with rfl | rfl <;> rfl
  refine ⟨[], c :: w, rfl, List.forall_mem_nil _, ?_, h.space hspace⟩
  rintro d ds heq
  obtain ⟨rfl, _⟩ := List.cons.inj heq
  exact hc

end

/-- What the lexer skips is white space and comments, and no more of them stands behind it. -/
theorem skipTrivia_splits (comment : Bool) (p : Position) (s : List Char) :
    ∃ w rest, s = w ++ rest ∧ skipTrivia comment p s = (p.after w, rest) ∧
      Halts opensTrivia rest ∧ if comment then Commented rest w else Trivia rest w := by
  fun_induction skipTrivia comment p s with
  | case1 comment p =>
    refine ⟨[], [], rfl, rfl, .nil, ?_⟩
    cases comment
    · exact Trivia.nil
    · exact ⟨[], [], rfl, List.forall_mem_nil _, .nil, .nil⟩
  | case2 p c cs ih =>
    obtain ⟨w, rest, rfl, hskip, hrest, hw⟩ := ih
    refine ⟨c :: w, rest, rfl, hskip, hrest, ?_⟩
    change if inComment c then Commented rest w else Trivia rest w at hw
    cases hc : inComment c with
    | true =>
      rw [hc] at hw
      exact Commented.cons hc hw
    | false =>
      rw [hc] at hw
      exact Commented.of_end hc hw
  | case3 comment p c cs hcomment hspace ih =>
    obtain ⟨w, rest, rfl, hskip, hrest, hw⟩ := ih
    obtain rfl : comment = false := by simpa using hcomment
    exact ⟨c :: w, rest, rfl, hskip, hrest, Trivia.space hspace hw⟩
  | case4 comment p cs hcomment hspace ih =>
    obtain ⟨w, rest, rfl, hskip, hrest, hw⟩ := ih
    obtain rfl : comment = false := by simpa using hcomment
    exact ⟨'#' :: w, rest, rfl, hskip, hrest, Commented.hash hw⟩
  | case5 comment p c cs hcomment hspace hhash =>
    obtain rfl : comment = false := by simpa using hcomment
    refine ⟨[], c :: cs, rfl, rfl, ?_, Trivia.nil⟩
    rintro d ds heq
    obtain ⟨rfl, _⟩ := List.cons.inj heq
    simp [opensTrivia, hspace, hhash]

theorem Halts.opensTrivia_false {c : Char} {cs : List Char} (h : Halts opensTrivia (c :: cs)) :
    isSpace c = false ∧ c ≠ '#' := by
  simpa [opensTrivia] using h c cs rfl

theorem skipTrivia_of_halts {s : List Char} (h : Halts opensTrivia s) (p : Position) :
    skipTrivia false p s = (p, s) := by
  cases s with
  | nil => rfl
  | cons c cs =>
    obtain ⟨hspace, hhash⟩ := Halts.opensTrivia_false h
    simp only [skipTrivia, hspace, hhash, Bool.false_eq_true, ↓reduceIte]

/-! ## Lexemes -/

/-- A text that is one token by itself. -/
def IsLexeme (kind : Kind) (lexeme : List Char) : Prop :=
  Token.list (String.ofList lexeme) =
    .ok [⟨kind, ⟨.start, .behind lexeme⟩⟩, ⟨.finish, .empty (.behind lexeme)⟩]

section
variable {s lexeme rest : List Char} {kind : Kind}

theorem IsLexeme.ne_nil (h : IsLexeme kind lexeme) : lexeme ≠ [] := by
  rintro rfl
  unfold IsLexeme Token.list at h
  rw [String.toList_ofList, listFrom_finish rfl] at h
  cases h

/-- A token is read where the scanner takes its lexeme. -/
theorem listFrom_cons {p : Position} {c : Char} {cs : List Char} {token : Token}
    {tokens : List Token} (hskip : skipTrivia false p s = (token.range.first, c :: cs))
    (h : Takes scan? (c :: cs) token.kind lexeme rest)
    (hpast : token.range.first.after lexeme = token.range.past)
    (htokens : listFrom token.range.past rest = .ok tokens) :
    listFrom p s = .ok (token :: tokens) := by
  obtain ⟨t, ht, hkind, rfl, rfl⟩ := h
  rw [listFrom_scan hskip ht, hpast, htokens, hkind]
  rfl

/-- What the scanner takes from a text that begins with a token is a token by itself. -/
theorem isLexeme_of_takes (hs : Halts opensTrivia s) (h : Takes scan? s kind lexeme rest) :
    IsLexeme kind lexeme := by
  have hhalts : Halts opensTrivia lexeme := hs.of_front (h.splits ▸ List.prefix_append lexeme rest)
  unfold IsLexeme Token.list
  rw [String.toList_ofList]
  cases lexeme with
  | nil => exact absurd rfl h.ne_nil
  | cons c cs =>
    exact listFrom_cons (skipTrivia_of_halts hhalts .start) (steady_scan?.alone h)
      (Position.after_start _) (listFrom_finish rfl)

/-- A token with no trivia in front of it is taken as a whole. -/
theorem takes_of_isLexeme (hs : Halts opensTrivia lexeme) (h : IsLexeme kind lexeme) :
    Takes scan? lexeme kind lexeme [] := by
  cases lexeme with
  | nil => exact absurd rfl h.ne_nil
  | cons c cs =>
    unfold IsLexeme Token.list at h
    rw [String.toList_ofList] at h
    have hskip := skipTrivia_of_halts hs .start
    cases hscan : scan? (c :: cs) with
    | none =>
      rw [listFrom_error hskip hscan] at h
      cases h
    | some t =>
      rw [listFrom_scan hskip hscan] at h
      cases hrest : listFrom (Position.start.after t.lexeme) t.rest with
      | error e =>
        rw [hrest] at h
        cases h
      | ok ts =>
        rw [hrest] at h
        obtain ⟨htoken, _⟩ := List.cons.inj (Except.ok.inj h)
        obtain ⟨hkind, hrange⟩ := Token.mk.inj htoken
        have hpast : (Position.start.after t.lexeme).after t.rest = Position.start.after t.lexeme := by
          rw [← Position.after_append, t.splits, Position.after_start]
          exact (Range.mk.inj hrange).2.symm
        have hnil : t.rest = [] := Position.after_eq_self hpast
        refine ⟨t, hscan, hkind, ?_, hnil⟩
        have hsplits := t.splits
        rwa [hnil, List.append_nil] at hsplits

/-- No beginning of a text that is a token by itself is longer than what the scanner takes. -/
theorem length_le_of_isLexeme {kind' : Kind} {longer : List Char} (hs : Halts opensTrivia s)
    (h : Takes scan? s kind lexeme rest) (hfront : longer <+: s) (hlonger : IsLexeme kind' longer) :
    longer.length ≤ lexeme.length :=
  steady_scan?.longest h hfront (takes_of_isLexeme (hs.of_front hfront) hlonger)

/-- Where the scanner takes nothing, no beginning of the text is read as tokens. -/
theorem list_error_of_none {c : Char} {cs part : List Char} (hs : Halts opensTrivia (c :: cs))
    (hnone : scan? (c :: cs) = none) (hpart : part <+: c :: cs) (hne : part ≠ []) :
    Token.list (String.ofList part) = .error ⟨.start, c⟩ := by
  obtain ⟨u, hu⟩ := hpart
  unfold Token.list
  rw [String.toList_ofList]
  cases part with
  | nil => exact absurd rfl hne
  | cons d ds =>
    obtain ⟨rfl, hds⟩ := List.cons.inj hu
    have hhalts : Halts opensTrivia (d :: ds) := hs.of_front ⟨u, hu⟩
    apply listFrom_error (skipTrivia_of_halts hhalts .start)
    apply Option.eq_none_iff_forall_ne_some.mpr
    intro t ht
    have hkept := steady_scan?.kept u (by rw [ht]; rfl)
    rw [hu, hnone] at hkept
    cases hkept

end

/-! ## Splitting a text -/

/-- The text behind `before` splits into tokens and what is between them, up to `rest`. Each token
has the range of its lexeme in the whole text, and no longer piece would have been a token. -/
inductive Lexed (rest : List Char) : List Char → List Char → List Token → Prop
  | trivia {before w : List Char} : Trivia rest w → Lexed rest before (w ++ rest) []
  | token {before w lexeme s : List Char} {kind : Kind} {ts : List Token} :
      Trivia (lexeme ++ s) w → IsLexeme kind lexeme →
      (∀ kind' longer, longer <+: lexeme ++ s → IsLexeme kind' longer →
        longer.length ≤ lexeme.length) →
      Lexed rest (before ++ w ++ lexeme) s ts →
      Lexed rest before (w ++ (lexeme ++ s))
        (⟨kind, ⟨.behind (before ++ w), .behind (before ++ w ++ lexeme)⟩⟩ :: ts)

/-- One token more: the trivia in front of it and what the scanner takes. -/
theorem Lexed.of_takes {before w s lexeme next rest : List Char} {kind : Kind} {ts : List Token}
    (hw : Trivia s w) (hs : Halts opensTrivia s) (h : Takes scan? s kind lexeme next)
    (hts : Lexed rest (before ++ w ++ lexeme) next ts) :
    Lexed rest before (w ++ s)
      (⟨kind, ⟨.behind (before ++ w), .behind (before ++ w ++ lexeme)⟩⟩ :: ts) := by
  obtain rfl := h.splits
  exact .token hw (isLexeme_of_takes hs h)
    (fun kind' longer hfront hlonger => length_le_of_isLexeme hs h hfront hlonger) hts

theorem Lexed.length_le {rest before s : List Char} {ts : List Token} (h : Lexed rest before s ts) :
    ts.length ≤ s.length := by
  induction h with
  | trivia _ => exact Nat.zero_le _
  | token _ hlexeme _ _ ih =>
    have hpos := List.length_pos_iff.mpr hlexeme.ne_nil
    simp only [List.length_cons, List.length_append]
    omega

/-- The lexer at the place behind `before`. -/
theorem listFrom_splits (before s : List Char) :
    (∃ ts, listFrom (.behind before) s =
        .ok (ts ++ [⟨.finish, .empty (.behind (before ++ s))⟩]) ∧ Lexed [] before s ts) ∨
      ∃ part c rest ts, s = part ++ c :: rest ∧
        listFrom (.behind before) s = .error ⟨.behind (before ++ part), c⟩ ∧
        Lexed (c :: rest) before s ts ∧ Halts opensTrivia (c :: rest) ∧ scan? (c :: rest) = none := by
  induction hn : s.length using Nat.strongRecOn generalizing before s with
  | ind n ih =>
    subst hn
    obtain ⟨w, rest, rfl, hskip, hhalts, hw⟩ := skipTrivia_splits false (.behind before) s
    rw [← Position.behind_append] at hskip
    cases rest with
    | nil =>
      left
      refine ⟨[], ?_, .trivia hw⟩
      rw [listFrom_finish hskip, List.append_nil]
      rfl
    | cons c cs =>
      cases hscan : scan? (c :: cs) with
      | none =>
        exact .inr ⟨w, c, cs, [], rfl, listFrom_error hskip hscan, .trivia hw, hhalts, hscan⟩
      | some t =>
        have htakes := takes_of_eq_some hscan
        have hsplits : before ++ (w ++ c :: cs) = before ++ w ++ t.lexeme ++ t.rest := by
          simp only [List.append_assoc, t.splits]
        have hshorter : t.rest.length < (w ++ c :: cs).length := by
          have := t.shorter
          rw [List.length_append]
          omega
        rw [listFrom_scan hskip hscan, ← Position.behind_append]
        rcases ih _ hshorter (before ++ w ++ t.lexeme) t.rest rfl with
          ⟨ts, hlist, hts⟩ | ⟨part, d, rest, ts, hrest, hlist, hts, hbare, hnone⟩
        · left
          refine ⟨_, ?_, .of_takes hw hhalts htakes hts⟩
          rw [hlist, hsplits]
          rfl
        · right
          refine ⟨w ++ t.lexeme ++ part, d, rest, _, ?_, ?_, .of_takes hw hhalts htakes hts, hbare,
            hnone⟩
          · rw [List.append_assoc _ part, ← hrest, List.append_assoc w, t.splits]
          · have hpart : before ++ (w ++ t.lexeme ++ part) = before ++ w ++ t.lexeme ++ part := by
              simp only [List.append_assoc]
            rw [hlist, hpart]
            rfl

/-- Before the end, a text has no more tokens than characters. -/
theorem length_le_of_list {source : String} {tokens : List Token}
    (h : Token.list source = .ok tokens) : tokens.length ≤ source.length + 1 := by
  rcases listFrom_splits [] source.toList with ⟨ts, hlist, hts⟩ | ⟨part, c, rest, ts, _, herror, _⟩
  · obtain rfl := Except.ok.inj (h.symm.trans hlist)
    rw [List.length_append, ← String.length_toList]
    exact Nat.succ_le_succ hts.length_le
  · cases h.symm.trans herror

end Token

end JsonFilter
