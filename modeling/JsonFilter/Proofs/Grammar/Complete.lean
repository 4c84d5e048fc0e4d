import JsonFilter.Proofs.Grammar.Sound

/-!
The grammar is followed by the parser: from tokens that a derivation takes apart, the parser takes
the same part and leaves the same rest, or else it reports that filters nest too deeply. The second
happens only if the derivation itself goes beyond the limit.
-/

namespace JsonFilter.Filter.Parser

/-- Parsing gives a result and what is left, or stops at the limit of nesting, which then `fits`
allows to go beyond. -/
def Meets (fits : Nat → Prop) {α : Type} {s : List Token} (x : Parsing α s) (a : α)
    (r : List Token) : Prop :=
  (∃ h, x = .ok ⟨a, r, h⟩) ∨ (∃ d, fits d ∧ maxDepth ≤ d) ∧ ∃ t, x = .error (.tooDeep t)

namespace Meets

variable {fits : Nat → Prop} {α β : Type} {s w r u : List Token} {a : α} {b : β}

theorem ok (h : r.length < s.length) : Meets fits (.ok ⟨a, r, h⟩ : Parsing α s) a r := .inl ⟨h, rfl⟩

theorem bind {x : Parsing α s} {k : Front α s → Parsing β w} (hx : Meets fits x a r)
    (hk : ∀ h, Meets fits (k ⟨a, r, h⟩) b u) : Meets fits (x >>= k) b u := by
  rcases hx with ⟨h, rfl⟩ | ⟨hd, t, rfl⟩
  · exact hk h
  · exact .inr ⟨hd, t, rfl⟩

theorem checkDepth_bind {ctx : Context} {d : Nat} {k : Unit → Parsing β w} (hd : fits d)
    (hk : Meets fits (k ()) b u) : Meets fits (checkDepth ctx d s >>= k) b u := by
  unfold checkDepth
  split
  · next hle => exact .inr ⟨⟨d, hd, hle⟩, _, rfl⟩
  · exact hk

theorem expect_bind {ctx : Context} {kind : Token.Kind} {error : Token → Error} {loc : Range}
    {k : { r' : List Token // r'.length < (⟨kind, loc⟩ :: r : List Token).length } → Parsing β w}
    (hk : ∀ h, Meets fits (k ⟨r, h⟩) b u) :
    Meets fits (expect ctx kind error (⟨kind, loc⟩ :: r) >>= k) b u := by
  simp only [expect, if_true]
  exact hk _

end Meets

theorem ne_of_nextKind? {k : Token.Kind} {s : List Token} (h : nextKind? s ≠ some k) :
    ∀ loc r, s = ⟨k, loc⟩ :: r → False := by
  rintro loc r rfl
  exact h rfl

/-- A key is no binding, no parenthesis and not the end. -/
theorem of_keyWord? {kind : Token.Kind} {word : String} (h : keyWord? kind = some word) :
    (∀ name, kind = .binding name → False) ∧ (kind = .symbol .openParen → False) ∧
      (kind = .finish → False) := by
  refine ⟨fun name hkind => ?_, fun hkind => ?_, fun hkind => ?_⟩
  all_goals
    rw [hkind] at h
    cases h

/-- The parser takes a part of a filter from the front of some tokens. -/
def Part.Parses (fits : Nat → Prop) (ctx : Context) (d : Nat) : Part → (s r : List Token) → Prop
  | .pipe f, s, r => Meets fits (parsePipe ctx d s) f r
  | .comma f, s, r => Meets fits (parseComma ctx d s) f r
  | .commaTail left f, s, r => ∀ whole h, Meets fits (parseCommaTail whole ctx d left s h) f r
  | .alternative f, s, r => Meets fits (parseAlternative ctx d s) f r
  | .operators least compared left f, s, r =>
    ∀ whole h, Meets fits (parseOperators whole ctx d least compared left s h) f r
  | .operation op loc left f, s, r => Meets fits (parseOperation ctx d op loc left s) f r
  | .tighter level left f, s, r => ∀ whole h, Meets fits (parseTighter whole ctx d level left s h) f r
  | .unary f, s, r => Meets fits (parseUnary ctx d s) f r
  | .term f, s, r => Meets fits (parsePostfix ctx d s) f r
  | .suffixes base left f, s, r =>
    ∀ whole h, Meets fits (parseSuffixes whole ctx base d left s h) f r
  | .binding source loc f, s, r => Meets fits (parseBinding ctx d source loc s) f r
  | .bracket target loc f, s, r => Meets fits (parseBracket ctx d target loc s) f r
  | .primary f, s, r => Meets fits (parsePrimary ctx d s) f r
  | .args fs, s, r =>
    ∀ whole taken h, Meets fits (parseArgs whole ctx d taken s h) (taken.reverse ++ fs) r
  | .branches bs otherwise, s, r => ∀ whole loc taken h,
    Meets fits (parseBranches whole ctx d loc taken s h) (.cond loc (taken.reverse ++ bs) otherwise) r
  | .entries es, s, r =>
    ∀ whole taken h, Meets fits (parseEntries whole ctx d taken s h) (taken.reverse ++ es) r
  | .entry k v, s, r => Meets fits (parseEntry ctx d s) (k, v) r
  | .entryValue f, s, r => Meets fits (parseEntryValue ctx d s) f r
  | .entryPipes left f, s, r => ∀ whole h, Meets fits (parseEntryPipes whole ctx d left s h) f r

/-- The parser takes what the rules derive, by induction on the derivation. Each function of the
parser looks at the next token where the rules ask which token does not come next. -/
theorem Derives.parses {fits : Nat → Prop} {scope : List String} {d : Nat} {part : Part}
    {s r : List Token} (h : Derives fits scope d part s r) :
    ∀ ctx : Context, ctx.scope = scope → part.Parses fits ctx d s r := by
  induction h with
  -- Pipes and commas
  | pipe_last hd _ hne ih =>
    intro ctx hctx
    show Meets fits (parsePipe ctx _ _) _ _
    rw [parsePipe]
    refine .checkDepth_bind hd ((ih ctx hctx).bind fun h => ?_)
    dsimp only
    split
    · exact (hne rfl).elim
    · exact .ok _
  | pipe_more hd _ _ ih ih' =>
    intro ctx hctx
    show Meets fits (parsePipe ctx _ _) _ _
    rw [parsePipe]
    exact .checkDepth_bind hd ((ih ctx hctx).bind fun h => (ih' ctx hctx).bind fun h' => .ok _)
  | comma _ _ ih ih' =>
    intro ctx hctx
    show Meets fits (parseComma ctx _ _) _ _
    rw [parseComma]
    exact (ih ctx hctx).bind fun h => ih' ctx hctx _ h
  | commaTail_nil hne =>
    intro ctx hctx whole hs
    rw [parseCommaTail.eq_def]
    split
    · exact (hne rfl).elim
    · exact .ok _
  | commaTail_cons hd _ _ ih ih' =>
    intro ctx hctx whole hs
    rw [parseCommaTail]
    exact .checkDepth_bind hd ((ih ctx hctx).bind fun h => ih' ctx hctx whole _)
  -- Operators
  | alternative_last _ _ hne ih ih' =>
    intro ctx hctx
    show Meets fits (parseAlternative ctx _ _) _ _
    rw [parseAlternative]
    refine (ih ctx hctx).bind fun h => (ih' ctx hctx _ h).bind fun h' => ?_
    dsimp only
    split
    · exact (hne rfl).elim
    · exact .ok _
  | alternative_more _ _ hd _ ih ih' ih'' =>
    intro ctx hctx
    show Meets fits (parseAlternative ctx _ _) _ _
    rw [parseAlternative]
    exact (ih ctx hctx).bind fun h => (ih' ctx hctx _ h).bind fun h' =>
      .checkDepth_bind hd ((ih'' ctx hctx).bind fun h'' => .ok _)
  | operators_nil hlow =>
    intro ctx hctx whole hs
    rw [parseOperators.eq_def]
    split
    · exact .ok _
    · next t s _ =>
      split
      · exact .ok _
      · next op hop =>
        rw [if_pos (hlow op hop)]
        exact .ok _
  | operators_cons hop hlevel hcompared _ _ ih ih' =>
    intro ctx hctx whole hs
    rw [parseOperators]
    simp only [hop, hcompared, Nat.not_lt.mpr hlevel, if_false, Bool.false_eq_true]
    exact (ih ctx hctx).bind fun h => ih' ctx hctx whole _
  | operation hd _ _ ih ih' =>
    intro ctx hctx
    show Meets fits (parseOperation ctx _ _ _ _ _) _ _
    rw [parseOperation]
    exact .checkDepth_bind hd ((ih ctx hctx).bind fun h => (ih' ctx hctx _ h).bind fun h' => .ok _)
  | tighter_nil hlow =>
    intro ctx hctx whole hs
    rw [parseTighter.eq_def]
    split
    · exact .ok _
    · next t s _ =>
      split
      · exact .ok _
      · next op hop =>
        rw [if_pos (hlow op hop)]
        exact .ok _
  | tighter_cons hop hlevel _ _ _ ih ih' ih'' =>
    intro ctx hctx whole hs
    rw [parseTighter]
    simp only [hop, Nat.not_le.mpr hlevel, if_false]
    exact (ih ctx hctx).bind fun h => (ih' ctx hctx _ h).bind fun h' => ih'' ctx hctx whole _
  | unary_minus hd _ ih =>
    intro ctx hctx
    show Meets fits (parseUnary ctx _ _) _ _
    rw [parseUnary]
    exact .checkDepth_bind hd ((ih ctx hctx).bind fun h => .ok _)
  | unary_term hne _ ih =>
    intro ctx hctx
    show Meets fits (parseUnary ctx _ _) _ _
    rw [parseUnary]
    · exact ih ctx hctx
    · exact ne_of_nextKind? hne
  -- Suffixes
  | term _ _ ih ih' =>
    intro ctx hctx
    show Meets fits (parsePostfix ctx _ _) _ _
    rw [parsePostfix]
    exact (ih ctx hctx).bind fun h => ih' ctx hctx _ h
  | suffixes_nil hstop =>
    intro ctx hctx whole hs
    rw [parseSuffixes.eq_def]
    split
    case h_8 => exact .ok _
    -- Every other branch is for a token with which a term goes on.
    all_goals exact absurd (hstop _ rfl) Bool.noConfusion
  | suffixes_field hd _ ih | suffixes_string hd _ ih | suffixes_question hd _ ih =>
    intro ctx hctx whole hs
    rw [parseSuffixes]
    exact .checkDepth_bind hd (ih ctx hctx whole _)
  | suffixes_dotBracket hd _ _ ih ih' | suffixes_bracket hd _ _ ih ih' =>
    intro ctx hctx whole hs
    rw [parseSuffixes]
    exact .checkDepth_bind hd ((ih ctx hctx).bind fun h => ih' ctx hctx whole _)
  | suffixes_binding _ ih =>
    intro ctx hctx whole hs
    rw [parseSuffixes]
    exact (ih ctx hctx).bind fun h => .ok _
  | binding _ ih =>
    intro ctx hctx
    show Meets fits (parseBinding ctx _ _ _ _) _ _
    rw [parseBinding]
    exact .expect_bind fun h => (ih ⟨_ :: ctx.scope, ctx.finish⟩ (by rw [hctx])).bind fun h' => .ok _
  | bracket_iterate =>
    intro ctx hctx
    show Meets fits (parseBracket ctx _ _ _ _) _ _
    rw [parseBracket]
    exact .ok _
  | bracket_high _ ih =>
    intro ctx hctx
    show Meets fits (parseBracket ctx _ _ _ _) _ _
    rw [parseBracket]
    exact (ih ctx hctx).bind fun h => .expect_bind fun h' => .ok _
  | bracket_key hclose hcolon _ ih =>
    intro ctx hctx
    show Meets fits (parseBracket ctx _ _ _ _) _ _
    rw [parseBracket]
    · exact (ih ctx hctx).bind fun h => .expect_bind fun h' => .ok _
    · exact ne_of_nextKind? hclose
    · exact ne_of_nextKind? hcolon
  | bracket_low hclose hcolon _ ih =>
    intro ctx hctx
    show Meets fits (parseBracket ctx _ _ _ _) _ _
    rw [parseBracket]
    · exact (ih ctx hctx).bind fun h => .ok _
    · exact ne_of_nextKind? hclose
    · exact ne_of_nextKind? hcolon
  | bracket_both hclose hcolon _ hlow _ ih ih' =>
    intro ctx hctx
    show Meets fits (parseBracket ctx _ _ _ _) _ _
    rw [parseBracket]
    · refine (ih ctx hctx).bind fun h => ?_
      dsimp only
      split
      -- The second filter is missing only where a bracket follows the colon.
      · next heq =>
        obtain rfl := (List.cons.inj heq).2
        exact (hlow rfl).elim
      · next heq =>
        obtain rfl := (List.cons.inj heq).2
        exact (ih' ctx hctx).bind fun h' => .expect_bind fun h'' => .ok _
      · next hne => exact (hne _ _ rfl).elim
    · exact ne_of_nextKind? hclose
    · exact ne_of_nextKind? hcolon
  -- Filters that no operator joins
  | primary_string | primary_recurse | primary_field | primary_emptyArray | primary_emptyObject =>
    intro ctx hctx
    show Meets fits (parsePrimary ctx _ _) _ _
    rw [parsePrimary]
    exact .ok _
  | primary_identity hne =>
    intro ctx hctx
    show Meets fits (parsePrimary ctx _ _) _ _
    rw [parsePrimary]
    · exact .ok _
    · exact fun name => ne_of_nextKind? (hne name)
  | primary_literal hl =>
    intro ctx hctx
    show Meets fits (parsePrimary ctx _ _) _ _
    -- One branch of the parser for each kind of literal.
    unfold literal? at hl
    split at hl <;> cases hl <;> rw [parsePrimary] <;> exact .ok _
  | primary_var hmem =>
    intro ctx hctx
    show Meets fits (parsePrimary ctx _ _) _ _
    rw [parsePrimary]
    simp only [variableNode, hctx, List.contains_iff_mem, hmem, if_true]
    exact .ok _
  | primary_paren _ ih =>
    intro ctx hctx
    show Meets fits (parsePrimary ctx _ _) _ _
    rw [parsePrimary]
    exact (ih ctx hctx).bind fun h => .expect_bind fun h' => .ok _
  | primary_array hne _ ih =>
    intro ctx hctx
    show Meets fits (parsePrimary ctx _ _) _ _
    rw [parsePrimary]
    · exact (ih ctx hctx).bind fun h => .expect_bind fun h' => .ok _
    · exact ne_of_nextKind? hne
  | primary_object hne _ ih =>
    intro ctx hctx
    show Meets fits (parsePrimary ctx _ _) _ _
    rw [parsePrimary]
    · exact (ih ctx hctx _ [] (Front.whole_le _)).bind fun h => .ok _
    · exact ne_of_nextKind? hne
  | primary_cond _ ih =>
    intro ctx hctx
    show Meets fits (parsePrimary ctx _ _) _ _
    rw [parsePrimary]
    exact (ih ctx hctx _ _ [] (Front.whole_le _)).bind fun h => .ok _
  | primary_try hd _ hne ih =>
    intro ctx hctx
    show Meets fits (parsePrimary ctx _ _) _ _
    rw [parsePrimary]
    refine .checkDepth_bind hd ((ih ctx hctx).bind fun h => ?_)
    dsimp only
    split
    · exact (hne rfl).elim
    · exact .ok _
  | primary_tryCatch hd _ _ ih ih' =>
    intro ctx hctx
    show Meets fits (parsePrimary ctx _ _) _ _
    rw [parsePrimary]
    exact .checkDepth_bind hd ((ih ctx hctx).bind fun h =>
      .checkDepth_bind hd ((ih' ctx hctx).bind fun h' => .ok _))
  | primary_call _ hb ih =>
    intro ctx hctx
    show Meets fits (parsePrimary ctx _ _) _ _
    rw [parsePrimary]
    refine (ih ctx hctx _ [] (Front.whole_le _)).bind fun h => ?_
    simp only [callNode, List.reverse_nil, List.nil_append, hb]
    exact .ok _
  | primary_name hne hb =>
    intro ctx hctx
    show Meets fits (parsePrimary ctx _ _) _ _
    rw [parsePrimary]
    · simp only [callNode, List.length_nil, hb]
      exact .ok _
    · exact ne_of_nextKind? hne
  -- Lists of parts: those that are taken already stand in front of the others
  | args_last _ ih =>
    intro ctx hctx whole taken hs
    rw [parseArgs]
    refine (ih ctx hctx).bind fun h => ?_
    simp only [← List.reverse_cons]
    exact .ok _
  | args_more _ _ ih ih' =>
    intro ctx hctx whole taken hs
    rw [parseArgs, List.append_cons, ← List.reverse_cons]
    exact (ih ctx hctx).bind fun h => ih' ctx hctx whole (_ :: taken) _
  | branches_end _ _ ih ih' =>
    intro ctx hctx whole loc taken hs
    rw [parseBranches]
    refine (ih ctx hctx).bind fun h => .expect_bind fun h' => (ih' ctx hctx).bind fun h'' => ?_
    simp only [← List.reverse_cons]
    exact .ok _
  | branches_else _ _ _ ih ih' ih'' =>
    intro ctx hctx whole loc taken hs
    rw [parseBranches]
    refine (ih ctx hctx).bind fun h => .expect_bind fun h' => (ih' ctx hctx).bind fun h'' =>
      (ih'' ctx hctx).bind fun _ => .expect_bind fun _ => ?_
    simp only [← List.reverse_cons]
    exact .ok _
  | branches_more _ _ _ ih ih' ih'' =>
    intro ctx hctx whole loc taken hs
    rw [parseBranches, List.append_cons, ← List.reverse_cons]
    exact (ih ctx hctx).bind fun h => .expect_bind fun h' => (ih' ctx hctx).bind fun h'' =>
      ih'' ctx hctx whole loc (_ :: taken) _
  | entries_last _ ih =>
    intro ctx hctx whole taken hs
    rw [parseEntries]
    refine (ih ctx hctx).bind fun h => ?_
    simp only [← List.reverse_cons]
    exact .ok _
  | entries_more _ _ ih ih' =>
    intro ctx hctx whole taken hs
    rw [parseEntries, List.append_cons, ← List.reverse_cons]
    exact (ih ctx hctx).bind fun h => ih' ctx hctx whole (_ :: taken) _
  -- Entries
  | entry_var hmem =>
    intro ctx hctx
    show Meets fits (parseEntry ctx _ _) _ _
    rw [parseEntry]
    simp only [variableNode, hctx, List.contains_iff_mem, hmem, if_true]
    exact .ok _
  | entry_computed _ _ ih ih' =>
    intro ctx hctx
    show Meets fits (parseEntry ctx _ _) _ _
    rw [parseEntry]
    exact (ih ctx hctx).bind fun h => .expect_bind fun h' => .expect_bind fun h'' =>
      (ih' ctx hctx).bind fun _ => .ok _
  | entry_keyed hword _ ih =>
    intro ctx hctx
    obtain ⟨hbinding, hparen, hfinish⟩ := of_keyWord? hword
    show Meets fits (parseEntry ctx _ _) _ _
    rw [parseEntry]
    · simp only [hword]
      exact (ih ctx hctx).bind fun h => .ok _
    · exact hbinding
    · exact hparen
    · exact hfinish
  | entry_short hword hne =>
    intro ctx hctx
    obtain ⟨hbinding, hparen, hfinish⟩ := of_keyWord? hword
    show Meets fits (parseEntry ctx _ _) _ _
    rw [parseEntry]
    · simp only [hword]
      split
      · exact (hne rfl).elim
      · exact .ok _
    · exact hbinding
    · exact hparen
    · exact hfinish
  | entryValue _ _ ih ih' =>
    intro ctx hctx
    show Meets fits (parseEntryValue ctx _ _) _ _
    rw [parseEntryValue]
    exact (ih ctx hctx).bind fun h => ih' ctx hctx _ h
  | entryPipes_nil hne =>
    intro ctx hctx whole hs
    rw [parseEntryPipes.eq_def]
    split
    · exact (hne rfl).elim
    · exact .ok _
  | entryPipes_cons hd _ _ ih ih' =>
    intro ctx hctx whole hs
    rw [parseEntryPipes]
    exact .checkDepth_bind hd ((ih ctx hctx).bind fun h => ih' ctx hctx whole _)

/-! ## All tokens of a filter -/

/-- No filter begins at the end. -/
theorem parsePrimary_of_isFinish {ctx : Context} {s : List Token} (d : Nat)
    (h : (peek ctx s).isFinish) :
    parsePrimary ctx d s = .error (.unexpectedEnd (peek ctx s)) := by
  cases s with
  | nil => rw [parsePrimary, peek, List.headD_nil]
  | cons t r =>
    obtain ⟨kind, loc⟩ := t
    obtain rfl : kind = .finish := by simpa [peek, Token.isFinish] using h
    rw [parsePrimary, peek, List.headD_cons]

theorem parsePipe_of_isFinish {ctx : Context} {s : List Token} (h : (peek ctx s).isFinish) :
    parsePipe ctx 0 s = .error (.unexpectedEnd (peek ctx s)) := by
  have hunary : parseUnary ctx 1 s = .error (.unexpectedEnd (peek ctx s)) := by
    rw [parseUnary.eq_def]
    split
    · cases h
    · rw [parsePostfix, parsePrimary_of_isFinish 1 h]
      rfl
  rw [parsePipe, parseComma, parseAlternative, hunary]
  rfl

theorem peek_of_derives {fits : Nat → Prop} {ctx : Context} {f : Filter} {s r : List Token}
    (h : Derives fits ctx.scope 0 (.pipe f) s r) : (peek ctx s).isFinish = false := by
  cases hfinish : (peek ctx s).isFinish with
  | false => rfl
  | true =>
    have hpipe := parsePipe_of_isFinish hfinish
    rcases h.parses ctx rfl with ⟨_, hok⟩ | ⟨_, t, ht⟩
    · cases hpipe.symm.trans hok
    · cases hpipe.symm.trans ht

/-- What is derived from all tokens before the end is their filter, unless filters nest too deeply
there. -/
theorem ofTokens_of_derives {fits : Nat → Prop} {globals : List String} {tokens r : List Token}
    {f : Filter} (h : Derives fits globals 0 (.pipe f) tokens r)
    (hfinish : (peek ⟨globals, finishOf tokens⟩ r).isFinish) :
    Filter.ofTokens globals tokens = .ok f ∨
      (∃ d, fits d ∧ maxDepth ≤ d) ∧ ∃ t, Filter.ofTokens globals tokens = .error (.tooDeep t) := by
  have hfirst : (peek ⟨globals, finishOf tokens⟩ tokens).isFinish = false := peek_of_derives h
  unfold Filter.ofTokens
  simp only [hfirst]
  rcases h.parses ⟨globals, finishOf tokens⟩ rfl with ⟨hshort, hok⟩ | ⟨hd, t, ht⟩
  · left
    rw [hok]
    exact if_pos hfinish
  · refine .inr ⟨hd, t, ?_⟩
    rw [ht]
    rfl

end JsonFilter.Filter.Parser
