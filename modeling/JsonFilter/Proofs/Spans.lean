import JsonFilter.Program
import JsonFilter.Proofs.Grammar.Blame
import JsonFilter.Proofs.Grammar.Origin
import JsonFilter.Proofs.Grammar.Source
import JsonFilter.Proofs.Simplify
import JsonFilter.Proofs.Token.Literals

/-!
Where diagnostics about a filter are told. The range of a token is turned back into the bytes of its
lexeme, and every failure to compile or to run is told by a token of the source, by its end, or by
the character that the lexer rejects.
-/

namespace JsonFilter

/-! ## Ranges and bytes -/

namespace Range

/-- The span of a stretch of text is its size and that of the text before it. -/
theorem span_behind {source : String} {before text rest : List Char}
    (h : source.toList = before ++ text ++ rest) (htext : text ≠ []) :
    (Range.mk (.behind before) (.behind (before ++ text))).span source =
      ((String.ofList before).utf8ByteSize, (String.ofList text).utf8ByteSize) := by
  have hfirst : source.toList = before ++ (text ++ rest) := by rw [h, List.append_assoc]
  have hsize : 1 ≤ (String.ofList text).utf8ByteSize := by
    cases text with
    | nil => exact absurd rfl htext
    | cons c cs =>
      rw [String.ofList_cons, String.utf8ByteSize_append, String.utf8ByteSize_singleton]
      exact Nat.le_add_right_of_le c.utf8Size_pos
  simp only [span, Position.offset_behind hfirst, Position.offset_behind h, String.ofList_append,
    String.utf8ByteSize_append, Nat.add_sub_cancel_left, Nat.max_eq_left hsize]

/-- The end of a text is one byte long. -/
theorem span_end (source : String) :
    (Range.empty (.behind source.toList)).span source = (source.utf8ByteSize, 1) := by
  have hsource : source.toList = source.toList ++ [] := (List.append_nil _).symm
  simp only [span, empty, Position.offset_behind hsource, String.ofList_toList, Nat.sub_self,
    Nat.zero_max]

end Range

namespace Token

/-- A token of a split text stands where its lexeme is. -/
theorem Lexed.stands {rest before s : List Char} {ts : List Token} (h : Lexed rest before s ts)
    {t : Token} (ht : t ∈ ts) : ∃ w lexeme after, s = w ++ lexeme ++ after ∧
      IsLexeme t.kind lexeme ∧ t.range = ⟨.behind (before ++ w), .behind (before ++ w ++ lexeme)⟩ := by
  induction h with
  | trivia _ => cases ht
  | @token before w lexeme s kind ts _ hlexeme _ _ ih =>
    cases ht with
    | head => exact ⟨w, lexeme, s, by rw [List.append_assoc], hlexeme, rfl⟩
    | tail _ ht =>
      obtain ⟨w', lexeme', after, rfl, hlexeme', hrange⟩ := ih ht
      refine ⟨w ++ lexeme ++ w', lexeme', after, by simp only [List.append_assoc], hlexeme', ?_⟩
      rw [hrange]
      simp only [List.append_assoc]

/-- The tokens of a source are lexemes of it and the end. -/
theorem list_stands {source : String} {tokens : List Token} (h : Token.list source = .ok tokens) :
    ∃ ts, tokens = ts ++ [⟨.finish, .empty (.behind source.toList)⟩] ∧ ∀ t ∈ ts,
      ∃ before lexeme rest, source.toList = before ++ lexeme ++ rest ∧ IsLexeme t.kind lexeme ∧
        t.range = ⟨.behind before, .behind (before ++ lexeme)⟩ := by
  rcases listFrom_splits [] source.toList with ⟨ts, hlist, hts⟩ | ⟨_, _, _, _, _, hlist, _⟩
  · obtain rfl := Except.ok.inj (h.symm.trans hlist)
    exact ⟨ts, rfl, fun t ht => hts.stands ht⟩
  · cases h.symm.trans hlist

end Token

/-! ## Diagnostics -/

namespace Diagnostic

/-- A diagnostic is told where a piece of its source begins, and marks the bytes of that piece. -/
def TellsAt (d : Diagnostic) (before piece : List Char) : Prop :=
  d.position? = some (.behind before) ∧
    d.span = ((String.ofList before).utf8ByteSize, (String.ofList piece).utf8ByteSize)

/-- A diagnostic is told by a token of its source, at the lexeme of that token. -/
def AtToken (d : Diagnostic) (t : Token) : Prop :=
  ∃ tokens before lexeme rest, Token.list d.source = .ok tokens ∧ t ∈ tokens ∧
    d.source.toList = before ++ lexeme ++ rest ∧ Token.IsLexeme t.kind lexeme ∧
    t.range = ⟨.behind before, .behind (before ++ lexeme)⟩ ∧ d.TellsAt before lexeme

/-- A diagnostic is told at the end of its source, where it marks one byte. -/
def AtEnd (d : Diagnostic) : Prop :=
  d.position? = some (.behind d.source.toList) ∧ d.span = (d.source.utf8ByteSize, 1)

/-- A diagnostic is told at the character that the lexer rejects. -/
def AtRejected (d : Diagnostic) (e : Token.Error) : Prop :=
  ∃ before rest, Token.list d.source = .error e ∧ d.source.toList = before ++ e.char :: rest ∧
    d.TellsAt before [e.char]

theorem atToken_of_range {d : Diagnostic} {tokens : List Token} {t : Token}
    {before lexeme rest : List Char} (hlist : Token.list d.source = .ok tokens) (ht : t ∈ tokens)
    (hsource : d.source.toList = before ++ lexeme ++ rest) (hlexeme : Token.IsLexeme t.kind lexeme)
    (hrange : t.range = ⟨.behind before, .behind (before ++ lexeme)⟩)
    (hd : d.cause.range? = some t.range) : d.AtToken t := by
  refine ⟨tokens, before, lexeme, rest, hlist, ht, hsource, hlexeme, hrange, ?_, ?_⟩
  · rw [position?, hd, hrange]
    rfl
  · simp only [span, hd, hrange, Range.span_behind hsource hlexeme.ne_nil]

/-- What is told by the range of a token is told at its lexeme, or at the end. -/
theorem at_token_or_end {d : Diagnostic} {tokens : List Token} {t : Token}
    (hlist : Token.list d.source = .ok tokens) (ht : t ∈ tokens)
    (hd : d.cause.range? = some t.range) : d.AtToken t ∨ t.isFinish ∧ d.AtEnd := by
  obtain ⟨ts, rfl, hstands⟩ := Token.list_stands hlist
  rcases List.mem_append.mp ht with hts | hfinish
  · obtain ⟨before, lexeme, rest, hsource, hlexeme, hrange⟩ := hstands t hts
    exact .inl (atToken_of_range hlist ht hsource hlexeme hrange hd)
  · obtain rfl := List.mem_singleton.mp hfinish
    refine .inr ⟨rfl, ?_, ?_⟩
    · rw [position?, hd]
      rfl
    · simp only [span, hd, Range.span_end]

theorem atRejected {source : String} {e : Token.Error} (h : Token.list source = .error e) :
    (Diagnostic.mk (.token e) source).AtRejected e := by
  rcases Token.listFrom_splits [] source.toList with
    ⟨_, hlist, _⟩ | ⟨part, c, rest, _, hs, hlist, _, hhalts, _⟩
  · cases h.symm.trans hlist
  · obtain rfl := Except.error.inj (h.symm.trans hlist)
    have hsource : source.toList = part ++ [c] ++ rest := by rw [hs, List.append_assoc]; rfl
    have hc : c ≠ '\n' := by
      rintro rfl
      cases (Token.Halts.opensTrivia_false hhalts).1
    have hpast : Position.behind (part ++ [c]) =
        ⟨(Position.behind part).line, (Position.behind part).column + 1⟩ := by
      rw [Position.behind_concat, Position.advance, if_neg hc]
    refine ⟨part, rest, h, hs, rfl, ?_⟩
    show Range.span (Range.mk (.behind part) _) source = _
    rw [List.nil_append, ← hpast, Range.span_behind hsource (List.cons_ne_nil c [])]

end Diagnostic

/-! ## Compiling -/

namespace Filter

open JsonFilter.Filter.Parser

/-- The token that stands for the end of a source is the last of its tokens. -/
theorem finishOf_mem {source : String} {tokens : List Token} (h : Token.list source = .ok tokens) :
    finishOf tokens ∈ tokens := by
  obtain ⟨ts, rfl, _⟩ := Token.list_stands h
  have hfinish : finishOf (ts ++ [⟨.finish, .empty (.behind source.toList)⟩]) =
      ⟨.finish, .empty (.behind source.toList)⟩ := by
    simp [finishOf, Token.isFinish]
  rw [hfinish]
  exact List.mem_append_right ts List.mem_cons_self

/-- A source does not compile because the lexer fails on it, or the parser on its tokens. -/
theorem of_ofSource_error {globals : List String} {source : String} {d : Diagnostic}
    (h : Filter.ofSource globals source = .error d) :
    (∃ e, Token.list source = .error e ∧ d = ⟨.token e, source⟩) ∨
      ∃ tokens e, Token.list source = .ok tokens ∧ Filter.ofTokens globals tokens = .error e ∧
        d = ⟨.filter e, source⟩ := by
  unfold Filter.ofSource at h
  cases htokens : Token.list source with
  | error e =>
    rw [htokens] at h
    exact .inl ⟨e, rfl, (Except.error.inj h).symm⟩
  | ok tokens =>
    rw [htokens] at h
    change (Filter.ofTokens globals tokens).mapError _ = .error d at h
    cases hfilter : Filter.ofTokens globals tokens with
    | ok f =>
      rw [hfilter] at h
      cases h
    | error e =>
      rw [hfilter] at h
      exact .inr ⟨tokens, e, rfl, hfilter, (Except.error.inj h).symm⟩

/-- A source that does not compile is told by the character that the lexer rejects, or by the token
that the parser blames. -/
theorem ofSource_placed {globals : List String} {source : String} {d : Diagnostic}
    (h : Filter.ofSource globals source = .error d) :
    (∃ e, d = ⟨.token e, source⟩ ∧ d.AtRejected e) ∨
      ∃ e, d = ⟨.filter e, source⟩ ∧ (d.AtToken e.token ∨ e.token.isFinish ∧ d.AtEnd) := by
  rcases of_ofSource_error h with ⟨e, hlist, rfl⟩ | ⟨tokens, e, hlist, hfilter, rfl⟩
  · exact .inl ⟨e, rfl, Diagnostic.atRejected hlist⟩
  · have hblames := ofTokens_blames globals tokens
    rw [hfilter] at hblames
    have hmem : e.token ∈ tokens := by
      rcases hblames with hfinish | hmem
      · rw [hfinish]
        exact finishOf_mem hlist
      · exact hmem
    exact .inr ⟨e, rfl, Diagnostic.at_token_or_end hlist hmem rfl⟩

/-! ## Running -/

/-- Failures of a sourced filter, and of what it is simplified to, are told by tokens. -/
theorem admits_fromToken {tokens : List Token} {f : Filter} (h : f.Sourced tokens) :
    Admits (fun e e' => FromToken tokens e.loc ∧ FromToken tokens e'.loc ∧ e.fault = e'.fault) f where
  caught := fun _ _ h => h.2.2
  told := fun g hg _ => ⟨h g hg, h g hg, rfl⟩
  key := by
    rintro k ⟨loc, entries, value, hobject, hk⟩ v
    have hkey : ∀ g, OccursIn g k → FromToken tokens g.loc := fun g hg =>
      h g ((hg.of_inner (List.mem_map_of_mem hk)).trans hobject)
    obtain ⟨g, hg, hloc⟩ := loc_simplify_occurs k
    refine ⟨hkey k (.refl k), ?_, rfl⟩
    rw [hloc]
    exact hkey g hg

/-- The failures of a filter whose source is some tokens are told by them. The `.` that stands for
no tokens does not fail. -/
theorem eval_fromToken {globals : List String} {tokens : List Token} {f : Filter}
    (h : Filter.ofTokens globals tokens = .ok f) (simplified : Bool) {horizon : Nat} {env : Env}
    {v : Value} {e : Failure}
    (he : .error e ∈ (eval horizon (if simplified then f.simplify else f) env v).items) :
    FromToken tokens e.loc := by
  rcases sourced_of_ofTokens h with ⟨loc, rfl⟩ | hsourced
  · have hvalue : (eval horizon (if simplified then (identity loc).simplify else .identity loc) env
        v).items = [.ok v] := by cases simplified <;> rfl
    rw [hvalue] at he
    cases List.mem_singleton.mp he
  · have hcorresponds := simplify_corresponds f (admits_fromToken hsourced) horizon env v
    cases simplified with
    | false =>
      obtain ⟨_, hloc, _⟩ := hcorresponds.error_left he
      exact hloc
    | true =>
      obtain ⟨_, _, hloc, _⟩ := hcorresponds.error_right he
      exact hloc

end Filter

namespace Program

/-- A failure of a run is told by a token of the source, whether the filter is simplified or not. -/
theorem outputsFor_placed {o : Options} {source : String} {p : Program}
    (h : compile o source = .ok p) {horizon : Nat} {v : Value} {d : Diagnostic}
    (hd : .error d ∈ (p.outputsFor horizon v).items) :
    d.source = source ∧ ∃ t, d.AtToken t := by
  obtain ⟨f, hf, h⟩ := ok_of_bind h
  obtain rfl := Except.ok.inj h
  obtain ⟨tokens, hlist, htokens⟩ := Filter.ofTokens_of_ofSource hf
  rw [outputsFor, Outputs.items_mapError] at hd
  obtain ⟨item, hitem, heq⟩ := List.mem_map.mp hd
  cases item with
  | ok v => cases heq
  | error e =>
    obtain rfl := Except.error.inj heq
    obtain ⟨t, ht, hfinish, hrange⟩ := Filter.eval_fromToken htokens o.simplify hitem
    let d : Diagnostic := ⟨.run e, source⟩
    have hd : d.cause.range? = some t.range := congrArg some hrange.symm
    rcases Diagnostic.at_token_or_end hlist ht hd with htoken | ⟨hend, _⟩
    · exact ⟨rfl, t, htoken⟩
    · rw [hfinish] at hend
      cases hend

end Program

end JsonFilter
