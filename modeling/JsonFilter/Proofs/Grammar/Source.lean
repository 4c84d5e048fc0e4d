import JsonFilter.Program
import JsonFilter.Proofs.Grammar.Depth
import JsonFilter.Proofs.Grammar.Sound
import JsonFilter.Proofs.Token.Lexemes

/-!
Sources of filters. A source spells a filter if the rules of the grammar derive the filter from its
tokens. The filter of a source is the one that it spells within the limit of nesting, and a source
that spells a filter only beyond the limit is too deep.
-/

namespace JsonFilter.Filter

open JsonFilter.Filter.Parser

variable {globals : List String} {source : String} {f : Filter}

/-- The rules derive a filter from all tokens of a source before the end. -/
def Spelled (fits : Nat → Prop) (globals : List String) (source : String) (f : Filter) : Prop :=
  ∃ tokens r, Token.list source = .ok tokens ∧ Derives fits globals 0 (.pipe f) tokens r ∧
    (peek ⟨globals, finishOf tokens⟩ r).isFinish

/-- The filter of a source is that of its tokens. -/
theorem ofSource_of_list {tokens : List Token} (h : Token.list source = .ok tokens) :
    Filter.ofSource globals source =
      (Filter.ofTokens globals tokens).mapError fun e => ⟨.filter e, source⟩ := by
  unfold Filter.ofSource
  rw [h]
  rfl

/-- A filter that is spelled is the filter of its source, unless it nests too deeply. -/
theorem ofSource_of_spelled {fits : Nat → Prop} (h : Spelled fits globals source f) :
    Filter.ofSource globals source = .ok f ∨ (∃ d, fits d ∧ maxDepth ≤ d) ∧
      ∃ t, Filter.ofSource globals source = .error ⟨.filter (.tooDeep t), source⟩ := by
  obtain ⟨tokens, r, hlist, hpipe, hfinish⟩ := h
  rw [ofSource_of_list hlist]
  rcases ofTokens_of_derives hpipe hfinish with hok | ⟨hd, t, herror⟩
  · left
    rw [hok]
    rfl
  · refine .inr ⟨hd, t, ?_⟩
    rw [herror]
    rfl

/-- A filter that is derived from the tokens of a source before the end is the filter of the source,
or it nests too deeply, and then the source has more tokens than there are levels of nesting. -/
theorem ofSource_of_derives {fits : Nat → Prop} {ts : List Token} {finish : Range}
    (hlist : Token.list source = .ok (ts ++ [⟨.finish, finish⟩]))
    (h : Derives fits globals 0 (.pipe f) (ts ++ [⟨.finish, finish⟩]) [⟨.finish, finish⟩]) :
    Filter.ofSource globals source = .ok f ∨
      (∃ tokens, Token.list source = .ok tokens ∧ maxDepth < tokens.length) ∧
        ∃ t, Filter.ofSource globals source = .error ⟨.filter (.tooDeep t), source⟩ := by
  rw [ofSource_of_list hlist]
  rcases ofTokens_ok_or_tooDeep h with hok | ⟨hlong, t, herror⟩
  · left
    rw [hok]
    rfl
  · refine .inr ⟨⟨_, hlist, ?_⟩, t, ?_⟩
    · rw [List.length_append]
      exact Nat.lt_succ_of_le hlong
    · rw [herror]
      rfl

theorem ofSource_of_within (h : Spelled (· < maxDepth) globals source f) :
    Filter.ofSource globals source = .ok f := by
  rcases ofSource_of_spelled h with hok | ⟨⟨d, hlt, hle⟩, _⟩
  · exact hok
  · exact absurd hlt (Nat.not_lt.mpr hle)

theorem ok_of_mapError {ε δ α : Type} {x : Except ε α} {g : ε → δ} {a : α}
    (h : x.mapError g = .ok a) : x = .ok a := by
  cases x with
  | error e => cases h
  | ok b => exact congrArg Except.ok (Except.ok.inj h)

theorem ofTokens_of_ofSource (h : Filter.ofSource globals source = .ok f) :
    ∃ tokens, Token.list source = .ok tokens ∧ Filter.ofTokens globals tokens = .ok f := by
  obtain ⟨tokens, htokens, hf⟩ := ok_of_bind h
  exact ⟨tokens, ok_of_mapError htokens, ok_of_mapError hf⟩

/-- The filter of a source is spelled within the limit, if it is not the `.` of an empty source. -/
theorem spelled_of_ofSource (h : Filter.ofSource globals source = .ok f) :
    (∃ loc, f = .identity loc) ∨ Spelled (· < maxDepth) globals source f := by
  obtain ⟨tokens, hlist, hparse⟩ := ofTokens_of_ofSource h
  rcases derives_of_ofTokens hparse with hidentity | ⟨r, hderives, hfinish⟩
  · exact .inl hidentity
  · exact .inr ⟨tokens, r, hlist, hderives, hfinish⟩

end JsonFilter.Filter

namespace JsonFilter.Program

/-- The program of a source is that of its tokens. -/
theorem compile_of_list {o : Options} {source : String} {tokens : List Token}
    (h : Token.list source = .ok tokens) :
    compile o source =
      ((Filter.ofTokens (o.globals.map Prod.fst) tokens).mapError fun e =>
        (⟨.filter e, source⟩ : Diagnostic)).map fun f =>
          ⟨source, if o.simplify then f.simplify else f, o.globals⟩ := by
  rw [compile, Filter.ofSource_of_list h]
  cases Filter.ofTokens (o.globals.map Prod.fst) tokens <;> rfl

/-- A parenthesis with nothing behind it ends too soon. -/
theorem compile_openParen (o : Options) :
    compile o "(" = .error ⟨.filter (.unexpectedEnd ⟨.finish, .empty ⟨1, 2⟩⟩), "("⟩ := by
  have hlist : Token.list "(" = .ok [⟨.symbol .openParen, ⟨⟨1, 1⟩, ⟨1, 2⟩⟩⟩,
      ⟨.finish, .empty ⟨1, 2⟩⟩] :=
    Token.listFrom_cons rfl ⟨_, rfl, rfl, rfl, rfl⟩ rfl (Token.listFrom_finish rfl)
  rw [compile_of_list hlist]
  cbv

end JsonFilter.Program
