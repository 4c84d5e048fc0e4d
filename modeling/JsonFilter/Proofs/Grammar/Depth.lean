import JsonFilter.Proofs.Grammar.Complete

/-!
How deep a derivation goes. A level of nesting is taken for a token that is read, and the parts of a
filter begin behind that token, so no level is farther from where a part begins than the part is
long. A text of fewer tokens than there are levels therefore never nests too deeply.
-/

namespace JsonFilter.Filter.Parser

/-- The first level that a part of no tokens would not take, if it begins at a level. -/
def Part.bound : Part → (depth : Nat) → Nat
  | .pipe _, d => d + 1
  | .operation _ _ _ _, d => d + 1
  | .suffixes base _ _, d => max base d
  | _, d => d

/-- A part is followed by no more tokens than begin with it, and its derivation takes no level that
is farther from the first one than the tokens it takes are many. -/
theorem Derives.length_le_and {fits : Nat → Prop} {scope : List String} {d b : Nat} {part : Part}
    {s r : List Token} (h : Derives fits scope d part s r) :
    r.length ≤ s.length ∧
      (part.bound d + s.length ≤ b + r.length → Derives (· < b) scope d part s r) := by
  induction h with
    (simp only [Part.bound, List.length_cons] at *
     refine ⟨by omega, fun hbound => ?_⟩)
  -- Pipes and commas
  | pipe_last _ _ hne ih => exact .pipe_last (by omega) (ih.2 (by omega)) hne
  | pipe_more _ _ _ ih ih' => exact .pipe_more (by omega) (ih.2 (by omega)) (ih'.2 (by omega))
  | comma _ _ ih ih' => exact .comma (ih.2 (by omega)) (ih'.2 (by omega))
  | commaTail_nil hne => exact .commaTail_nil hne
  | commaTail_cons _ _ _ ih ih' =>
    exact .commaTail_cons (by omega) (ih.2 (by omega)) (ih'.2 (by omega))
  -- Operators
  | alternative_last _ _ hne ih ih' =>
    exact .alternative_last (ih.2 (by omega)) (ih'.2 (by omega)) hne
  | alternative_more _ _ _ _ ih ih' ih'' =>
    exact .alternative_more (ih.2 (by omega)) (ih'.2 (by omega)) (by omega) (ih''.2 (by omega))
  | operators_nil hlow => exact .operators_nil hlow
  | operators_cons hop hlevel hcompared _ _ ih ih' =>
    exact .operators_cons hop hlevel hcompared (ih.2 (by omega)) (ih'.2 (by omega))
  | operation _ _ _ ih ih' => exact .operation (by omega) (ih.2 (by omega)) (ih'.2 (by omega))
  | tighter_nil hlow => exact .tighter_nil hlow
  | tighter_cons hop hlevel _ _ _ ih ih' ih'' =>
    exact .tighter_cons hop hlevel (ih.2 (by omega)) (ih'.2 (by omega)) (ih''.2 (by omega))
  | unary_minus _ _ ih => exact .unary_minus (by omega) (ih.2 (by omega))
  | unary_term hne _ ih => exact .unary_term hne (ih.2 (by omega))
  -- Suffixes
  | term _ _ ih ih' => exact .term (ih.2 (by omega)) (ih'.2 (by omega))
  | suffixes_nil hstop => exact .suffixes_nil hstop
  | suffixes_field _ _ ih => exact .suffixes_field (by omega) (ih.2 (by omega))
  | suffixes_string _ _ ih => exact .suffixes_string (by omega) (ih.2 (by omega))
  | suffixes_dotBracket _ _ _ ih ih' =>
    exact .suffixes_dotBracket (by omega) (ih.2 (by omega)) (ih'.2 (by omega))
  | suffixes_bracket _ _ _ ih ih' =>
    exact .suffixes_bracket (by omega) (ih.2 (by omega)) (ih'.2 (by omega))
  | suffixes_question _ _ ih => exact .suffixes_question (by omega) (ih.2 (by omega))
  | suffixes_binding _ ih => exact .suffixes_binding (ih.2 (by omega))
  | binding _ ih => exact .binding (ih.2 (by omega))
  | bracket_iterate => exact .bracket_iterate
  | bracket_high _ ih => exact .bracket_high (ih.2 (by omega))
  | bracket_key hne hne' _ ih => exact .bracket_key hne hne' (ih.2 (by omega))
  | bracket_low hne hne' _ ih => exact .bracket_low hne hne' (ih.2 (by omega))
  | bracket_both hne hne' _ hne'' _ ih ih' =>
    exact .bracket_both hne hne' (ih.2 (by omega)) hne'' (ih'.2 (by omega))
  -- Filters that no operator joins
  | primary_string => exact .primary_string
  | primary_identity hne => exact .primary_identity hne
  | primary_recurse => exact .primary_recurse
  | primary_field => exact .primary_field
  | primary_literal hl => exact .primary_literal hl
  | primary_var hmem => exact .primary_var hmem
  | primary_paren _ ih => exact .primary_paren (ih.2 (by omega))
  | primary_emptyArray => exact .primary_emptyArray
  | primary_array hne _ ih => exact .primary_array hne (ih.2 (by omega))
  | primary_emptyObject => exact .primary_emptyObject
  | primary_object hne _ ih => exact .primary_object hne (ih.2 (by omega))
  | primary_cond _ ih => exact .primary_cond (ih.2 (by omega))
  | primary_try _ _ hne ih => exact .primary_try (by omega) (ih.2 (by omega)) hne
  | primary_tryCatch _ _ _ ih ih' =>
    exact .primary_tryCatch (by omega) (ih.2 (by omega)) (ih'.2 (by omega))
  | primary_call _ hfind ih => exact .primary_call (ih.2 (by omega)) hfind
  | primary_name hne hfind => exact .primary_name hne hfind
  -- Lists of parts
  | args_last _ ih => exact .args_last (ih.2 (by omega))
  | args_more _ _ ih ih' => exact .args_more (ih.2 (by omega)) (ih'.2 (by omega))
  | branches_end _ _ ih ih' => exact .branches_end (ih.2 (by omega)) (ih'.2 (by omega))
  | branches_else _ _ _ ih ih' ih'' =>
    exact .branches_else (ih.2 (by omega)) (ih'.2 (by omega)) (ih''.2 (by omega))
  | branches_more _ _ _ ih ih' ih'' =>
    exact .branches_more (ih.2 (by omega)) (ih'.2 (by omega)) (ih''.2 (by omega))
  | entries_last _ ih => exact .entries_last (ih.2 (by omega))
  | entries_more _ _ ih ih' => exact .entries_more (ih.2 (by omega)) (ih'.2 (by omega))
  -- Entries
  | entry_var hmem => exact .entry_var hmem
  | entry_computed _ _ ih ih' => exact .entry_computed (ih.2 (by omega)) (ih'.2 (by omega))
  | entry_keyed hword _ ih => exact .entry_keyed hword (ih.2 (by omega))
  | entry_short hword hne => exact .entry_short hword hne
  | entryValue _ _ ih ih' => exact .entryValue (ih.2 (by omega)) (ih'.2 (by omega))
  | entryPipes_nil hne => exact .entryPipes_nil hne
  | entryPipes_cons _ _ _ ih ih' =>
    exact .entryPipes_cons (by omega) (ih.2 (by omega)) (ih'.2 (by omega))

/-- What is derived from all tokens before the end is their filter, if there are fewer tokens than
levels of nesting. -/
theorem ofTokens_of_short {fits : Nat → Prop} {globals : List String} {tokens r : List Token}
    {f : Filter} (h : Derives fits globals 0 (.pipe f) tokens r)
    (hfinish : (peek ⟨globals, finishOf tokens⟩ r).isFinish)
    (hshort : tokens.length < maxDepth + r.length) :
    Filter.ofTokens globals tokens = .ok f := by
  have hbound : (Part.pipe f).bound 0 + tokens.length ≤ maxDepth + r.length := by
    simp only [Part.bound]
    omega
  have hwithin : Derives (· < maxDepth) globals 0 (.pipe f) tokens r := h.length_le_and.2 hbound
  rcases ofTokens_of_derives hwithin hfinish with hok | ⟨⟨d, hlt, hle⟩, _⟩
  · exact hok
  · exact absurd hlt (Nat.not_lt.mpr hle)

/-- What is derived from all tokens before the end is their filter, or it nests too deeply, and then
there are at least as many tokens before the end as levels of nesting. -/
theorem ofTokens_ok_or_tooDeep {fits : Nat → Prop} {globals : List String} {ts : List Token}
    {finish : Range} {f : Filter}
    (h : Derives fits globals 0 (.pipe f) (ts ++ [⟨.finish, finish⟩]) [⟨.finish, finish⟩]) :
    Filter.ofTokens globals (ts ++ [⟨.finish, finish⟩]) = .ok f ∨ maxDepth ≤ ts.length ∧
      ∃ t, Filter.ofTokens globals (ts ++ [⟨.finish, finish⟩]) = .error (.tooDeep t) := by
  by_cases hlength : ts.length < maxDepth
  · have hshort : (ts ++ [(⟨.finish, finish⟩ : Token)]).length < maxDepth + 1 := by
      rw [List.length_append]
      exact Nat.succ_lt_succ hlength
    exact .inl (ofTokens_of_short h rfl hshort)
  · rcases ofTokens_of_derives h rfl with hok | ⟨_, htooDeep⟩
    · exact .inl hok
    · exact .inr ⟨Nat.le_of_not_lt hlength, htooDeep⟩

end JsonFilter.Filter.Parser
