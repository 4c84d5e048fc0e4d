import JsonFilter.Eval
import JsonFilter.Filter.Simplify
import JsonFilter.Proofs.Grammar.Sound
import JsonFilter.Proofs.Tree

/-!
Filters whose names are all known. In a scoped filter every variable is in scope and every call has
a number of arguments that its builtin accepts. What the rules of the grammar derive is scoped, and
simplification keeps that.
-/

namespace JsonFilter.Filter

mutual

/-- Every variable of a filter is bound in it or in a scope, and every builtin accepts the number of
its arguments. -/
def Scoped : Filter → List String → Prop
  | .identity _, _ => True
  | .recurse _, _ => True
  | .literal _ _, _ => True
  | .var _ name, scope => name ∈ scope
  | .index _ target key, scope => target.Scoped scope ∧ key.Scoped scope
  | .slice _ target low high, scope =>
    target.Scoped scope ∧ ScopedOption low scope ∧ ScopedOption high scope
  | .iterate _ target, scope => target.Scoped scope
  | .pipe _ left right, scope => left.Scoped scope ∧ right.Scoped scope
  | .comma _ left right, scope => left.Scoped scope ∧ right.Scoped scope
  | .alternative _ left right, scope => left.Scoped scope ∧ right.Scoped scope
  | .and _ left right, scope => left.Scoped scope ∧ right.Scoped scope
  | .or _ left right, scope => left.Scoped scope ∧ right.Scoped scope
  | .binary _ _ left right, scope => left.Scoped scope ∧ right.Scoped scope
  | .negate _ operand, scope => operand.Scoped scope
  | .array _ body, scope => ScopedOption body scope
  | .object _ entries, scope => ScopedPairs entries scope
  | .cond _ branches otherwise, scope =>
    ScopedPairs branches scope ∧ ScopedOption otherwise scope
  | .attempt _ body handler, scope => body.Scoped scope ∧ ScopedOption handler scope
  | .bind _ source name body, scope => source.Scoped scope ∧ body.Scoped (name :: scope)
  | .call _ builtin args, scope => builtin.accepts args.length ∧ ScopedList args scope

/-- `Scoped` for a filter that may be missing. -/
def ScopedOption : Option Filter → List String → Prop
  | none, _ => True
  | some f, scope => f.Scoped scope

/-- `Scoped` for every filter. -/
def ScopedList : List Filter → List String → Prop
  | [], _ => True
  | f :: fs, scope => f.Scoped scope ∧ ScopedList fs scope

/-- `Scoped` for both filters of every pair. -/
def ScopedPairs : List (Filter × Filter) → List String → Prop
  | [], _ => True
  | (f, g) :: ps, scope => f.Scoped scope ∧ g.Scoped scope ∧ ScopedPairs ps scope

end

/-! ## Parsing -/

namespace Parser

/-- What is derived is scoped, as far as the filters are that it was begun with. -/
def Part.Scoped (scope : List String) : Part → Prop
  | .pipe f => f.Scoped scope
  | .comma f => f.Scoped scope
  | .commaTail left f => left.Scoped scope → f.Scoped scope
  | .alternative f => f.Scoped scope
  | .operators _ _ left f => left.Scoped scope → f.Scoped scope
  | .operation _ _ left f => left.Scoped scope → f.Scoped scope
  | .tighter _ left f => left.Scoped scope → f.Scoped scope
  | .unary f => f.Scoped scope
  | .term f => f.Scoped scope
  | .suffixes _ left f => left.Scoped scope → f.Scoped scope
  | .binding source _ f => source.Scoped scope → f.Scoped scope
  | .bracket target _ f => target.Scoped scope → f.Scoped scope
  | .primary f => f.Scoped scope
  | .args fs => ScopedList fs scope
  | .branches bs otherwise => ScopedPairs bs scope ∧ ScopedOption otherwise scope
  | .entries es => ScopedPairs es scope
  | .entry k v => k.Scoped scope ∧ v.Scoped scope
  | .entryValue f => f.Scoped scope
  | .entryPipes left f => left.Scoped scope → f.Scoped scope

theorem accepts_of_find? {name : String} {arity : Nat} {b : Builtin}
    (h : Builtin.find? name arity = some b) : b.accepts arity := by
  have hfound := List.find?_some h
  rw [Bool.and_eq_true] at hfound
  exact hfound.2

theorem Operator.apply_scoped {scope : List String} {left right : Filter} (op : Operator)
    (loc : Range) (hl : left.Scoped scope) (hr : right.Scoped scope) :
    (op.apply loc left right).Scoped scope := by
  cases op <;> exact ⟨hl, hr⟩

/-- What the rules derive is scoped, by induction on the derivation. A binding is the only rule that
changes the scope. -/
theorem Derives.scoped {fits : Nat → Prop} {scope : List String} {d : Nat} {part : Part}
    {s r : List Token} (h : Derives fits scope d part s r) : part.Scoped scope := by
  induction h with
  | pipe_last _ _ _ ih => exact ih
  | pipe_more _ _ _ ih ih' => exact ⟨ih, ih'⟩
  | comma _ _ ih ih' => exact ih' ih
  | commaTail_nil _ => exact id
  | commaTail_cons _ _ _ ih ih' => exact fun hl => ih' ⟨hl, ih⟩
  | alternative_last _ _ _ ih ih' => exact ih' ih
  | alternative_more _ _ _ _ ih ih' ih'' => exact ⟨ih' ih, ih''⟩
  | operators_nil _ => exact id
  | operators_cons _ _ _ _ _ ih ih' => exact fun hl => ih' (ih hl)
  | operation _ _ _ ih ih' => exact fun hl => Operator.apply_scoped _ _ hl (ih' ih)
  | tighter_nil _ => exact id
  | tighter_cons _ _ _ _ _ ih ih' ih'' => exact fun hl => ih'' (ih' (ih hl))
  | unary_minus _ _ ih => exact ih
  | unary_term _ _ ih => exact ih
  | term _ _ ih ih' => exact ih' ih
  | suffixes_nil _ => exact id
  | suffixes_field _ _ ih => exact fun hl => ih ⟨hl, trivial⟩
  | suffixes_string _ _ ih => exact fun hl => ih ⟨hl, trivial⟩
  | suffixes_dotBracket _ _ _ ih ih' => exact fun hl => ih' (ih hl)
  | suffixes_bracket _ _ _ ih ih' => exact fun hl => ih' (ih hl)
  | suffixes_question _ _ ih => exact fun hl => ih ⟨hl, trivial⟩
  | suffixes_binding _ ih => exact ih
  | binding _ ih => exact fun hl => ⟨hl, ih⟩
  | bracket_iterate => exact id
  | bracket_high _ ih => exact fun hl => ⟨hl, trivial, ih⟩
  | bracket_key _ _ _ ih => exact fun hl => ⟨hl, ih⟩
  | bracket_low _ _ _ ih => exact fun hl => ⟨hl, ih, trivial⟩
  | bracket_both _ _ _ _ _ ih ih' => exact fun hl => ⟨hl, ih, ih'⟩
  | primary_string => exact ⟨trivial, trivial⟩
  | primary_identity _ => trivial
  | primary_recurse => trivial
  | primary_field => exact ⟨trivial, trivial⟩
  | primary_literal _ => trivial
  | primary_var hmem => exact hmem
  | primary_paren _ ih => exact ih
  | primary_emptyArray => trivial
  | primary_array _ _ ih => exact ih
  | primary_emptyObject => trivial
  | primary_object _ _ ih => exact ih
  | primary_cond _ ih => exact ih
  | primary_try _ _ _ ih => exact ⟨ih, trivial⟩
  | primary_tryCatch _ _ _ ih ih' => exact ⟨ih, ih'⟩
  | primary_call _ hb ih => exact ⟨accepts_of_find? hb, ih⟩
  | primary_name _ hb => exact ⟨accepts_of_find? hb, trivial⟩
  | args_last _ ih => exact ⟨ih, trivial⟩
  | args_more _ _ ih ih' => exact ⟨ih, ih'⟩
  | branches_end _ _ ih ih' => exact ⟨⟨ih, ih', trivial⟩, trivial⟩
  | branches_else _ _ _ ih ih' ih'' => exact ⟨⟨ih, ih', trivial⟩, ih''⟩
  | branches_more _ _ _ ih ih' ih'' => exact ⟨⟨ih, ih', ih''.1⟩, ih''.2⟩
  | entries_last _ ih => exact ⟨ih.1, ih.2, trivial⟩
  | entries_more _ _ ih ih' => exact ⟨ih.1, ih.2, ih'⟩
  | entry_var hmem => exact ⟨trivial, hmem⟩
  | entry_computed _ _ ih ih' => exact ⟨ih, ih'⟩
  | entry_keyed _ _ ih => exact ⟨trivial, ih⟩
  | entry_short _ _ => exact ⟨trivial, trivial, trivial⟩
  | entryValue _ _ ih ih' => exact ih' ih
  | entryPipes_nil _ => exact id
  | entryPipes_cons _ _ _ ih ih' => exact fun hl => ih' ⟨hl, ih⟩

theorem scoped_of_ofTokens {globals : List String} {tokens : List Token} {f : Filter}
    (h : Filter.ofTokens globals tokens = .ok f) : f.Scoped globals := by
  rcases derives_of_ofTokens h with ⟨loc, rfl⟩ | ⟨r, hderives, _⟩
  · trivial
  · exact hderives.scoped

end Parser

/-! ## Simplification -/

theorem joinPipe_scoped {scope : List String} (loc : Range) (left right : Filter)
    (hl : left.Scoped scope) (hr : right.Scoped scope) : (joinPipe loc left right).Scoped scope := by
  unfold joinPipe
  split
  · exact hr
  · exact hl
  · exact ⟨hl, hr⟩

theorem joinBinary_scoped {scope : List String} (loc : Range) (op : BinaryOp) (left right : Filter)
    (hl : left.Scoped scope) (hr : right.Scoped scope) :
    (joinBinary loc op left right).Scoped scope := by
  unfold joinBinary
  split
  · split
    · trivial
    · exact ⟨hl, hr⟩
  · exact ⟨hl, hr⟩

theorem joinNegate_scoped {scope : List String} (loc : Range) (operand : Filter)
    (h : operand.Scoped scope) : (joinNegate loc operand).Scoped scope := by
  unfold joinNegate
  split
  · trivial
  · exact h

theorem length_simplifyList (fs : List Filter) : (simplifyList fs).length = fs.length := by
  induction fs with
  | nil => rfl
  | cons f fs ih => rw [simplifyList, List.length_cons, List.length_cons, ih]

mutual

theorem Scoped.simplify : ∀ {scope : List String} (f : Filter), f.Scoped scope →
    f.simplify.Scoped scope
  | _, .identity _, _ => trivial
  | _, .recurse _, _ => trivial
  | _, .literal _ _, _ => trivial
  | _, .var _ _, h => h
  | _, .index _ target key, ⟨ht, hk⟩ => ⟨Scoped.simplify target ht, Scoped.simplify key hk⟩
  | _, .slice _ target low high, ⟨ht, hl, hh⟩ =>
    ⟨Scoped.simplify target ht, simplifyOption_scoped low hl, simplifyOption_scoped high hh⟩
  | _, .iterate _ target, ht => Scoped.simplify target ht
  | _, .pipe loc left right, ⟨hl, hr⟩ =>
    joinPipe_scoped loc _ _ (Scoped.simplify left hl) (Scoped.simplify right hr)
  | _, .comma _ left right, ⟨hl, hr⟩ => ⟨Scoped.simplify left hl, Scoped.simplify right hr⟩
  | _, .alternative _ left right, ⟨hl, hr⟩ => ⟨Scoped.simplify left hl, Scoped.simplify right hr⟩
  | _, .and _ left right, ⟨hl, hr⟩ => ⟨Scoped.simplify left hl, Scoped.simplify right hr⟩
  | _, .or _ left right, ⟨hl, hr⟩ => ⟨Scoped.simplify left hl, Scoped.simplify right hr⟩
  | _, .binary loc op left right, ⟨hl, hr⟩ =>
    joinBinary_scoped loc op _ _ (Scoped.simplify left hl) (Scoped.simplify right hr)
  | _, .negate loc operand, h => joinNegate_scoped loc _ (Scoped.simplify operand h)
  | _, .array _ body, h => simplifyOption_scoped body h
  | _, .object _ entries, h => simplifyPairs_scoped entries h
  | _, .cond _ branches otherwise, ⟨hb, ho⟩ =>
    ⟨simplifyPairs_scoped branches hb, simplifyOption_scoped otherwise ho⟩
  | _, .attempt _ body handler, ⟨hb, hh⟩ =>
    ⟨Scoped.simplify body hb, simplifyOption_scoped handler hh⟩
  | _, .bind _ source _ body, ⟨hs, hb⟩ => ⟨Scoped.simplify source hs, Scoped.simplify body hb⟩
  | _, .call _ builtin args, ⟨hb, hargs⟩ =>
    ⟨by rw [length_simplifyList]; exact hb, simplifyList_scoped args hargs⟩

theorem simplifyOption_scoped : ∀ {scope : List String} (f : Option Filter),
    ScopedOption f scope → ScopedOption (simplifyOption f) scope
  | _, none, _ => trivial
  | _, some f, h => Scoped.simplify f h

theorem simplifyList_scoped : ∀ {scope : List String} (fs : List Filter),
    ScopedList fs scope → ScopedList (simplifyList fs) scope
  | _, [], _ => trivial
  | _, f :: fs, ⟨hf, hfs⟩ => ⟨Scoped.simplify f hf, simplifyList_scoped fs hfs⟩

theorem simplifyPairs_scoped : ∀ {scope : List String} (ps : List (Filter × Filter)),
    ScopedPairs ps scope → ScopedPairs (simplifyPairs ps) scope
  | _, [], _ => trivial
  | _, (f, g) :: ps, ⟨hf, hg, hps⟩ =>
    ⟨Scoped.simplify f hf, Scoped.simplify g hg, simplifyPairs_scoped ps hps⟩

end

end JsonFilter.Filter
