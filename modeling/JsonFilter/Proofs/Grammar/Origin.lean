import JsonFilter.Proofs.Grammar.Sound
import JsonFilter.Proofs.Tree
import Mathlib.Data.List.Basic

/-!
The tokens that filters come from. Every part of a parsed filter has the range of one of the tokens
before the end, which is what failures of that part are told by.
-/

namespace JsonFilter.Filter

/-- The range of a token among some tokens, where the end does not count. -/
def FromToken (tokens : List Token) (loc : Range) : Prop :=
  ∃ t ∈ tokens, t.isFinish = false ∧ t.range = loc

/-- Everything in a filter has the range of a token. -/
def Sourced (tokens : List Token) (f : Filter) : Prop :=
  ∀ g, OccursIn g f → FromToken tokens g.loc

variable {tokens : List Token}

theorem Sourced.node {f : Filter} (hf : FromToken tokens f.loc)
    (hparts : ∀ p ∈ f.heads ++ f.inner, Sourced tokens p) : Sourced tokens f := by
  intro g hg
  rcases hg.eq_or_part with rfl | ⟨p, hp, hg⟩
  · exact hf
  · exact hparts p hp g hg

/-- `Sourced.node` for a filter with a fixed number of parts. -/
theorem Sourced.of_parts {f : Filter} (hf : FromToken tokens f.loc)
    (hparts : (f.heads ++ f.inner).Forall (Sourced tokens)) : Sourced tokens f :=
  .node hf (List.forall_iff_forall_mem.mp hparts)

theorem Sourced.leaf {f : Filter} (hf : FromToken tokens f.loc) (hleaf : f.IsLeaf) :
    Sourced tokens f := by
  apply Sourced.node hf
  rw [hleaf.1, hleaf.2]
  exact nofun

namespace Parser

/-- Some tokens are among others. -/
abbrev Among (tokens s : List Token) : Prop := s ⊆ tokens

theorem Among.tail {t : Token} {s : List Token} (h : Among tokens (t :: s)) : Among tokens s :=
  (List.cons_subset.mp h).2

theorem Among.range {t : Token} {s : List Token} (h : Among tokens (t :: s))
    (ht : t.isFinish = false) : FromToken tokens t.range :=
  ⟨t, (List.cons_subset.mp h).1, ht, rfl⟩

/-- What is derived is sourced, as far as the filters and ranges are that it was begun with. -/
def Part.Sourced (tokens : List Token) : Part → Prop
  | .pipe f => f.Sourced tokens
  | .comma f => f.Sourced tokens
  | .commaTail left f => left.Sourced tokens → f.Sourced tokens
  | .alternative f => f.Sourced tokens
  | .operators _ _ left f => left.Sourced tokens → f.Sourced tokens
  | .operation _ loc left f => FromToken tokens loc → left.Sourced tokens → f.Sourced tokens
  | .tighter _ left f => left.Sourced tokens → f.Sourced tokens
  | .unary f => f.Sourced tokens
  | .term f => f.Sourced tokens
  | .suffixes _ left f => left.Sourced tokens → f.Sourced tokens
  | .binding source loc f => FromToken tokens loc → source.Sourced tokens → f.Sourced tokens
  | .bracket target loc f => FromToken tokens loc → target.Sourced tokens → f.Sourced tokens
  | .primary f => f.Sourced tokens
  | .args fs => ∀ f ∈ fs, f.Sourced tokens
  | .branches bs otherwise =>
    (∀ b ∈ bs, b.1.Sourced tokens ∧ b.2.Sourced tokens) ∧ ∀ f ∈ otherwise, f.Sourced tokens
  | .entries es => ∀ e ∈ es, e.1.Sourced tokens ∧ e.2.Sourced tokens
  | .entry k v => k.Sourced tokens ∧ v.Sourced tokens
  | .entryValue f => f.Sourced tokens
  | .entryPipes left f => left.Sourced tokens → f.Sourced tokens

theorem Operator.apply_sourced (op : Operator) {loc : Range} {left right : Filter}
    (hloc : FromToken tokens loc) (hl : left.Sourced tokens) (hr : right.Sourced tokens) :
    (op.apply loc left right).Sourced tokens := by
  cases op <;> exact .of_parts hloc ⟨hl, hr⟩

theorem key_sourced {loc : Range} (h : FromToken tokens loc) (name : String) :
    (Filter.key loc name).Sourced tokens := .leaf h ⟨rfl, rfl⟩

theorem field_sourced {loc keyLoc : Range} (h : FromToken tokens loc)
    (hkey : FromToken tokens keyLoc) (name : String) :
    (Filter.index loc (.identity loc) (.key keyLoc name)).Sourced tokens :=
  .of_parts h ⟨.leaf h ⟨rfl, rfl⟩, key_sourced hkey name⟩

/-- What the rules derive is sourced in the tokens that are read, and what is left is among them. -/
theorem Derives.sourced {fits : Nat → Prop} {scope : List String} {d : Nat} {part : Part}
    {s r : List Token} (h : Derives fits scope d part s r) :
    Among tokens s → Among tokens r ∧ part.Sourced tokens := by
  induction h with
  -- Pipes, commas and operators
  | pipe_last _ _ _ ih => exact ih
  | pipe_more _ _ _ ih ih' =>
    intro hs
    obtain ⟨hr, hf⟩ := ih hs
    obtain ⟨hu, hg⟩ := ih' hr.tail
    exact ⟨hu, .of_parts (hr.range rfl) ⟨hf, hg⟩⟩
  -- A first part, and what continues it
  | comma _ _ ih ih' | alternative_last _ _ _ ih ih' | term _ _ ih ih' | entryValue _ _ ih ih' =>
    intro hs
    obtain ⟨hr, hf⟩ := ih hs
    obtain ⟨hu, hg⟩ := ih' hr
    exact ⟨hu, hg hf⟩
  | commaTail_nil _ | operators_nil _ | tighter_nil _ | suffixes_nil _ | entryPipes_nil _ =>
    exact fun hs => ⟨hs, id⟩
  | commaTail_cons _ _ _ ih ih' | entryPipes_cons _ _ _ ih ih' =>
    intro hs
    obtain ⟨hr, hg⟩ := ih hs.tail
    obtain ⟨hu, hh⟩ := ih' hr
    exact ⟨hu, fun hf => hh (.of_parts (hs.range rfl) ⟨hf, hg⟩)⟩
  | alternative_more _ _ _ _ ih ih' ih'' =>
    intro hs
    obtain ⟨hr, hf⟩ := ih hs
    obtain ⟨ht, hg⟩ := ih' hr
    obtain ⟨hu, hh⟩ := ih'' ht.tail
    exact ⟨hu, .of_parts (ht.range rfl) ⟨hg hf, hh⟩⟩
  | operators_cons hop _ _ _ _ ih ih' =>
    intro hs
    obtain ⟨hr, hg⟩ := ih hs.tail
    obtain ⟨hu, hh⟩ := ih' hr
    exact ⟨hu, fun hf => hh (hg (hs.range (isFinish_of_ofKind? hop)) hf)⟩
  | operation _ _ _ ih ih' =>
    intro hs
    obtain ⟨hr, hg⟩ := ih hs
    obtain ⟨hu, hh⟩ := ih' hr
    exact ⟨hu, fun hloc hf => Operator.apply_sourced _ hloc hf (hh hg)⟩
  | tighter_cons hop _ _ _ _ ih ih' ih'' =>
    intro hs
    obtain ⟨hr, hg⟩ := ih hs.tail
    obtain ⟨hu, hh⟩ := ih' hr
    obtain ⟨hw, hk⟩ := ih'' hu
    exact ⟨hw, fun hf => hk (hh (hg (hs.range (isFinish_of_ofKind? hop)) hf))⟩
  | unary_minus _ _ ih =>
    intro hs
    obtain ⟨hr, hf⟩ := ih hs.tail
    exact ⟨hr, .of_parts (hs.range rfl) hf⟩
  | unary_term _ _ ih => exact ih
  -- Suffixes
  | suffixes_field _ _ ih =>
    intro hs
    obtain ⟨hr, hg⟩ := ih hs.tail
    have hloc := hs.range rfl
    exact ⟨hr, fun hf => hg (.of_parts hloc ⟨hf, key_sourced hloc _⟩)⟩
  | suffixes_string _ _ ih =>
    intro hs
    obtain ⟨hr, hg⟩ := ih hs.tail.tail
    exact ⟨hr, fun hf => hg (.of_parts (hs.range rfl) ⟨hf, key_sourced (hs.tail.range rfl) _⟩)⟩
  | suffixes_dotBracket _ _ _ ih ih' =>
    intro hs
    obtain ⟨hr, hg⟩ := ih hs.tail.tail
    obtain ⟨hu, hh⟩ := ih' hr
    exact ⟨hu, fun hf => hh (hg (hs.tail.range rfl) hf)⟩
  | suffixes_bracket _ _ _ ih ih' =>
    intro hs
    obtain ⟨hr, hg⟩ := ih hs.tail
    obtain ⟨hu, hh⟩ := ih' hr
    exact ⟨hu, fun hf => hh (hg (hs.range rfl) hf)⟩
  | suffixes_question _ _ ih =>
    intro hs
    obtain ⟨hr, hg⟩ := ih hs.tail
    exact ⟨hr, fun hf => hg (.of_parts (hs.range rfl) hf)⟩
  | suffixes_binding _ ih =>
    intro hs
    obtain ⟨hr, hg⟩ := ih hs.tail
    exact ⟨hr, hg (hs.range rfl)⟩
  | binding _ ih =>
    intro hs
    obtain ⟨hr, hg⟩ := ih hs.tail.tail
    exact ⟨hr, fun hloc hf => .of_parts hloc ⟨hf, hg⟩⟩
  | bracket_iterate => exact fun hs => ⟨hs.tail, fun hloc hf => .of_parts hloc hf⟩
  | bracket_high _ ih =>
    intro hs
    obtain ⟨hr, hg⟩ := ih hs.tail
    exact ⟨hr.tail, fun hloc hf => .of_parts hloc ⟨hf, hg⟩⟩
  | bracket_key _ _ _ ih =>
    intro hs
    obtain ⟨hr, hg⟩ := ih hs
    exact ⟨hr.tail, fun hloc hf => .of_parts hloc ⟨hf, hg⟩⟩
  | bracket_low _ _ _ ih =>
    intro hs
    obtain ⟨hr, hg⟩ := ih hs
    exact ⟨hr.tail.tail, fun hloc hf => .of_parts hloc ⟨hf, hg⟩⟩
  | bracket_both _ _ _ _ _ ih ih' =>
    intro hs
    obtain ⟨hr, hg⟩ := ih hs
    obtain ⟨hu, hh⟩ := ih' hr.tail
    exact ⟨hu.tail, fun hloc hf => .of_parts hloc ⟨hf, hg, hh⟩⟩
  -- Filters that no operator joins
  | primary_string =>
    exact fun hs => ⟨hs.tail.tail, field_sourced (hs.range rfl) (hs.tail.range rfl) _⟩
  | primary_identity _ | primary_recurse | primary_var _ | primary_name _ _ =>
    exact fun hs => ⟨hs.tail, .leaf (hs.range rfl) ⟨rfl, rfl⟩⟩
  | primary_field => exact fun hs => ⟨hs.tail, field_sourced (hs.range rfl) (hs.range rfl) _⟩
  | primary_literal hl =>
    exact fun hs => ⟨hs.tail, .leaf (hs.range (isFinish_of_literal? hl)) ⟨rfl, rfl⟩⟩
  | primary_paren _ ih =>
    intro hs
    obtain ⟨hr, hf⟩ := ih hs.tail
    exact ⟨hr.tail, hf⟩
  | primary_emptyArray | primary_emptyObject =>
    exact fun hs => ⟨hs.tail.tail, .leaf (hs.range rfl) ⟨rfl, rfl⟩⟩
  | primary_array _ _ ih =>
    intro hs
    obtain ⟨hr, hf⟩ := ih hs.tail
    exact ⟨hr.tail, .of_parts (hs.range rfl) hf⟩
  | primary_object _ _ ih =>
    intro hs
    obtain ⟨hr, hes⟩ := ih hs.tail
    refine ⟨hr, .node (hs.range rfl) fun p hp => ?_⟩
    rcases List.mem_append.mp hp with hp | hp
    · obtain ⟨e, he, rfl⟩ := List.mem_map.mp hp
      exact (hes e he).2
    · obtain ⟨e, he, rfl⟩ := List.mem_map.mp hp
      exact (hes e he).1
  | primary_cond _ ih =>
    intro hs
    obtain ⟨hr, hbs, ho⟩ := ih hs.tail
    refine ⟨hr, .node (hs.range rfl) fun p hp => ?_⟩
    -- A condition has no heads.
    rcases List.mem_append.mp (show p ∈ _ ++ _ ++ _ from hp) with hp | hp
    · rcases List.mem_append.mp hp with hp | hp
      · obtain ⟨b, hb, rfl⟩ := List.mem_map.mp hp
        exact (hbs b hb).1
      · obtain ⟨b, hb, rfl⟩ := List.mem_map.mp hp
        exact (hbs b hb).2
    · exact ho p (Option.mem_toList.mp hp)
  | primary_try _ _ _ ih =>
    intro hs
    obtain ⟨hr, hf⟩ := ih hs.tail
    exact ⟨hr, .of_parts (hs.range rfl) hf⟩
  | primary_tryCatch _ _ _ ih ih' =>
    intro hs
    obtain ⟨hr, hf⟩ := ih hs.tail
    obtain ⟨hu, hg⟩ := ih' hr.tail
    exact ⟨hu, .of_parts (hs.range rfl) ⟨hf, hg⟩⟩
  | primary_call _ _ ih =>
    intro hs
    obtain ⟨hr, hfs⟩ := ih hs.tail.tail
    exact ⟨hr, .node (hs.range rfl) hfs⟩
  -- Lists of parts and entries
  | args_last _ ih =>
    intro hs
    obtain ⟨hr, hf⟩ := ih hs
    exact ⟨hr.tail, List.forall_mem_singleton.mpr hf⟩
  | args_more _ _ ih ih' =>
    intro hs
    obtain ⟨hr, hf⟩ := ih hs
    obtain ⟨hu, hfs⟩ := ih' hr.tail
    exact ⟨hu, List.forall_mem_cons.mpr ⟨hf, hfs⟩⟩
  | branches_end _ _ ih ih' =>
    intro hs
    obtain ⟨hr, hf⟩ := ih hs
    obtain ⟨hu, hg⟩ := ih' hr.tail
    exact ⟨hu.tail, List.forall_mem_singleton.mpr ⟨hf, hg⟩, nofun⟩
  | branches_else _ _ _ ih ih' ih'' =>
    intro hs
    obtain ⟨hr, hf⟩ := ih hs
    obtain ⟨ht, hg⟩ := ih' hr.tail
    obtain ⟨hu, hh⟩ := ih'' ht.tail
    refine ⟨hu.tail, List.forall_mem_singleton.mpr ⟨hf, hg⟩, fun f hf => ?_⟩
    obtain rfl := Option.some.inj hf
    exact hh
  | branches_more _ _ _ ih ih' ih'' =>
    intro hs
    obtain ⟨hr, hf⟩ := ih hs
    obtain ⟨ht, hg⟩ := ih' hr.tail
    obtain ⟨hu, hbs, ho⟩ := ih'' ht.tail
    exact ⟨hu, List.forall_mem_cons.mpr ⟨⟨hf, hg⟩, hbs⟩, ho⟩
  | entries_last _ ih =>
    intro hs
    obtain ⟨hr, he⟩ := ih hs
    exact ⟨hr.tail, List.forall_mem_singleton.mpr he⟩
  | entries_more _ _ ih ih' =>
    intro hs
    obtain ⟨hr, he⟩ := ih hs
    obtain ⟨hu, hes⟩ := ih' hr.tail
    exact ⟨hu, List.forall_mem_cons.mpr ⟨he, hes⟩⟩
  | entry_var _ =>
    intro hs
    have hloc := hs.range rfl
    exact ⟨hs.tail, key_sourced hloc _, .leaf hloc ⟨rfl, rfl⟩⟩
  | entry_computed _ _ ih ih' =>
    intro hs
    obtain ⟨hr, hk⟩ := ih hs.tail
    obtain ⟨hu, hv⟩ := ih' hr.tail.tail
    exact ⟨hu, hk, hv⟩
  | entry_keyed hword _ ih =>
    intro hs
    obtain ⟨hr, hv⟩ := ih hs.tail.tail
    exact ⟨hr, key_sourced (hs.range (isFinish_of_keyWord? hword)) _, hv⟩
  | entry_short hword _ =>
    intro hs
    have hloc := hs.range (isFinish_of_keyWord? hword)
    exact ⟨hs.tail, key_sourced hloc _, field_sourced hloc hloc _⟩

/-- The filter of some tokens is sourced in them, or it is the `.` that stands for no tokens. -/
theorem sourced_of_ofTokens {globals : List String} {f : Filter}
    (h : Filter.ofTokens globals tokens = .ok f) :
    (∃ loc, f = .identity loc) ∨ f.Sourced tokens := by
  rcases derives_of_ofTokens h with hidentity | ⟨r, hderives, _⟩
  · exact .inl hidentity
  · exact .inr (hderives.sourced (List.Subset.refl tokens)).2

end Parser

end JsonFilter.Filter
