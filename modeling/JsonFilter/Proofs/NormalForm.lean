import JsonFilter.Proofs.Simplify

/-!
What simplification leaves. A filter is reducible at a node where a step of simplification would
apply: a pipe with a side `.`, an operator on two literals that gives a scalar, the negative of a
number. One pass from the parts to the whole leaves no such node, since a step makes its node out of
parts that are normal already; and a filter without such nodes is its own simplification. So the
normal filters are exactly those that simplification does not change.
-/

namespace JsonFilter

/-- A value without parts of its own: no array and no object. -/
def Value.IsScalar (v : Value) : Prop := (∀ items, v ≠ .array items) ∧ ∀ fields, v ≠ .object fields

/-- The scalars are the values that literals stand for. -/
theorem Literal.ofValue?_isSome_iff {v : Value} :
    (Literal.ofValue? v).isSome = true ↔ v.IsScalar := by
  unfold Value.IsScalar
  cases v <;> simp [Literal.ofValue?]

namespace Filter

/-- The nodes that a step of simplification rewrites. -/
inductive Reducible : Filter → Prop where
  /-- `. | right` -/
  | left (loc loc' : Range) (right : Filter) : Reducible (.pipe loc (.identity loc') right)
  /-- `left | .` -/
  | right (loc loc' : Range) (left : Filter) : Reducible (.pipe loc left (.identity loc'))
  /-- Two literals whose operator gives a scalar. -/
  | constant {loc loc₁ loc₂ : Range} {op : BinaryOp} {a b : Literal} {v : Value}
      (happly : op.apply a.toValue b.toValue = .ok v) (hscalar : v.IsScalar) :
      Reducible (.binary loc op (.literal loc₁ a) (.literal loc₂ b))
  /-- The negative of a number. -/
  | sign (loc loc' : Range) (n : Number) : Reducible (.negate loc (.literal loc' (.number n)))

/-- No node of the filter is reducible. -/
def Normal (f : Filter) : Prop := ∀ g, OccursIn g f → ¬Reducible g

/-- A filter is normal if its parts are and the filter itself is not reducible. -/
theorem normal_iff {f : Filter} :
    Normal f ↔ ¬Reducible f ∧ (∀ p ∈ f.heads, Normal p) ∧ ∀ p ∈ f.inner, Normal p := by
  constructor
  · intro h
    refine ⟨h f (.refl f), ?_, ?_⟩
    · intro p hp g hg
      exact h g (hg.of_head hp)
    · intro p hp g hg
      exact h g (hg.of_inner hp)
  · intro ⟨hself, hheads, hinner⟩ g hg
    cases hg.eq_or_part with
    | inl heq => exact heq ▸ hself
    | inr hpart =>
      obtain ⟨p, hp, hgp⟩ := hpart
      cases List.mem_append.mp hp with
      | inl hhead => exact hheads p hhead g hgp
      | inr hinside => exact hinner p hinside g hgp

/-- A filter with one part is normal if that part is and the filter itself is not reducible. -/
theorem normal_iff_one {f a : Filter} (hparts : f.heads ++ f.inner = [a]) :
    Normal f ↔ ¬Reducible f ∧ Normal a := by
  rw [normal_iff, ← List.forall_mem_append, hparts, List.forall_mem_singleton]

/-- The same for a filter with two parts. -/
theorem normal_iff_two {f a b : Filter} (hparts : f.heads ++ f.inner = [a, b]) :
    Normal f ↔ ¬Reducible f ∧ Normal a ∧ Normal b := by
  rw [normal_iff, ← List.forall_mem_append, hparts, List.forall_mem_cons, List.forall_mem_singleton]

/-! ## One step -/

section
variable {loc : Range} {op : BinaryOp} {left right operand : Filter}

/-- An operator on two literals is folded exactly where it is reducible. -/
theorem foldLiterals?_eq_none_iff {loc₁ loc₂ : Range} {a b : Literal} :
    foldLiterals? op a b = none ↔
      ¬Reducible (.binary loc op (.literal loc₁ a) (.literal loc₂ b)) := by
  constructor
  · intro hnone hreducible
    cases hreducible with
    | constant happly hscalar =>
      rw [← Literal.ofValue?_isSome_iff] at hscalar
      simp only [foldLiterals?, happly] at hnone
      rw [hnone] at hscalar
      cases hscalar
  · intro hirreducible
    unfold foldLiterals?
    split
    · next v happly =>
      rw [← Option.not_isSome_iff_eq_none, Literal.ofValue?_isSome_iff]
      intro hscalar
      exact hirreducible (.constant happly hscalar)
    · rfl

theorem normal_literal (loc : Range) (l : Literal) : Normal (.literal loc l) :=
  normal_iff.mpr ⟨nofun, nofun, nofun⟩

theorem Normal.joinPipe (hleft : Normal left) (hright : Normal right) :
    Normal (joinPipe loc left right) := by
  unfold Filter.joinPipe
  split
  · exact hright
  · exact hleft
  · next hnotLeft hnotRight =>
    refine (normal_iff_two rfl).mpr ⟨?_, hleft, hright⟩
    intro hreducible
    cases hreducible with
    | left => exact hnotLeft _ rfl
    | right => exact hnotRight _ rfl

theorem Normal.joinBinary (hleft : Normal left) (hright : Normal right) :
    Normal (joinBinary loc op left right) := by
  unfold Filter.joinBinary
  split
  · split
    · exact normal_literal _ _
    · next hnone =>
      exact (normal_iff_two rfl).mpr ⟨foldLiterals?_eq_none_iff.mp hnone, hleft, hright⟩
  · next hnotLiterals =>
    refine (normal_iff_two rfl).mpr ⟨?_, hleft, hright⟩
    intro hreducible
    cases hreducible with
    | constant => exact hnotLiterals _ _ _ _ rfl rfl

theorem Normal.joinNegate (hoperand : Normal operand) : Normal (joinNegate loc operand) := by
  unfold Filter.joinNegate
  split
  · exact normal_literal _ _
  · next hnotNumber =>
    refine (normal_iff_one rfl).mpr ⟨?_, hoperand⟩
    intro hreducible
    cases hreducible with
    | sign => exact hnotNumber _ _ rfl

/-! A node that is not reducible stays as it is. -/

theorem joinPipe_of_not_reducible (h : ¬Reducible (.pipe loc left right)) :
    joinPipe loc left right = .pipe loc left right := by
  unfold joinPipe
  split
  · exact absurd (.left _ _ _) h
  · exact absurd (.right _ _ _) h
  · rfl

theorem joinBinary_of_not_reducible (h : ¬Reducible (.binary loc op left right)) :
    joinBinary loc op left right = .binary loc op left right := by
  unfold joinBinary
  split
  · rw [foldLiterals?_eq_none_iff.mpr h]
  · rfl

theorem joinNegate_of_not_reducible (h : ¬Reducible (.negate loc operand)) :
    joinNegate loc operand = .negate loc operand := by
  unfold joinNegate
  split
  · exact absurd (.sign _ _ _) h
  · rfl

end

/-! ## The whole filter -/

mutual

/-- Nothing that simplification leaves is reducible. -/
theorem normal_simplify : ∀ f : Filter, Normal f.simplify
  | .identity _ => normal_iff.mpr ⟨nofun, nofun, nofun⟩
  | .recurse _ => normal_iff.mpr ⟨nofun, nofun, nofun⟩
  | .literal loc l => normal_literal loc l
  | .var _ _ => normal_iff.mpr ⟨nofun, nofun, nofun⟩
  | .index _ target key =>
    (normal_iff_two rfl).mpr ⟨nofun, normal_simplify target, normal_simplify key⟩
  | .slice _ target low high =>
    normal_iff.mpr ⟨nofun, List.forall_mem_singleton.mpr (normal_simplify target),
      List.forall_mem_append.mpr ⟨normal_simplifyOption low, normal_simplifyOption high⟩⟩
  | .iterate _ target => (normal_iff_one rfl).mpr ⟨nofun, normal_simplify target⟩
  | .pipe _ left right => (normal_simplify left).joinPipe (normal_simplify right)
  | .comma _ left right =>
    (normal_iff_two rfl).mpr ⟨nofun, normal_simplify left, normal_simplify right⟩
  | .alternative _ left right =>
    (normal_iff_two rfl).mpr ⟨nofun, normal_simplify left, normal_simplify right⟩
  | .and _ left right =>
    (normal_iff_two rfl).mpr ⟨nofun, normal_simplify left, normal_simplify right⟩
  | .or _ left right =>
    (normal_iff_two rfl).mpr ⟨nofun, normal_simplify left, normal_simplify right⟩
  | .binary _ _ left right => (normal_simplify left).joinBinary (normal_simplify right)
  | .negate _ operand => (normal_simplify operand).joinNegate
  | .array _ body => normal_iff.mpr ⟨nofun, nofun, normal_simplifyOption body⟩
  | .object _ entries =>
    have ⟨hkeys, hvalues⟩ := normal_simplifyPairs entries
    normal_iff.mpr ⟨nofun, hvalues, hkeys⟩
  | .cond _ branches otherwise =>
    normal_iff.mpr ⟨nofun, nofun, List.forall_mem_append.mpr
      ⟨List.forall_mem_append.mpr (normal_simplifyPairs branches),
        normal_simplifyOption otherwise⟩⟩
  | .attempt _ body none => (normal_iff_one rfl).mpr ⟨nofun, normal_simplify body⟩
  | .attempt _ body (some handler) =>
    (normal_iff_two rfl).mpr ⟨nofun, normal_simplify body, normal_simplify handler⟩
  | .bind _ source _ body =>
    (normal_iff_two rfl).mpr ⟨nofun, normal_simplify source, normal_simplify body⟩
  | .call _ _ args => normal_iff.mpr ⟨nofun, nofun, normal_simplifyList args⟩

theorem normal_simplifyOption : ∀ f : Option Filter, ∀ p ∈ (simplifyOption f).toList, Normal p
  | none => List.forall_mem_nil _
  | some f => List.forall_mem_singleton.mpr (normal_simplify f)

theorem normal_simplifyList : ∀ fs : List Filter, ∀ p ∈ simplifyList fs, Normal p
  | [] => List.forall_mem_nil _
  | f :: fs => List.forall_mem_cons.mpr ⟨normal_simplify f, normal_simplifyList fs⟩

theorem normal_simplifyPairs : ∀ ps : List (Filter × Filter),
    (∀ p ∈ (simplifyPairs ps).map Prod.fst, Normal p) ∧
      ∀ p ∈ (simplifyPairs ps).map Prod.snd, Normal p
  | [] => ⟨List.forall_mem_nil _, List.forall_mem_nil _⟩
  | (f, g) :: ps =>
    have ⟨hfirst, hsecond⟩ := normal_simplifyPairs ps
    ⟨List.forall_mem_cons.mpr ⟨normal_simplify f, hfirst⟩,
      List.forall_mem_cons.mpr ⟨normal_simplify g, hsecond⟩⟩

end

mutual

/-- A normal filter is its own simplification. -/
theorem simplify_of_normal : ∀ f : Filter, Normal f → f.simplify = f
  | .identity _, _ => rfl
  | .recurse _, _ => rfl
  | .literal _ _, _ => rfl
  | .var _ _, _ => rfl
  | .index _ target key, h => by
    obtain ⟨-, htarget, hkey⟩ := (normal_iff_two rfl).mp h
    rw [simplify, simplify_of_normal target htarget, simplify_of_normal key hkey]
  | .slice _ target low high, h => by
    obtain ⟨-, htarget, hbounds⟩ := normal_iff.mp h
    obtain ⟨hlow, hhigh⟩ := List.forall_mem_append.mp hbounds
    rw [simplify, simplify_of_normal target (List.forall_mem_singleton.mp htarget),
      simplifyOption_of_normal low hlow, simplifyOption_of_normal high hhigh]
  | .iterate _ target, h => by
    obtain ⟨-, htarget⟩ := (normal_iff_one rfl).mp h
    rw [simplify, simplify_of_normal target htarget]
  | .pipe _ left right, h => by
    obtain ⟨hself, hleft, hright⟩ := (normal_iff_two rfl).mp h
    rw [simplify, simplify_of_normal left hleft, simplify_of_normal right hright,
      joinPipe_of_not_reducible hself]
  | .comma _ left right, h => by
    obtain ⟨-, hleft, hright⟩ := (normal_iff_two rfl).mp h
    rw [simplify, simplify_of_normal left hleft, simplify_of_normal right hright]
  | .alternative _ left right, h => by
    obtain ⟨-, hleft, hright⟩ := (normal_iff_two rfl).mp h
    rw [simplify, simplify_of_normal left hleft, simplify_of_normal right hright]
  | .and _ left right, h => by
    obtain ⟨-, hleft, hright⟩ := (normal_iff_two rfl).mp h
    rw [simplify, simplify_of_normal left hleft, simplify_of_normal right hright]
  | .or _ left right, h => by
    obtain ⟨-, hleft, hright⟩ := (normal_iff_two rfl).mp h
    rw [simplify, simplify_of_normal left hleft, simplify_of_normal right hright]
  | .binary _ _ left right, h => by
    obtain ⟨hself, hleft, hright⟩ := (normal_iff_two rfl).mp h
    rw [simplify, simplify_of_normal left hleft, simplify_of_normal right hright,
      joinBinary_of_not_reducible hself]
  | .negate _ operand, h => by
    obtain ⟨hself, hoperand⟩ := (normal_iff_one rfl).mp h
    rw [simplify, simplify_of_normal operand hoperand, joinNegate_of_not_reducible hself]
  | .array _ body, h => by
    obtain ⟨-, -, hbody⟩ := normal_iff.mp h
    rw [simplify, simplifyOption_of_normal body hbody]
  | .object _ entries, h => by
    obtain ⟨-, hvalues, hkeys⟩ := normal_iff.mp h
    rw [simplify, simplifyPairs_of_normal entries hkeys hvalues]
  | .cond _ branches otherwise, h => by
    obtain ⟨-, -, hparts⟩ := normal_iff.mp h
    obtain ⟨hbranches, hotherwise⟩ := List.forall_mem_append.mp hparts
    obtain ⟨htests, hbodies⟩ := List.forall_mem_append.mp hbranches
    rw [simplify, simplifyPairs_of_normal branches htests hbodies,
      simplifyOption_of_normal otherwise hotherwise]
  | .attempt _ body none, h => by
    obtain ⟨-, hbody⟩ := (normal_iff_one rfl).mp h
    rw [simplify, simplify_of_normal body hbody, simplifyOption]
  | .attempt _ body (some handler), h => by
    obtain ⟨-, hbody, hhandler⟩ := (normal_iff_two rfl).mp h
    rw [simplify, simplify_of_normal body hbody, simplifyOption,
      simplify_of_normal handler hhandler]
  | .bind _ source _ body, h => by
    obtain ⟨-, hsource, hbody⟩ := (normal_iff_two rfl).mp h
    rw [simplify, simplify_of_normal source hsource, simplify_of_normal body hbody]
  | .call _ _ args, h => by
    obtain ⟨-, -, hargs⟩ := normal_iff.mp h
    rw [simplify, simplifyList_of_normal args hargs]

theorem simplifyOption_of_normal : ∀ f : Option Filter, (∀ p ∈ f.toList, Normal p) →
    simplifyOption f = f
  | none, _ => rfl
  | some f, h => by rw [simplifyOption, simplify_of_normal f (List.forall_mem_singleton.mp h)]

theorem simplifyList_of_normal : ∀ fs : List Filter, (∀ p ∈ fs, Normal p) → simplifyList fs = fs
  | [], _ => rfl
  | f :: fs, h => by
    obtain ⟨hhead, htail⟩ := List.forall_mem_cons.mp h
    rw [simplifyList, simplify_of_normal f hhead, simplifyList_of_normal fs htail]

theorem simplifyPairs_of_normal : ∀ ps : List (Filter × Filter),
    (∀ p ∈ ps.map Prod.fst, Normal p) → (∀ p ∈ ps.map Prod.snd, Normal p) → simplifyPairs ps = ps
  | [], _, _ => rfl
  | (f, g) :: ps, hfirst, hsecond => by
    obtain ⟨hf, hfirst⟩ := List.forall_mem_cons.mp hfirst
    obtain ⟨hg, hsecond⟩ := List.forall_mem_cons.mp hsecond
    rw [simplifyPairs, simplify_of_normal f hf, simplify_of_normal g hg,
      simplifyPairs_of_normal ps hfirst hsecond]

end

/-- One pass of simplification is enough: what it leaves has no reducible node, so a second pass
changes nothing, and the filters that it does not change are the normal ones. -/
theorem simplify_reaches_normal (f : Filter) :
    Normal f.simplify ∧ f.simplify.simplify = f.simplify ∧ (Normal f ↔ f.simplify = f) := by
  refine ⟨normal_simplify f, simplify_of_normal f.simplify (normal_simplify f), ?_⟩
  constructor
  · exact simplify_of_normal f
  · intro h
    rw [← h]
    exact normal_simplify f

/-- Steps that feed each other: a lost stage brings two constants together, and the sum of them
another two. -/
example : simplify (.binary default .eq
    (.binary default .add (.pipe default (.identity default) (key default "a")) (key default "b"))
    (key default "ab")) = .literal default (.bool true) := rfl

end Filter

end JsonFilter
