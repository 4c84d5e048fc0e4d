import JsonFilter.Filter.Simplify
import JsonFilter.Proofs.Agreement
import JsonFilter.Proofs.Tree

/-!
Simplification keeps the meaning of a filter. A fold makes the literal that the operator makes at
run time, an operator that fails or gives no literal stays, and a stage `.` passes every item on; so
the simplified filter corresponds to the filter it was made from, in any relation of failures that
lets every part tell a fault by its own range, and a key that is no string by the range that the
simplified key has. The proof follows the filter.
-/

namespace JsonFilter.Filter

/-! ## One step of simplification -/

/-- The literal of a value stands for that value. -/
theorem toValue_of_ofValue? {v : Value} {l : Literal} (h : Literal.ofValue? v = some l) :
    l.toValue = v := by
  cases v <;> simp only [Literal.ofValue?, Option.some.injEq, reduceCtorEq] at h <;> subst h <;> rfl

/-- Folding makes a literal only of operators that succeed, and of their result. -/
theorem apply_of_foldLiterals? {op : BinaryOp} {a b c : Literal}
    (h : foldLiterals? op a b = some c) : op.apply a.toValue b.toValue = .ok c.toValue := by
  unfold foldLiterals? at h
  split at h
  · next v hv => rw [hv, toValue_of_ofValue? h]
  · cases h

section
variable (loc : Range) (left right operand : Filter) (horizon : Nat) (env : Env) (v : Value)

theorem eval_joinPipe :
    eval horizon (joinPipe loc left right) env v = eval horizon (.pipe loc left right) env v := by
  unfold joinPipe
  split
  · simp only [eval, Outputs.value_bind]
  · simp only [eval, Outputs.bind_value]
  · rfl

theorem eval_joinBinary (op : BinaryOp) :
    eval horizon (joinBinary loc op left right) env v =
      eval horizon (.binary loc op left right) env v := by
  unfold joinBinary
  split
  · split
    · next c hc =>
      have happly := apply_of_foldLiterals? hc
      simp only [eval, Outputs.value_bind, Outputs.value_andThen, happly]
      rfl
    · rfl
  · rfl

theorem eval_joinNegate :
    eval horizon (joinNegate loc operand) env v = eval horizon (.negate loc operand) env v := by
  unfold joinNegate
  split
  · simp only [eval, Literal.toValue, Outputs.value_andThen]
    rfl
  · rfl

end

/-! ## Ranges -/

theorem loc_joinBinary (loc : Range) (op : BinaryOp) (left right : Filter) :
    (joinBinary loc op left right).loc = loc := by
  unfold joinBinary
  split
  · split <;> rfl
  · rfl

theorem loc_joinNegate (loc : Range) (operand : Filter) : (joinNegate loc operand).loc = loc := by
  unfold joinNegate
  split <;> rfl

/-- Only a pipe may have another range when it is simplified. -/
theorem loc_simplify_of_ne_pipe {f : Filter} (h : ∀ loc left right, f ≠ .pipe loc left right) :
    f.simplify.loc = f.loc := by
  cases f with
  | pipe loc left right => exact absurd rfl (h loc left right)
  | binary loc op left right =>
    rw [simplify]
    exact loc_joinBinary loc op left.simplify right.simplify
  | negate loc operand =>
    rw [simplify]
    exact loc_joinNegate loc operand.simplify
  | _ => rfl

/-- What a filter is simplified to has the range of something in the filter. -/
theorem loc_simplify_occurs (f : Filter) : ∃ g, OccursIn g f ∧ f.simplify.loc = g.loc := by
  cases f with
  | pipe loc left right =>
    obtain ⟨g, hg, hleft⟩ := loc_simplify_occurs left
    obtain ⟨k, hk, hright⟩ := loc_simplify_occurs right
    rw [simplify]
    unfold joinPipe
    split
    · exact ⟨k, hk.of_inner List.mem_cons_self, hright⟩
    · exact ⟨g, hg.of_head List.mem_cons_self, hleft⟩
    · exact ⟨_, .refl _, rfl⟩
  | _ => exact ⟨_, .refl _, loc_simplify_of_ne_pipe nofun⟩

/-! ## All steps -/

/-- A filter is a key of an object somewhere in another one. -/
def HasKey (f key : Filter) : Prop :=
  ∃ loc entries value, OccursIn (.object loc entries) f ∧ (key, value) ∈ entries

/-- A relation of failures that simplification of a filter keeps to. -/
structure Admits (R : Failure → Failure → Prop) (f : Filter) : Prop where
  caught : ∀ e e', R e e' → e.fault = e'.fault
  told : ∀ g, OccursIn g f → Told R g.loc g.loc
  key : ∀ k, HasKey f k → ∀ v, R ⟨k.loc, .keyNotString v⟩ ⟨k.simplify.loc, .keyNotString v⟩

variable {R : Failure → Failure → Prop}

theorem Admits.head {f p : Filter} (h : Admits R f) (hp : p ∈ f.heads) : Admits R p where
  caught := h.caught
  told := fun g hg => h.told g (hg.of_head hp)
  key := fun k ⟨loc, entries, value, hobject, hk⟩ =>
    h.key k ⟨loc, entries, value, hobject.of_head hp, hk⟩

theorem Admits.inner {f p : Filter} (h : Admits R f) (hp : p ∈ f.inner) : Admits R p where
  caught := h.caught
  told := fun g hg => h.told g (hg.of_inner hp)
  key := fun k ⟨loc, entries, value, hobject, hk⟩ =>
    h.key k ⟨loc, entries, value, hobject.of_inner hp, hk⟩

theorem Admits.self {f : Filter} (h : Admits R f) : Told R f.loc f.loc := h.told f (.refl f)

mutual

/-- A filter corresponds to what it is simplified to. -/
theorem simplify_corresponds : ∀ f : Filter, Admits R f → Corresponds R f f.simplify
  | .identity _, _ => fun _ _ v => .ofValue v
  | .recurse _, _ => fun _ _ v => .ofList v.walk
  | .literal _ l, _ => fun _ _ _ => .ofValue l.toValue
  | .var _ _, _ => fun _ _ _ => .ofValue _
  | .index _ target key, h =>
    .index h.self (simplify_corresponds target (h.head List.mem_cons_self))
      (simplify_corresponds key (h.inner List.mem_cons_self))
  | .slice _ target low high, h =>
    .slice h.self (simplify_corresponds target (h.head List.mem_cons_self))
      (simplifyOption_corresponds low fun p hp =>
        h.inner (List.mem_append_left _ (Option.mem_toList.mpr hp)))
      (simplifyOption_corresponds high fun p hp =>
        h.inner (List.mem_append_right _ (Option.mem_toList.mpr hp)))
  | .iterate _ target, h =>
    .iterate h.self (simplify_corresponds target (h.head List.mem_cons_self))
  | .pipe loc left right, h => fun horizon env v => by
    rw [simplify, eval_joinPipe]
    exact Corresponds.pipe (simplify_corresponds left (h.head List.mem_cons_self))
      (simplify_corresponds right (h.inner List.mem_cons_self)) horizon env v
  | .comma _ left right, h =>
    .comma (simplify_corresponds left (h.head List.mem_cons_self))
      (simplify_corresponds right (h.inner List.mem_cons_self))
  | .alternative _ left right, h =>
    .alternative (simplify_corresponds left (h.head List.mem_cons_self))
      (simplify_corresponds right (h.inner List.mem_cons_self))
  | .and _ left right, h =>
    .and (simplify_corresponds left (h.head List.mem_cons_self))
      (simplify_corresponds right (h.inner List.mem_cons_self))
  | .or _ left right, h =>
    .or (simplify_corresponds left (h.head List.mem_cons_self))
      (simplify_corresponds right (h.inner List.mem_cons_self))
  | .binary loc op left right, h => fun horizon env v => by
    rw [simplify, eval_joinBinary]
    exact Corresponds.binary op h.self
      (simplify_corresponds left (h.head List.mem_cons_self))
      (simplify_corresponds right (h.inner List.mem_cons_self)) horizon env v
  | .negate loc operand, h => fun horizon env v => by
    rw [simplify, eval_joinNegate]
    exact Corresponds.negate h.self
      (simplify_corresponds operand (h.inner List.mem_cons_self)) horizon env v
  | .array _ none, _ => fun _ _ _ => .ofValue _
  | .array _ (some body), h =>
    .array (simplify_corresponds body (h.inner List.mem_cons_self))
  | .object _ entries, h =>
    .object (simplifyEntries_corresponds entries
      (fun p hp => ⟨h.inner (List.mem_map_of_mem hp), h.head (List.mem_map_of_mem hp)⟩)
      fun p hp => h.key p.1 ⟨_, _, p.2, .refl _, hp⟩)
  | .cond _ branches otherwise, h =>
    .cond
      (simplifyPairs_corresponds branches fun p hp =>
        ⟨h.inner (List.mem_append_left _ (List.mem_append_left _ (List.mem_map_of_mem hp))),
          h.inner (List.mem_append_left _ (List.mem_append_right _ (List.mem_map_of_mem hp)))⟩)
      (simplifyOption_corresponds otherwise fun p hp =>
        h.inner (List.mem_append_right _ (Option.mem_toList.mpr hp)))
  | .attempt _ body none, h =>
    .attempt (simplify_corresponds body (h.head List.mem_cons_self))
  | .attempt _ body (some handler), h =>
    .attemptCatch h.caught (simplify_corresponds body (h.inner List.mem_cons_self))
      (simplify_corresponds handler (h.inner (List.mem_cons_of_mem _ List.mem_cons_self)))
  | .bind _ source name body, h =>
    .bind name (simplify_corresponds source (h.head List.mem_cons_self))
      (simplify_corresponds body (h.inner List.mem_cons_self))
  | .call _ builtin args, h =>
    .call builtin h.self (simplifyList_corresponds args fun p hp => h.inner hp)

theorem simplifyOption_corresponds :
    ∀ f : Option Filter, (∀ p ∈ f, Admits R p) → CorrespondsOption R f (simplifyOption f)
  | none, _ => fun _ other _ _ => .ofValue other
  | some f, h => fun horizon _ env v => simplify_corresponds f (h f rfl) horizon env v

theorem simplifyList_corresponds :
    ∀ fs : List Filter, (∀ p ∈ fs, Admits R p) →
      List.Forall₂ (Corresponds R) fs (simplifyList fs)
  | [], _ => .nil
  | f :: fs, h =>
    .cons (simplify_corresponds f (h f List.mem_cons_self))
      (simplifyList_corresponds fs fun p hp => h p (List.mem_cons_of_mem f hp))

theorem simplifyPairs_corresponds :
    ∀ ps : List (Filter × Filter), (∀ p ∈ ps, Admits R p.1 ∧ Admits R p.2) →
      List.Forall₂ (fun p q => Corresponds R p.1 q.1 ∧ Corresponds R p.2 q.2) ps (simplifyPairs ps)
  | [], _ => .nil
  | (f, g) :: ps, h =>
    .cons ⟨simplify_corresponds f (h _ List.mem_cons_self).1,
        simplify_corresponds g (h _ List.mem_cons_self).2⟩
      (simplifyPairs_corresponds ps fun p hp => h p (List.mem_cons_of_mem _ hp))

theorem simplifyEntries_corresponds :
    ∀ es : List (Filter × Filter), (∀ e ∈ es, Admits R e.1 ∧ Admits R e.2) →
      (∀ e ∈ es, ∀ v, R ⟨e.1.loc, .keyNotString v⟩ ⟨e.1.simplify.loc, .keyNotString v⟩) →
      List.Forall₂ (fun e e' => Corresponds R e.1 e'.1 ∧ Corresponds R e.2 e'.2 ∧
        ∀ v, R ⟨e.1.loc, .keyNotString v⟩ ⟨e'.1.loc, .keyNotString v⟩) es (simplifyPairs es)
  | [], _, _ => .nil
  | (f, g) :: es, h, hkeys =>
    .cons ⟨simplify_corresponds f (h _ List.mem_cons_self).1,
        simplify_corresponds g (h _ List.mem_cons_self).2, hkeys _ List.mem_cons_self⟩
      (simplifyEntries_corresponds es (fun e he => h e (List.mem_cons_of_mem _ he))
        fun e he => hkeys e (List.mem_cons_of_mem _ he))

end

/-- A filter agrees with what it is simplified to. -/
theorem simplify_agree (f : Filter) : Agree f.simplify f := by
  intro horizon env v
  have hadmits : Admits (fun e e' => e.fault = e'.fault) f :=
    ⟨fun _ _ h => h, fun _ _ _ => rfl, fun _ _ _ => rfl⟩
  exact (simplify_corresponds f hadmits horizon env v).agree.symm

/-- Simplification changes no item of any run. Forgetting where failures are told, the outputs are
the same sequence, item by item and past every failure; a fault fixes the kind of a failure, its
message and what a handler catches. -/
theorem eval_simplify (f : Filter) (horizon : Nat) (env : Env) (v : Value) :
    (eval horizon f.simplify env v).mapError Failure.fault =
      (eval horizon f env v).mapError Failure.fault :=
  simplify_agree f horizon env v

end JsonFilter.Filter
