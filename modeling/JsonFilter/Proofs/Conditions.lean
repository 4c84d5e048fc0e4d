import JsonFilter.Proofs.Algebra

/-!
Conditions. `and`, `or` and `not` are abbreviations for conditions: whatever their operands yield,
values, failures or neither, and wherever they are cut off, the condition runs its tests in the
same order and on the same input. A condition with several branches is a nest of conditions with
one branch each, the rest being what the first one does otherwise.
-/

namespace JsonFilter

@[simp] theorem Value.isTruthy_bool (b : Bool) : (Value.bool b).isTruthy = b := rfl

theorem Outputs.andThen_ok {ε α β : Type} (o : Outputs ε α) (f : α → β) :
    (o.andThen fun a => .ok (f a)) = o.bind fun a => .value (f a) := rfl

namespace Filter

/-- The constant `true` or `false`. -/
def truth (loc : Range) (b : Bool) : Filter := .literal loc (.bool b)

/-- `if f then true else false end` -/
def isTrue (loc : Range) (f : Filter) : Filter :=
  .cond loc [(f, truth loc true)] (some (truth loc false))

/-- `f | not` -/
def negation (loc : Range) (f : Filter) : Filter := .pipe loc f (.call loc .not [])

/-- Conditions with one branch each, every other one being what the one before does otherwise. -/
def nest (loc : Range) : List (Filter × Filter) → Option Filter → Filter
  | [], otherwise => otherwise.getD (.identity loc)
  | branch :: branches, otherwise => .cond loc [branch] (some (nest loc branches otherwise))

section
variable (horizon : Nat) (loc : Range) (f : Filter) (env : Env) (v : Value)

theorem eval_truth (b : Bool) : eval horizon (truth loc b) env v = .value (.bool b) := by
  simp only [truth, eval, Literal.toValue]

theorem eval_isTrue : eval horizon (isTrue loc f) env v =
    (eval horizon f env v).bind fun x => .value (.bool x.isTruthy) := by
  simp only [isTrue, eval, evalBranches, evalOr, eval_truth]
  refine congrArg _ (funext fun x => ?_)
  split
  · next hx => rw [hx]
  · next hx => rw [Bool.eq_false_iff.mpr hx]

theorem eval_negation : eval horizon (negation loc f) env v =
    (eval horizon f env v).bind fun x => .value (.bool !x.isTruthy) := by
  simp only [negation, eval, evalArgs, Outputs.value_bind, callOf]
  rfl

end

namespace Equivalent

variable (a b : Filter) (loc loc₁ loc₂ loc₃ loc₄ : Range)

theorem and_cond : Equivalent (.and loc a b)
    (.cond loc₁ [(a, isTrue loc₂ b)] (some (truth loc₃ false))) := by
  intro horizon env v
  simp only [eval, evalBranches, evalOr, eval_isTrue, eval_truth, Outputs.andThen_ok]

theorem or_cond : Equivalent (.or loc a b)
    (.cond loc₁ [(a, truth loc₂ true)] (some (isTrue loc₃ b))) := by
  intro horizon env v
  simp only [eval, evalBranches, evalOr, eval_isTrue, eval_truth, Outputs.andThen_ok]

/-- The right operand is run for the same values of the left one on both sides. -/
theorem negation_and : Equivalent (negation loc (.and loc₁ a b))
    (.or loc₂ (negation loc₃ a) (negation loc₄ b)) := by
  intro horizon env v
  simp only [eval_negation, eval, Outputs.andThen_ok, Outputs.bind_assoc, Outputs.value_bind]
  refine congrArg _ (funext fun x => ?_)
  -- Both sides come to `true` where `x` does not, and else to the negations of what `b` yields.
  cases x.isTruthy with
  | false => simp
  | true => simp [Outputs.bind_assoc]

/-! ## Branches -/

/-- What a condition does otherwise may be said by a condition with the branches left over. -/
theorem cond_cons (branch : Filter × Filter) (branches : List (Filter × Filter))
    (otherwise : Option Filter) : Equivalent (.cond loc (branch :: branches) otherwise)
      (.cond loc₁ [branch] (some (.cond loc₂ branches otherwise))) := by
  intro horizon env v
  simp only [eval, evalBranches, evalOr]

theorem cond_none (branches : List (Filter × Filter)) : Equivalent (.cond loc branches none)
    (.cond loc₁ branches (some (.identity loc₂))) := by
  intro horizon env v
  simp only [eval, evalOr]

theorem cond_otherwise {f g : Filter} (h : Equivalent f g) (branches : List (Filter × Filter)) :
    Equivalent (.cond loc branches (some f)) (.cond loc branches (some g)) := by
  intro horizon env v
  simp only [eval, evalOr, h horizon env v]

theorem cond_nest (branches : List (Filter × Filter)) (otherwise : Option Filter) :
    Equivalent (.cond loc branches otherwise) (nest loc₁ branches otherwise) := by
  induction branches generalizing loc with
  | nil =>
    intro horizon env v
    cases otherwise with
    | none => simp only [eval, evalBranches, evalOr, nest, Option.getD_none]
    | some f => simp only [eval, evalBranches, evalOr, nest, Option.getD_some]
  | cons branch branches ih =>
    exact (cond_cons loc loc₁ loc₁ branch branches otherwise).trans
      (cond_otherwise loc₁ (ih loc₁) [branch])

end Equivalent

/-- `and` and `or` are conditions that make a truth value of their right operand, the negation of
`a and b` is `or` of the negations, and a chain of branches is a nest of conditions, where a missing
`else` stands for `else .`: with the same items, in the same order and with the same ranges of
failures, for all operands. -/
theorem boolean_operators (a b : Filter) (loc loc₁ loc₂ loc₃ loc₄ : Range) :
    Equivalent (.and loc a b) (.cond loc₁ [(a, isTrue loc₂ b)] (some (truth loc₃ false))) ∧
      Equivalent (.or loc a b) (.cond loc₁ [(a, truth loc₂ true)] (some (isTrue loc₃ b))) ∧
      Equivalent (negation loc (.and loc₁ a b)) (.or loc₂ (negation loc₃ a) (negation loc₄ b)) ∧
      ∀ branches otherwise,
        Equivalent (.cond loc branches otherwise) (nest loc₁ branches otherwise) ∧
        Equivalent (.cond loc branches none) (.cond loc₁ branches (some (.identity loc₂))) ∧
        ∀ branch, Equivalent (.cond loc (branch :: branches) otherwise)
          (.cond loc₁ [branch] (some (.cond loc₂ branches otherwise))) :=
  ⟨.and_cond a b loc loc₁ loc₂ loc₃, .or_cond a b loc loc₁ loc₂ loc₃,
    .negation_and a b loc loc₁ loc₂ loc₃ loc₄, fun branches otherwise =>
      ⟨.cond_nest loc loc₁ branches otherwise, .cond_none loc loc₁ loc₂ branches,
        fun branch => .cond_cons loc loc₁ loc₂ branch branches otherwise⟩⟩

end Filter

end JsonFilter
