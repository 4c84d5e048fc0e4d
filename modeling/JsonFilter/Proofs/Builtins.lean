import JsonFilter.Proofs.Agreement
import JsonFilter.Proofs.Algebra
import JsonFilter.Proofs.Number.Exact
import JsonFilter.Proofs.Runs
import JsonFilter.Proofs.Walk

/-!
The builtins that take filters, in terms of the rest of the language. Each has a way of its own to
run its argument, and comes to the same as a filter without it: `map`, `select` and `first` as
filters, `limit` by what it makes of a sequence of outputs, and `recurse` by the values it visits.
-/

namespace JsonFilter.Filter

/-- `limit(n; f)` -/
def atMost (loc loc' : Range) (n : Nat) (f : Filter) : Filter :=
  .call loc .limit [.literal loc' (.number (.ofNat n)), f]

section
variable (f g : Filter) (loc loc₁ loc₂ loc₃ loc₄ : Range)

/-! ## Filters with the same outputs -/

/-- `map(f)` is `[.[] | f]`. What is not iterable is told by the call of the one and by the brackets
of the other. -/
theorem map_agree : Agree (.call loc .map [f])
    (.array loc₁ (some (.pipe loc₂ (.iterate loc₃ (.identity loc₄)) f))) := by
  intro horizon env v
  simp only [eval, Outputs.value_bind]
  cases v.items with
  | ok items => rfl
  | error fault => rfl

/-- `select(f)` is `if f then . else empty end`. -/
theorem select_equivalent : Equivalent (.call loc .select [f])
    (.cond loc₁ [(f, .identity loc₂)] (some (.call loc₃ .empty []))) := by
  intro horizon env v
  simp only [eval, evalBranches, evalOr]

theorem eval_atMost {n : Nat} (hpos : 0 < n) (hn : n ≤ 2 ^ 53) (horizon : Nat) (env : Env)
    (v : Value) :
    eval horizon (atMost loc loc₁ n f) env v = (eval horizon f env v).take n := by
  -- Up to this size, reading the number as a 64-bit integer gives back the integer it is.
  have hlimit : (Number.ofNat n).toInt = n := Number.toInt_ofNat hn
  simp only [atMost, eval, Outputs.value_bind, limitOf, Literal.toValue, hlimit, Int.toNat_natCast]
  exact if_pos (by omega)

/-- `first(f)` is `limit(1; f)`. -/
theorem first_equivalent : Equivalent (.call loc .first [f]) (atMost loc₁ loc₂ 1 f) := by
  intro horizon env v
  rw [eval_atMost f loc₁ loc₂ Nat.one_pos (by norm_num)]
  simp only [eval]

/-! ## Limits of a comma -/

section
variable {n : Nat} (hpos : 0 < n) (hn : n ≤ 2 ^ 53) (horizon : Nat) (env : Env) (v : Value)
include hpos hn

/-- If the left operand has as many outputs as are taken, the right one plays no part. -/
theorem atMost_comma_of_le (h : n ≤ (eval horizon f env v).items.length) :
    (eval horizon (atMost loc loc₁ n (.comma loc₂ f g)) env v).SameRun
      (eval horizon (atMost loc₃ loc₄ n f) env v) := by
  rw [eval_atMost _ _ _ hpos hn, eval_atMost _ _ _ hpos hn]
  simp only [eval]
  exact Outputs.take_append_of_le h _

/-- If it has fewer, the right one makes up for what is missing. -/
theorem atMost_comma_of_lt (h : (eval horizon f env v).items.length < n) :
    (eval horizon (atMost loc loc₁ n (.comma loc₂ f g)) env v).SameRun
      (eval horizon (.comma loc₂ f
        (atMost loc₃ loc₄ (n - (eval horizon f env v).items.length) g)) env v) := by
  have hmissing : 0 < n - (eval horizon f env v).items.length := Nat.sub_pos_of_lt h
  have hrest := eval_atMost g loc₃ loc₄ hmissing ((Nat.sub_le _ _).trans hn) horizon env v
  rw [eval_atMost _ _ _ hpos hn]
  simp only [eval, hrest]
  exact Outputs.take_append_of_lt h _

end

end

/-! ## Recursion -/

theorem ofList_flatMap {ε α β : Type} (as : List α) (f : α → List β) :
    (Outputs.ofList (as.flatMap f) : Outputs ε β) =
      (Outputs.ofList as).bind fun a => .ofList (f a) := by
  induction as with
  | nil => rfl
  | cons a as ih =>
    rw [List.flatMap_cons, Outputs.ofList_append, ih, Outputs.ofList, Outputs.yield_ok_bind]

/-- `..` yields its input, and then what it yields for each part of the input, in their order. -/
theorem eval_recurse (loc : Range) (horizon : Nat) (env : Env) (v : Value) :
    eval horizon (.recurse loc) env v = (Outputs.value v).append fun _ =>
      (Outputs.ofList v.parts).bind (eval horizon (.recurse loc) env) := by
  have hwalk : eval horizon (.recurse loc) env = fun w => .ofList w.walk :=
    funext fun w => by simp only [eval]
  rw [hwalk, ← ofList_flatMap]
  exact congrArg Outputs.ofList v.walk_eq

/-- The filter builtins mean what their definitions in the language say. `map`, `select` and `first`
come to filters without them, `limit` passes on to the right operand of a comma how many outputs the
left one leaves to be taken, and `..` and `recurse` are a walk of the input: the input, and then the
walks of its parts, so that each value inside it comes once, before its own parts. -/
theorem builtins_as_defined (f g : Filter) (loc loc₁ loc₂ loc₃ loc₄ : Range) :
    Agree (.call loc .map [f])
        (.array loc₁ (some (.pipe loc₂ (.iterate loc₃ (.identity loc₄)) f))) ∧
      Equivalent (.call loc .select [f])
        (.cond loc₁ [(f, .identity loc₂)] (some (.call loc₃ .empty []))) ∧
      Equivalent (.call loc .first [f]) (atMost loc₁ loc₂ 1 f) ∧
      (∀ n, 0 < n → n ≤ 2 ^ 53 → ∀ horizon env v,
        (n ≤ (eval horizon f env v).items.length →
          (eval horizon (atMost loc loc₁ n (.comma loc₂ f g)) env v).SameRun
            (eval horizon (atMost loc₃ loc₄ n f) env v)) ∧
        ((eval horizon f env v).items.length < n →
          (eval horizon (atMost loc loc₁ n (.comma loc₂ f g)) env v).SameRun
            (eval horizon (.comma loc₂ f
              (atMost loc₃ loc₄ (n - (eval horizon f env v).items.length) g)) env v))) ∧
      Equivalent (.call loc .recurse []) (.recurse loc₁) ∧
      ∀ horizon env v,
        eval horizon (.recurse loc) env v = (Outputs.value v).append (fun _ =>
          (Outputs.ofList v.parts).bind (eval horizon (.recurse loc) env)) ∧
        ∃ places values, eval horizon (.recurse loc) env v = .ofList values ∧
          Value.Enumerates v.at? places values := by
  refine ⟨map_agree f loc loc₁ loc₂ loc₃ loc₄, select_equivalent f loc loc₁ loc₂ loc₃,
    first_equivalent f loc loc₁ loc₂, ?limit, ?recurse, ?walk⟩
  case limit =>
    intro n hpos hn horizon env v
    exact ⟨atMost_comma_of_le f g loc loc₁ loc₂ loc₃ loc₄ hpos hn horizon env v,
      atMost_comma_of_lt f g loc loc₁ loc₂ loc₃ loc₄ hpos hn horizon env v⟩
  case recurse =>
    intro horizon env v
    simp only [eval]
  case walk =>
    intro horizon env v
    obtain ⟨places, hplaces⟩ := v.exists_enumerates_walk
    exact ⟨eval_recurse loc horizon env v, places, v.walk, by simp only [eval], hplaces⟩

/-- With two outputs on the left, and on the right one before a count that is cut off, the first
output is taken from the left alone, and the third one from the right, before the count begins. -/
theorem builtins_as_defined_limits :
    let f : Filter := .iterate default (.identity default)
    let g : Filter := .comma default (key default "more")
      (.call default .range [.literal default (.number 1)])
    let v : Value := .array [.bool true, .null]
    (eval 0 f [] v).items.length = 2 ∧ (eval 0 g [] v).stops = false ∧
      (eval 0 (atMost default default 1 (.comma default f g)) [] v).SameRun
        (.ofItems [.ok (.bool true)]) ∧
      (eval 0 (atMost default default 3 (.comma default f g)) [] v).SameRun
        (.ofItems [.ok (.bool true), .ok .null, .ok (.string "more")]) := by
  intro f g v
  obtain ⟨-, -, -, hlimit, -, -⟩ :=
    builtins_as_defined f g default default default default default
  have htwo : (eval 0 f [] v).items.length = 2 := rfl
  obtain ⟨hone, -⟩ := hlimit 1 (by decide) (by decide) 0 [] v
  obtain ⟨-, hthree⟩ := hlimit 3 (by decide) (by decide) 0 [] v
  have hleft : eval 0 (atMost default default 1 f) [] v = .ofItems [.ok (.bool true)] := by
    rw [eval_atMost f _ _ (by decide) (by decide)]
    rfl
  have hright : eval 0 (.comma default f (atMost default default 1 g)) [] v =
      .ofItems [.ok (.bool true), .ok .null, .ok (.string "more")] := by
    rw [eval, eval_atMost g _ _ (by decide) (by decide)]
    rfl
  rw [htwo] at hone hthree
  exact ⟨htwo, by decide +kernel, hleft ▸ hone (by decide), hright ▸ hthree (by decide)⟩

end JsonFilter.Filter
