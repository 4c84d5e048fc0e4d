import JsonFilter.Proofs.Algebra
import JsonFilter.Proofs.Runs

/-!
The alternative operator. Its left operand is looked through for values that count as true. From the
first of them on, the right operand plays no part, whatever it would do; where there is none, the
right operand is all that is left. So a chain of alternatives may be grouped in either way.
-/

namespace JsonFilter

/-- Whether an item is a value that passes a test. -/
def passes {ε α : Type} (p : α → Bool) : Except ε α → Bool
  | .ok a => p a
  | .error _ => false

namespace Outputs

variable {ε α : Type} (p : α → Bool)

/-! ## Values that pass a test -/

theorem items_keep (o : Outputs ε α) : (o.keep p).items = o.items.filter (passes p) := by
  induction o with
  | done => rfl
  | unfinished => rfl
  | yield item rest ih =>
    cases item with
    | error e => exact ih ()
    | ok a =>
      rw [keep, items, List.filter_cons]
      show _ = if p a then _ else _
      split
      · exact congrArg (.ok a :: ·) (ih ())
      · exact ih ()
  | request source resume ih => exact ih _

theorem stops_keep_eq (o : Outputs ε α) : (o.keep p).stops = o.stops := by
  induction o with
  | done => rfl
  | unfinished => rfl
  | yield item rest ih =>
    cases item with
    | error e => exact ih ()
    | ok a =>
      rw [keep]
      split
      · exact ih ()
      · exact ih ()
  | request source resume ih => exact ih _

theorem keep_keep (o : Outputs ε α) : (o.keep p).keep p = o.keep p := by
  induction o with
  | done => rfl
  | unfinished => rfl
  | yield item rest ih =>
    cases item with
    | error e => exact ih ()
    | ok a =>
      cases hp : p a with
      | false => simp only [keep, hp, Bool.false_eq_true, if_false, ih]
      | true => simp only [keep, hp, if_true, ih]
  | request source resume ih => simp only [keep, ih]

/-! ## Another sequence where there are none -/

/-- The second of three sequences may be joined with the first or with the third. -/
theorem keepOr_assoc (o : Outputs ε α) (other more : Unit → Outputs ε α) :
    (o.keepOr p other).keepOr p more = o.keepOr p fun _ => (other ()).keepOr p more := by
  induction o with
  | done => rfl
  | unfinished => rfl
  | yield item rest ih =>
    cases item with
    | error e => exact ih ()
    | ok a =>
      cases hp : p a with
      | false => simp only [keepOr, hp, Bool.false_eq_true, if_false, ih]
      | true => simp only [keepOr, hp, if_true, keep_keep]
  | request source resume ih => simp only [keepOr, ih]

/-- If a value passes, a pull finds what it would find if there were no other sequence. What it
leaves of the sequence is the same too, so the other one is not pulled later on either. -/
theorem pull_keepOr {o : Outputs ε α} {store : Pattern.Store} (hstore : store.Sound)
    (h : o.items.any (passes p)) (other : Unit → Outputs ε α) :
    (o.keepOr p other).pull store = (o.keep p).pull store := by
  induction o generalizing store with
  | done => cases h
  | unfinished => cases h
  | yield item rest ih =>
    cases item with
    | error e => exact ih () hstore h
    | ok a =>
      cases hp : p a with
      | true => simp only [keepOr, keep, hp, if_true]
      | false =>
        have hrest : (rest ()).items.any (passes p) := by
          simpa only [items, List.any_cons, passes, hp, Bool.false_or] using h
        simp only [keepOr, keep, hp, Bool.false_eq_true, if_false]
        exact ih () hstore hrest
  | request source resume ih =>
    obtain ⟨hcompile, hsound⟩ := hstore.get source
    simp only [keepOr, keep, pull, hcompile]
    exact ih _ hsound h

/-- If a value passes, the run is that of the values that pass. -/
theorem keepOr_of_any {o : Outputs ε α} (h : o.items.any (passes p)) (other : Unit → Outputs ε α) :
    (o.keepOr p other).SameRun (o.keep p) := by
  have hpull := congrArg Prod.fst (pull_keepOr p Pattern.Store.sound_empty h other)
  exact .of_head (by simpa only [(pull_eq_head Pattern.Store.sound_empty _).1] using hpull)

/-- If no value passes, the run is that of the other sequence, once the first one has come to its
end. -/
theorem keepOr_of_none {o : Outputs ε α} (h : o.items.any (passes p) = false)
    (other : Unit → Outputs ε α) :
    (o.keepOr p other).SameRun (if o.stops then other () else .unfinished) := by
  induction o with
  | done => exact ⟨rfl, rfl⟩
  | unfinished => exact ⟨rfl, rfl⟩
  | yield item rest ih =>
    cases item with
    | error e => exact ih () h
    | ok a =>
      rw [items, List.any_cons, Bool.or_eq_false_iff] at h
      obtain ⟨hp, hrest⟩ := h
      have hp : p a = false := hp
      simp only [keepOr, hp, Bool.false_eq_true, if_false]
      exact ih () hrest
  | request source resume ih => exact ⟨(ih _ h).items, (ih _ h).stops⟩

end Outputs

namespace Filter

variable (a b c : Filter) (loc loc₁ loc₂ loc₃ loc₄ : Range)

theorem alternative_assoc_equivalent :
    Equivalent (.alternative loc₁ (.alternative loc₂ a b) c)
      (.alternative loc₃ a (.alternative loc₄ b c)) := by
  intro horizon env v
  simp only [eval, Outputs.keepOr_assoc]

/-- Alternatives may be grouped in either way. Of `a // b`, if `a` yields a value that counts as
true, every pull finds what it would find of the values of `a` that count as true, in their order,
and leaves the same behind, so that nothing of `b` is ever pulled. If `a` yields none, the run is
that of `b`, with all its values and failures, as soon as `a` has come to its end. -/
theorem alternative_chooses :
    Equivalent (.alternative loc₁ (.alternative loc₂ a b) c)
        (.alternative loc₃ a (.alternative loc₄ b c)) ∧
      ∀ horizon env v,
        let left := eval horizon a env v
        let whole := eval horizon (.alternative loc a b) env v
        ((∃ x, .ok x ∈ left.items ∧ x.isTruthy) →
          (∀ store : Pattern.Store, store.Sound →
            whole.pull store = (left.keep Value.isTruthy).pull store) ∧
          whole.items = left.items.filter (passes Value.isTruthy) ∧ whole.stops = left.stops) ∧
        ((∀ x, .ok x ∈ left.items → x.isTruthy = false) →
          whole.SameRun (if left.stops then eval horizon b env v else .unfinished)) := by
  refine ⟨alternative_assoc_equivalent a b c loc₁ loc₂ loc₃ loc₄, fun horizon env v => ?_⟩
  intro left whole
  have hwhole : whole = left.keepOr Value.isTruthy fun _ => eval horizon b env v := by
    simp only [whole, eval, left]
  rw [hwhole]
  refine ⟨fun ⟨x, hx, htrue⟩ => ?found, fun hnone => ?none⟩
  case found =>
    have hany : left.items.any (passes Value.isTruthy) := List.any_eq_true.mpr ⟨_, hx, htrue⟩
    have hrun := Outputs.keepOr_of_any Value.isTruthy hany fun _ => eval horizon b env v
    exact ⟨fun store hstore => Outputs.pull_keepOr Value.isTruthy hstore hany _,
      hrun.items.trans (Outputs.items_keep _ left), hrun.stops.trans (Outputs.stops_keep_eq _ left)⟩
  case none =>
    refine Outputs.keepOr_of_none Value.isTruthy (List.any_eq_false.mpr fun item hitem => ?_) _
    cases item with
    | error e => exact Bool.false_ne_true
    | ok x => exact Bool.eq_false_iff.mp (hnone x hitem)

/-- `(null, "x", error("y"), "z") // b` yields the two strings, also where `b` would never end, and
`(null, error("y")) // b` goes on as `b` does. -/
theorem alternative_chooses_late :
    let failing : Filter := .call default .error [key default "y"]
    let never : Filter := .call default .range [.literal default (.number 1)]
    let strings : Filter := .comma default (.literal default .null)
      (.comma default (key default "x") (.comma default failing (key default "z")))
    let nothing : Filter := .comma default (.literal default .null) failing
    (.ok (.string "x") ∈ (eval 0 strings [] .null).items ∧ Pattern.Store.empty.Sound ∧
      (eval 0 (.alternative default strings never) [] .null).pull .empty =
        ((eval 0 strings [] .null).keep Value.isTruthy).pull .empty ∧
      (eval 0 (.alternative default strings never) [] .null).items =
        [.ok (.string "x"), .ok (.string "z")] ∧
      (eval 0 (.alternative default strings never) [] .null).stops = true) ∧
    ((∀ x, .ok x ∈ (eval 0 nothing [] .null).items → x.isTruthy = false) ∧
      (eval 0 (.alternative default nothing never) [] .null).SameRun (eval 0 never [] .null)) := by
  intro failing never strings nothing
  have hlaws (left : Filter) :=
    (alternative_chooses left never never default default default default default).2 0 [] .null
  have hitems : (eval 0 strings [] .null).items = [.ok .null, .ok (.string "x"),
      .error ⟨default, .raised (.string "y")⟩, .ok (.string "z")] := rfl
  have hx : .ok (.string "x") ∈ (eval 0 strings [] .null).items := by
    rw [hitems]
    exact .tail _ (.head _)
  have hnone : ∀ x, .ok x ∈ (eval 0 nothing [] .null).items → x.isTruthy = false := by
    have hnull : (eval 0 nothing [] .null).items =
      [.ok .null, .error ⟨default, .raised (.string "y")⟩] := rfl
    intro x hx
    simp only [hnull, List.mem_cons, Except.ok.injEq, reduceCtorEq, List.not_mem_nil,
      or_false] at hx
    rw [hx]
    rfl
  obtain ⟨hpull, hvalues, hstops⟩ := (hlaws strings).1 ⟨_, hx, rfl⟩
  have hempty := Pattern.Store.sound_empty
  exact ⟨⟨hx, hempty, hpull _ hempty, hvalues, hstops⟩, hnone, (hlaws nothing).2 hnone⟩

end Filter

end JsonFilter
