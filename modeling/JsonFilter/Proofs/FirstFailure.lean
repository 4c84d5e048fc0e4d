import JsonFilter.Proofs.Evaluators
import JsonFilter.Proofs.Items

/-!
A failure ends the evaluation it happens in. Nothing that a filter would yield after it has failed
can be observed, however deep in another filter it stands: an evaluator that cuts the outputs of
every part off after their first failure comes to the same. Only what the left operand of `//` is
made of is left whole, since `//` drops failures and goes on; but even there, what goes into an
array, into `map`, `try` or `first` may be cut.
-/

namespace JsonFilter

namespace Outputs

variable {ε ε' α β : Type}

/-- The outputs up to the first failure, and with it. -/
def cut : Outputs ε α → Outputs ε α
  | .done => .done
  | .unfinished => .unfinished
  | .yield (.ok a) rest => .yield (.ok a) fun _ => (rest ()).cut
  | .yield (.error e) _ => failure e
  | .request source resume => .request source fun p => (resume p).cut

attribute [local simp] cut

/-! ## Laws -/

theorem cut_cut (o : Outputs ε α) : o.cut.cut = o.cut := by
  induction o with
  | done => rfl
  | unfinished => rfl
  | yield item rest ih =>
    cases item with
    | error e => rfl
    | ok a => simp only [cut, ih]
  | request source resume ih => simp only [cut, ih]

theorem cut_append (o : Outputs ε α) (more : Unit → Outputs ε α) :
    (o.append more).cut = (o.cut.append fun _ => (more ()).cut).cut := by
  induction o with
  | done => exact (cut_cut _).symm
  | unfinished => rfl
  | yield item rest ih =>
    cases item with
    | error e => rfl
    | ok a => simp only [append, cut, ih]
  | request source resume ih => simp only [append, cut, ih]

theorem cut_bind (o : Outputs ε α) (f : α → Outputs ε β) :
    (o.bind f).cut = (o.cut.bind fun a => (f a).cut).cut := by
  induction o with
  | done => rfl
  | unfinished => rfl
  | yield item rest ih =>
    cases item with
    | error e => rfl
    | ok a =>
      simp only [cut, yield_ok_bind]
      rw [cut_append, ih, cut_append (f a).cut fun _ => (rest ()).cut.bind _, cut_cut (f a)]
  | request source resume ih => simp only [bind, cut, ih]

theorem cut_take (n : Nat) (o : Outputs ε α) : (o.take n).cut = (o.cut.take n).cut := by
  induction o generalizing n with
  | done => rfl
  | unfinished => rfl
  | yield item rest ih =>
    cases item with
    | error e =>
      simp only [take, cut, failure, single]
      split <;> rfl
    | ok a =>
      simp only [take, cut]
      split
      · rfl
      · simp only [cut]
        congr 1
        funext _
        split
        · rfl
        · exact ih () (n - 1)
  | request source resume ih =>
    simp only [take, cut]
    split
    · rfl
    · simp only [cut, ih _ n]

/-- The first output needs no more than what comes up to the first failure. -/
theorem take_one_cut (o : Outputs ε α) : o.cut.take 1 = o.take 1 := by
  induction o with
  | done => rfl
  | unfinished => rfl
  | yield item rest _ => cases item <;> rfl
  | request source resume ih => simp only [cut, take, ih]

theorem collect_cut (taken : List α) (o : Outputs ε α) : o.cut.collect taken = o.collect taken := by
  induction o generalizing taken with
  | done => rfl
  | unfinished => rfl
  | yield item rest ih =>
    cases item with
    | error e => rfl
    | ok a => simp only [cut, collect, ih]
  | request source resume ih => simp only [cut, collect, ih]

theorem attempt_cut (handler : ε → Outputs ε' α) (o : Outputs ε α) :
    o.cut.attempt handler = o.attempt handler := by
  induction o with
  | done => rfl
  | unfinished => rfl
  | yield item rest ih =>
    cases item with
    | error e => rfl
    | ok a => simp only [cut, attempt, ih]
  | request source resume ih => simp only [cut, attempt, ih]

theorem cut_attempt (handler : ε → Outputs ε' α) (o : Outputs ε α) :
    (o.attempt handler).cut = (o.attempt fun e => (handler e).cut).cut := by
  induction o with
  | done => rfl
  | unfinished => rfl
  | yield item rest ih =>
    cases item with
    | error e => exact (cut_cut _).symm
    | ok a => simp only [attempt, cut, ih]
  | request source resume ih => simp only [attempt, cut, ih]

theorem cut_keepOr (p : α → Bool) (o : Outputs ε α) (other : Unit → Outputs ε α) :
    (o.keepOr p other).cut = (o.keepOr p fun _ => (other ()).cut).cut := by
  induction o with
  | done => exact (cut_cut _).symm
  | unfinished => rfl
  | yield item rest ih =>
    cases item with
    | error e => exact ih ()
    | ok a =>
      simp only [keepOr]
      split
      · rfl
      · exact ih ()
  | request source resume ih => simp only [keepOr, cut, ih]

/-- The items of what is left are those up to the first failure. -/
theorem items_cut (o : Outputs ε α) : o.cut.items = upToFailure o.items := by
  induction o with
  | done => rfl
  | unfinished => rfl
  | yield item rest ih =>
    cases item with
    | error e => rfl
    | ok a => exact congrArg (.ok a :: ·) (ih ())
  | request source resume ih => exact ih _

theorem breaksOff_cut (o : Outputs ε α) : o.cut.breaksOff = o.breaksOff := by
  induction o with
  | done => rfl
  | unfinished => rfl
  | yield item rest ih =>
    cases item with
    | error e => rfl
    | ok a => exact ih ()
  | request source resume ih => exact ih _

/-! ## Outputs that are wanted to some extent -/

/-- What is wanted of some outputs: all of them, or those up to the first failure. -/
def wanted (past : Bool) (o : Outputs ε α) : Outputs ε α := if past then o else o.cut

section
variable {past : Bool} {o o' more more' : Outputs ε α}

theorem wanted_wanted (past : Bool) (o : Outputs ε α) :
    (o.wanted past).wanted past = o.wanted past := by
  cases past with
  | true => rfl
  | false => exact cut_cut o

theorem append_wanted (ho : o.wanted past = o'.wanted past)
    (hmore : more.wanted past = more'.wanted past) :
    (o.append fun _ => more).wanted past = (o'.append fun _ => more').wanted past := by
  cases past with
  | true =>
    obtain rfl : o = o' := ho
    obtain rfl : more = more' := hmore
    rfl
  | false =>
    replace ho : o.cut = o'.cut := ho
    replace hmore : more.cut = more'.cut := hmore
    show (o.append _).cut = (o'.append _).cut
    rw [cut_append, cut_append o', ho, hmore]

theorem bind_wanted {f f' : α → Outputs ε β} (ho : o.wanted past = o'.wanted past)
    (hf : ∀ a, (f a).wanted past = (f' a).wanted past) :
    (o.bind f).wanted past = (o'.bind f').wanted past := by
  cases past with
  | true =>
    obtain rfl : o = o' := ho
    obtain rfl : f = f' := funext hf
    rfl
  | false =>
    replace ho : o.cut = o'.cut := ho
    replace hf : (fun a => (f a).cut) = fun a => (f' a).cut := funext hf
    show (o.bind f).cut = (o'.bind f').cut
    rw [cut_bind, cut_bind o', ho, hf]

theorem take_wanted (n : Nat) (ho : o.wanted past = o'.wanted past) :
    (o.take n).wanted past = (o'.take n).wanted past := by
  cases past with
  | true =>
    obtain rfl : o = o' := ho
    rfl
  | false =>
    replace ho : o.cut = o'.cut := ho
    show (o.take n).cut = (o'.take n).cut
    rw [cut_take, cut_take n o', ho]

theorem take_one_of_cut_eq (ho : o.cut = o'.cut) : o.take 1 = o'.take 1 := by
  rw [← take_one_cut o, ho, take_one_cut]

theorem collect_of_cut_eq (taken : List α) (ho : o.cut = o'.cut) :
    o.collect taken = o'.collect taken := by
  rw [← collect_cut taken o, ho, collect_cut]

theorem keepOr_wanted (p : α → Bool) (o : Outputs ε α) (h : more.wanted past = more'.wanted past) :
    (o.keepOr p fun _ => more).wanted past = (o.keepOr p fun _ => more').wanted past := by
  cases past with
  | true =>
    obtain rfl : more = more' := h
    rfl
  | false =>
    replace h : more.cut = more'.cut := h
    show (o.keepOr p fun _ => more).cut = (o.keepOr p fun _ => more').cut
    rw [cut_keepOr, cut_keepOr p o fun _ => more', h]

theorem attempt_wanted {handler handler' : ε → Outputs ε' α} (ho : o.cut = o'.cut)
    (h : ∀ e, (handler e).wanted past = (handler' e).wanted past) :
    (o.attempt handler).wanted past = (o'.attempt handler').wanted past := by
  rw [← attempt_cut, ho, attempt_cut]
  cases past with
  | true =>
    obtain rfl : handler = handler' := funext h
    rfl
  | false =>
    replace h : (fun e => (handler e).cut) = fun e => (handler' e).cut := funext h
    show (o'.attempt handler).cut = (o'.attempt handler').cut
    rw [cut_attempt, cut_attempt handler', h]

end

end Outputs

namespace Filter

/-- Cutting the outputs of every part off after their first failure, unless they are wanted past
it. -/
def Policy.cutting (horizon : Nat) : Policy := ⟨Filter.count horizon, Outputs.wanted⟩

/-- Cutting off the outputs of every part. -/
def Policy.cuttingAll (horizon : Nat) : Policy := ⟨Filter.count horizon, fun _ => Outputs.cut⟩

/-- What is wanted of the outputs is the same with cutting and without. -/
def Comparison.cutting (horizon : Nat) :
    Comparison (fun _ : Unit => horizon) (.cutting horizon) where
  rel past _ o o' := (o ()).wanted past = o'.wanted past
  refl _ _ _ := rfl
  append ho hmore := Outputs.append_wanted ho hmore
  bind ho hf := Outputs.bind_wanted ho hf
  take n _ _ _ _ ho := Outputs.take_wanted n ho
  first ho := congrArg _ (Outputs.take_one_of_cut_eq ho)
  collect ho := congrArg _ (Outputs.collect_of_cut_eq [] ho)
  keepOr p _ _ _ _ _ ho hother := by
    obtain rfl := ho
    exact Outputs.keepOr_wanted p _ hother
  attempt ho hhandler := Outputs.attempt_wanted ho hhandler
  count _ _ _ := rfl
  pass ho := ho.trans (Outputs.wanted_wanted _ _).symm

/-- Evaluation with cutting gives what is wanted of the outputs. -/
theorem evalBy_cutting (horizon : Nat) (past : Bool) (f : Filter) (env : Env) (v : Value) :
    evalBy (.cutting horizon) past f env v = (eval horizon f env v).wanted past := by
  have hsame : (eval horizon f env v).wanted past =
      (evalBy (.cutting horizon) past f env v).wanted past :=
    (Comparison.cutting horizon).holds f past env v
  rw [hsame]
  -- The outputs that are handed on are cut already.
  unfold evalBy
  exact (Outputs.wanted_wanted past _).symm

/-- Evaluation stops at the point of failure: up to the first failure, its items are those of the
evaluator that cuts off the outputs of every part after their first failure, except where `//` wants
them past it. -/
theorem upToFailure_items_eval (horizon : Nat) (f : Filter) (env : Env) (v : Value) :
    upToFailure (eval horizon f env v).items =
        upToFailure (evalBy (.cutting horizon) false f env v).items ∧
      (eval horizon f env v).breaksOff = (evalBy (.cutting horizon) false f env v).breaksOff := by
  have hcut : evalBy (.cutting horizon) false f env v = (eval horizon f env v).cut :=
    evalBy_cutting horizon false f env v
  rw [hcut]
  constructor
  · rw [← Outputs.items_cut, ← Outputs.items_cut, Outputs.cut_cut]
  · exact (Outputs.breaksOff_cut _).symm

/-- The left operand of `//` goes on after a failure: `(error("x"), "late") // "other"` yields the
string after the failure, where cutting off the outputs of every part would leave the other one. -/
theorem upToFailure_items_alternative :
    let f : Filter := .alternative default
      (.comma default (.call default .error [key default "x"]) (key default "late"))
      (key default "other")
    upToFailure (eval 0 f [] .null).items = [.ok (.string "late")] ∧
      upToFailure (evalBy (.cuttingAll 0) false f [] .null).items = [.ok (.string "other")] ∧
      upToFailure (eval 0 f [] .null).items ≠
        upToFailure (evalBy (.cuttingAll 0) false f [] .null).items := by
  refine ⟨rfl, rfl, fun heq => ?_⟩
  have hitems : [(.ok (.string "late") : Except Failure Value)] = [.ok (.string "other")] := heq
  simp only [List.cons.injEq, Except.ok.injEq, Value.string.injEq, String.reduceEq, false_and]
    at hitems

end Filter

end JsonFilter
