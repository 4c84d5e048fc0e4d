import JsonFilter.Proofs.Algebra
import JsonFilter.Proofs.Correspondence
import JsonFilter.Proofs.FirstFailure
import JsonFilter.Proofs.Runs

/-!
Failures that are caught. A `try` hands on the values before the first failure of its body, and then
runs its handler on what the failure is caught as. Nothing that the body would do after that failure
is done. A handler that raises what it was given puts a failure with the same message in the place
of the first one.
-/

namespace JsonFilter

/-- Raising what a failure was caught as makes no difference to its message, and none to what it is
caught as again. -/
theorem Fault.raised_caught (fault : Fault) :
    (raised fault.caught).message = fault.message ∧ (raised fault.caught).caught = fault.caught := by
  cases fault with
  | raised payload => exact ⟨rfl, rfl⟩
  | _ => exact ⟨rfl, rfl⟩

namespace Outputs

variable {ε ε' ε'' α : Type}

/-- What is tried has no failures left to be handled. -/
theorem attempt_attempt (handler : ε' → Outputs ε'' α) (o : Outputs ε α) :
    (o.attempt fun _ => (done : Outputs ε' α)).attempt handler =
      o.attempt fun _ => (done : Outputs ε'' α) := by
  induction o with
  | done => rfl
  | unfinished => rfl
  | yield item rest ih =>
    cases item with
    | ok a => simp only [attempt, ih]
    | error e => rfl
  | request source resume ih => simp only [attempt, ih]

/-- A handler that fails puts its failure in the place of the first one. -/
theorem Corresponds.attempt_failure {R : ε → ε' → Prop} {raise : ε → ε'} (h : ∀ e, R e (raise e))
    (o : Outputs ε α) : Corresponds R o.cut (o.attempt fun e => .failure (raise e)) := by
  induction o with
  | done => exact .done
  | unfinished => exact .unfinished
  | yield item rest ih =>
    cases item with
    | ok a => exact .value (ih ())
    | error e => exact .failure (h e) .done
  | request source resume ih => exact .request ih

theorem items_attempt_done (o : Outputs ε α) :
    (o.attempt fun _ => (done : Outputs ε' α)).items = (leadingValues o.items).map .ok := by
  rw [items_attempt]
  cases firstFailure? o.items with
  | none => exact List.append_nil _
  | some e => exact List.append_nil _

theorem stops_attempt_done (o : Outputs ε α) :
    (o.attempt fun _ => (done : Outputs ε' α)).stops =
      ((firstFailure? o.items).isSome || o.stops) := by
  rw [stops_attempt_eq]
  cases firstFailure? o.items with
  | none => rfl
  | some e => rfl

end Outputs

namespace Filter

/-- Failures with the same message that are caught as the same value. -/
def Reraised (e e' : Failure) : Prop :=
  e'.fault.message = e.fault.message ∧ e'.fault.caught = e.fault.caught

section
variable (f : Filter) (loc loc₁ loc₂ : Range)

/-- Bodies with the same outputs up to the first failure are tried alike, whatever they do after
it. -/
theorem attempt_of_cut_eq {f f' : Filter} {horizon : Nat} {env : Env} {v : Value}
    (hcut : (eval horizon f env v).cut = (eval horizon f' env v).cut) (handler : Option Filter) :
    eval horizon (.attempt loc f handler) env v = eval horizon (.attempt loc f' handler) env v := by
  have hbody (handle : Failure → Stream) :
      (eval horizon f env v).attempt handle = (eval horizon f' env v).attempt handle := by
    rw [← Outputs.attempt_cut, hcut, Outputs.attempt_cut]
  cases handler with
  | none => simp only [eval, hbody]
  | some h => simp only [eval, hbody]

theorem attempt_attempt_equivalent : Equivalent (.attempt loc (.attempt loc₁ f none) none)
    (.attempt loc₂ f none) := by
  intro horizon env v
  simp only [eval, Outputs.attempt_attempt]

theorem attempt_error_corresponds (horizon : Nat) (env : Env) (v : Value) :
    Outputs.Corresponds Reraised (eval horizon f env v).cut (eval horizon
      (.attempt loc f (some (.call loc₁ .error [.identity loc₂]))) env v) := by
  have hraise (e : Failure) : eval horizon (.call loc₁ .error [.identity loc₂]) env e.fault.caught =
      .failure ⟨loc₁, .raised e.fault.caught⟩ := rfl
  rw [eval]
  simp only [hraise]
  exact .attempt_failure (fun e => e.fault.raised_caught) _

end

/-- A `try` is the values of its body before the first failure, and then the handler, run on what
that failure is caught as: with all that the handler yields, failures too. Without a handler there
are no failures, and trying once more changes nothing. What the body does after its first failure
plays no part. To catch a failure and raise it again keeps its message and what it is caught as. -/
theorem attempt_until_failure (f h : Filter) (loc loc₁ loc₂ : Range) :
    (∀ horizon env v,
      let body := eval horizon f env v
      let handled := eval horizon (.attempt loc f (some h)) env v
      let tried := eval horizon (.attempt loc f none) env v
      let reraised := eval horizon (.attempt loc f (some (.call loc₁ .error [.identity loc₂]))) env v
      handled.items = (leadingValues body.items).map .ok ++
          (firstFailure? body.items).elim [] (fun e => (eval horizon h env e.fault.caught).items) ∧
        handled.stops = (firstFailure? body.items).elim body.stops
          (fun e => (eval horizon h env e.fault.caught).stops) ∧
        tried.items = (leadingValues body.items).map .ok ∧
        tried.stops = ((firstFailure? body.items).isSome || body.stops) ∧
        (∀ e, .error e ∉ tried.items) ∧
        Outputs.Corresponds Reraised body.cut reraised) ∧
      (∀ f' handler horizon env v,
        (eval horizon f env v).cut = (eval horizon f' env v).cut →
        eval horizon (.attempt loc f handler) env v =
          eval horizon (.attempt loc f' handler) env v) ∧
      Equivalent (.attempt loc (.attempt loc₁ f none) none) (.attempt loc₂ f none) := by
  refine ⟨?run, fun f' handler horizon env v hcut => attempt_of_cut_eq loc hcut handler,
    attempt_attempt_equivalent f loc loc₁ loc₂⟩
  intro horizon env v body handled tried reraised
  have hhandled : handled = body.attempt fun e => eval horizon h env e.fault.caught := by
    simp only [handled, eval, body]
  have htried : tried = body.attempt fun _ => .done := by simp only [tried, eval, body]
  have hitems : tried.items = (leadingValues body.items).map .ok :=
    htried ▸ Outputs.items_attempt_done body
  refine ⟨hhandled ▸ Outputs.items_attempt _ body, hhandled ▸ Outputs.stops_attempt_eq _ body,
    hitems, htried ▸ Outputs.stops_attempt_done body, ?_,
    attempt_error_corresponds f loc loc₁ loc₂ horizon env v⟩
  intro e he
  rw [hitems] at he
  obtain ⟨_, _, hok⟩ := List.mem_map.mp he
  cases hok

/-- `true, error("x"), range(1)`, cut off where the count begins, is tried as `true, error("x")`. -/
theorem attempt_until_failure_unfinished :
    let failing : Filter := .call default .error [key default "x"]
    let late : Filter := .call default .range [.literal default (.number 1)]
    let whole : Filter := .comma default (.literal default (.bool true)) (.comma default failing late)
    let first : Filter := .comma default (.literal default (.bool true)) failing
    let handler : Filter := .identity default
    (eval 0 whole [] .null).cut = (eval 0 first [] .null).cut ∧
      (eval 0 whole [] .null).stops = false ∧
      eval 0 (.attempt default whole (some handler)) [] .null =
        eval 0 (.attempt default first (some handler)) [] .null ∧
      (eval 0 (.attempt default whole (some handler)) [] .null).items =
        [.ok (.bool true), .ok (.string "x")] := by
  intro failing late whole first handler
  have hcut : (eval 0 whole [] .null).cut = (eval 0 first [] .null).cut := rfl
  obtain ⟨-, hlate, -⟩ := attempt_until_failure whole handler default default default
  exact ⟨hcut, by decide +kernel, hlate first (some handler) 0 [] .null hcut, rfl⟩

end Filter

end JsonFilter
