import JsonFilter.Program
import JsonFilter.Proofs.Outputs
import JsonFilter.Proofs.Substitution

/-!
Constants in the place of variables. A variable that is bound to a constant may be replaced by the
constant wherever the binding is the one that is read, and nothing about the outputs changes, not
even the ranges of failures. So it makes no difference whether a constant is written into a filter,
bound in it, or passed to the program as the value of a global variable.
-/

namespace JsonFilter

namespace Filter

/-- A filter with a constant in the place of every variable of a name that no binding inside it
captures. The constant takes over the range of the variable. -/
def inline (x : String) (l : Literal) (f : Filter) : Filter := f.subst x fun loc => .literal loc l

/-- A constant stands for its value, whatever is bound on the way down to it. -/
theorem standsFor_literal (l : Literal) (ms : List Mention) (env : Env) :
    StandsFor (fun loc => .literal loc l) l.toValue ms env where
  loc _ := rfl
  value _ _ _ _ _ := rfl

/-- A filter reads of a variable what it has written in it after inlining. -/
theorem sameIn_inline {x : String} {f : Filter} (l : Literal)
    (henv : .environment ∈ f.mentions → x ≠ environmentName) (horizon : Nat) (env : Env) :
    SameIn horizon ((x, l.toValue) :: env) env f (f.inline x l) := by
  apply eval_subst
  refine ⟨⟨l.toValue, lookup_cons_self x l.toValue env, standsFor_literal l _ env⟩, ?_⟩
  intro m hm hne
  have hother : m.variable ≠ x := by
    cases m with
    | name n => exact fun heq => hne (congrArg Mention.name heq)
    | environment => exact (henv hm).symm
  exact lookup_cons_ne hother l.toValue env

/-- Binding a constant is substituting it: the outputs are those of the body with the constant in
the place of each variable that the binding binds, in every run. Only the name of the environment is
excepted, if `env` is called in the body and no binding inside hides that call. -/
theorem eval_bind_literal (loc loc' : Range) (l : Literal) {x : String} {f : Filter}
    (henv : .environment ∈ f.mentions → x ≠ environmentName) (horizon : Nat) (env : Env)
    (v : Value) :
    eval horizon (.bind loc (.literal loc' l) x f) env v = eval horizon (f.inline x l) env v := by
  simp only [eval, Outputs.value_bind]
  exact sameIn_inline l henv horizon env v

/-- A filter that is read twice with a binding of `x` between that captures nothing of it: by itself,
and as the key of an object, which tells a key that is no string by the range of the filter. -/
def readTwice (f : Range → Filter) : Filter :=
  .comma default (f default)
    (.comma default (.bind default (key default "inner") "x" (.var default "x"))
      (.object default [(f ⟨⟨1, 3⟩, ⟨1, 5⟩⟩, .identity default)]))

/-- The constant is read in both places, the inner binding has its own value, and the failure has
the range of the variable. -/
theorem eval_bind_literal_shadowing :
    .environment ∉ (readTwice (.var · "x")).mentions ∧
      (readTwice (.var · "x")).inline "x" (.bool true) = readTwice (.literal · (.bool true)) ∧
      eval 0 (.bind default (.literal default (.bool true)) "x" (readTwice (.var · "x"))) [] .null =
        eval 0 (readTwice (.literal · (.bool true))) [] .null ∧
      eval 0 (readTwice (.literal · (.bool true))) [] .null =
        .ofItems [.ok (.bool true), .ok (.string "inner"),
          .error ⟨⟨⟨1, 3⟩, ⟨1, 5⟩⟩, .keyNotString (.bool true)⟩] := by
  have hx : "x" ≠ environmentName := by decide
  exact ⟨by decide, rfl, eval_bind_literal default default (.bool true) (fun _ => hx) 0 [] .null,
    rfl⟩

end Filter

/-- A global variable whose value is a constant may be written into the filter of a program, for
every input. -/
theorem Program.outputs_inline {x : String} {f : Filter} (l : Literal)
    (henv : .environment ∈ f.mentions → x ≠ environmentName) (source : String) (globals : Env)
    (horizon : Nat) (input : Input) :
    Program.outputs horizon ⟨source, f, (x, l.toValue) :: globals⟩ input =
      Program.outputs horizon ⟨source, f.inline x l, globals⟩ input := by
  have hvalue : ∀ v, outputsFor horizon ⟨source, f, (x, l.toValue) :: globals⟩ v =
      outputsFor horizon ⟨source, f.inline x l, globals⟩ v := by
    intro v
    simp only [outputsFor, Filter.sameIn_inline l henv horizon globals v]
  cases input with
  | value v => exact hvalue v
  | text s => rw [outputs, outputs, funext hvalue]

end JsonFilter
