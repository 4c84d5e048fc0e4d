import JsonFilter.Proofs.Contexts
import JsonFilter.Proofs.Outputs
import JsonFilter.Proofs.Substitution

/-!
Variables are lexically scoped: the name that a binding introduces is of no consequence. Wherever a
binding stands in a filter, it may bind another name, if the variables that it binds are renamed
with it and nothing in its body mentions the other name already.

The environment is the exception. The builtin `env` reads the variable of the environment where it
is called, so a binding of that name gives it another value, though the call names no variable.
-/

namespace JsonFilter.Filter

/-- A filter with other names for the variables of a name that no binding inside it captures. -/
def rename (x y : String) (f : Filter) : Filter := f.subst x fun loc => .var loc y

/-- A variable stands for its value where nothing captures its name. -/
theorem standsFor_var {y : String} {ms : List Mention} (hy : .name y ∉ ms) (a : Value) (env : Env) :
    StandsFor (fun loc => .var loc y) a ms ((y, a) :: env) where
  loc _ := rfl
  value inner hinner horizon loc v := by
    have hlookup : (inner ++ (y, a) :: env).lookup y = some a := by
      induction inner with
      | nil => exact lookup_cons_self y a env
      | cons b inner ih =>
        have hne : y ≠ b.1 := by
          rintro rfl
          exact hy (hinner b List.mem_cons_self)
        rw [List.cons_append, lookup_cons_ne hne]
        exact ih fun b hb => hinner b (List.mem_cons_of_mem _ hb)
    simp only [eval, hlookup, Option.getD_some]

/-- A filter reads under one name what it reads under another one after renaming. -/
theorem eval_rename {x y : String} {f : Filter} (hy : .name y ∉ f.mentions)
    (henv : .environment ∈ f.mentions → x ≠ environmentName ∧ y ≠ environmentName) (horizon : Nat)
    (a : Value) (env : Env) :
    SameIn horizon ((x, a) :: env) ((y, a) :: env) f (f.rename x y) := by
  apply eval_subst
  refine ⟨⟨a, lookup_cons_self x a env, standsFor_var hy a env⟩, fun m hm hne => ?_⟩
  have hxy : m.variable ≠ x ∧ m.variable ≠ y := by
    cases m with
    | name n =>
      refine ⟨fun heq => hne (congrArg Mention.name heq), fun heq => hy ?_⟩
      rwa [show n = y from heq] at hm
    | environment => exact ⟨(henv hm).1.symm, (henv hm).2.symm⟩
  rw [lookup_cons_ne hxy.1, lookup_cons_ne hxy.2]

/-- Any binding in a filter may bind another name that its body does not mention, together with the
variables that it binds: nothing about the outputs changes, in any run. Only if `env` is called in
the body, and no binding inside hides that call, neither name may be that of the environment. -/
theorem eval_rename_binding (c : Context) (loc : Range) (source : Filter) {x y : String}
    {body : Filter} (hy : .name y ∉ body.mentions)
    (henv : .environment ∈ body.mentions → x ≠ environmentName ∧ y ≠ environmentName)
    (horizon : Nat) (env : Env) (v : Value) :
    eval horizon (c.fill (.bind loc source y (body.rename x y))) env v =
      eval horizon (c.fill (.bind loc source x body)) env v := by
  refine c.eval_fill ?_ ?_ horizon env v
  · rfl
  · intro horizon env v
    simp only [eval]
    congr 1
    funext a
    exact (eval_rename hy henv horizon a env v).symm

/-- The body of a binding: the variable, then one of the name `x` that is bound anew, then the
environment. -/
def shadowing (x : String) : Filter :=
  .comma default (.var default x)
    (.comma default (.bind default (key default "inner") "x" (.var default "x"))
      (.call default .env []))

/-- In an array, the outer binding gets another name and the inner one keeps its own. -/
theorem eval_rename_binding_shadowing :
    .name "y" ∉ (shadowing "x").mentions ∧ .environment ∈ (shadowing "x").mentions ∧
      (shadowing "x").rename "x" "y" = shadowing "y" ∧
      eval 0 (.array default (some (.bind default (key default "outer") "y" (shadowing "y")))) []
          .null =
        eval 0 (.array default (some (.bind default (key default "outer") "x" (shadowing "x")))) []
          .null ∧
      eval 0 (.array default (some (.bind default (key default "outer") "x" (shadowing "x")))) []
          .null =
        .value (.array [.string "outer", .string "inner", .object []]) := by
  have hy : .name "y" ∉ (shadowing "x").mentions := by decide
  have hnames : "x" ≠ environmentName ∧ "y" ≠ environmentName := by decide
  exact ⟨hy, by decide, rfl, eval_rename_binding [.array default] default (key default "outer") hy
    (fun _ => hnames) 0 [] .null, rfl⟩

/-- What a binding does to a call of `env` in the place of its body: the name of the environment
captures the call, and no other name does. -/
theorem eval_bind_env (horizon : Nat) (loc loc' : Range) (source : Filter) (name : String)
    (env : Env) (v : Value) :
    eval horizon (.bind loc source name (.call loc' .env [])) env v =
      if name = environmentName then eval horizon source env v
      else (eval horizon source env v).bind fun _ => eval horizon (.call loc' .env []) env v := by
  simp only [eval]
  split
  · next hname =>
    simp only [hname, lookup_cons_self, Option.getD_some, Outputs.bind_value]
  · next hname => simp only [lookup_cons_ne (Ne.symm hname)]

end JsonFilter.Filter
