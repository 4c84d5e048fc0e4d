import JsonFilter.Eval

/-!
Evaluators that differ from evaluation in two things: how they count, and how much they hand on of
the outputs of each part of a filter. Where a failure ends what becomes of the outputs anyway, they
are wanted up to their first failure; only the left operand of `//` is wanted past its failures,
since it drops them, and so is what its outputs are made of.

A comparison relates what evaluation gives at some horizons to what another evaluator gives. It has
to be kept by everything that filters do with sequences, and then it holds of every filter.
-/

namespace JsonFilter.Filter

/-- How an evaluator counts from one number up to another, and what it hands on of the outputs of a
filter that are wanted past their first failure, or only up to it. -/
structure Policy where
  count : Number → Number → Stream
  pass : (past : Bool) → Stream → Stream

/-- The policy of evaluation at a horizon, which hands everything on. -/
def Policy.plain (horizon : Nat) : Policy := ⟨Filter.count horizon, fun _ o => o⟩

/-- The outputs of `range` for the values of its arguments. -/
def rangeBy (P : Policy) (loc : Range) : List Value → Stream
  | [.number upto] => P.count 0 upto
  | [.number low, .number upto] => P.count low upto
  | _ => fail loc (.misuse .rangeNotNumber)

/-- The outputs of a builtin for its input and the values of its arguments. -/
def callBy (P : Policy) (loc : Range) (b : Builtin) (input : Value) (args : List Value) : Stream :=
  match b with
  | .range => rangeBy P loc args
  | .test => testOf loc input args
  | b => .single (located loc (b.apply input args))

mutual

/-- The outputs of a filter, as far as they are handed on. -/
def evalBy (P : Policy) (past : Bool) (f : Filter) (env : Env) (v : Value) : Stream :=
  P.pass past <| match f with
  | .identity _ => .value v
  | .recurse _ => .ofList v.walk
  | .literal _ l => .value l.toValue
  | .var _ name => .value ((env.lookup name).getD .null)
  | .index loc target key =>
    (evalBy P past target env v).bind fun t =>
      (evalBy P past key env v).andThen fun k => located loc (t.index k)
  | .slice loc target low high =>
    (evalBy P past target env v).bind fun t =>
      (evalOrBy P past low .null env v).bind fun l =>
        (evalOrBy P past high .null env v).andThen fun h => located loc (t.slice l h)
  | .iterate loc target =>
    (evalBy P past target env v).bind fun t =>
      match t.items with
      | .ok items => .ofList items
      | .error fault => fail loc fault
  | .pipe _ left right => (evalBy P past left env v).bind (evalBy P past right env)
  | .comma _ left right =>
    (evalBy P past left env v).append fun _ => evalBy P past right env v
  | .alternative _ left right =>
    (evalBy P true left env v).keepOr Value.isTruthy fun _ => evalBy P past right env v
  | .and _ left right =>
    (evalBy P past left env v).bind fun l =>
      if l.isTruthy then
        (evalBy P past right env v).andThen fun r => .ok (.bool r.isTruthy)
      else .value (.bool false)
  | .or _ left right =>
    (evalBy P past left env v).bind fun l =>
      if l.isTruthy then .value (.bool true)
      else (evalBy P past right env v).andThen fun r => .ok (.bool r.isTruthy)
  | .binary loc op left right =>
    (evalBy P past right env v).bind fun r =>
      (evalBy P past left env v).andThen fun l => located loc (op.apply l r)
  | .negate loc operand => (evalBy P past operand env v).andThen fun n => located loc n.negate
  | .array _ none => .value (.array [])
  | .array _ (some body) =>
    ((evalBy P false body env v).collect []).andThen fun items => .ok (.array items)
  | .object _ entries => evalEntriesBy P past entries [] env v
  | .cond _ branches otherwise =>
    evalBranchesBy P past branches (fun _ => evalOrBy P past otherwise v env v) env v
  | .attempt _ body none => (evalBy P false body env v).attempt fun _ => .done
  | .attempt _ body (some handler) =>
    (evalBy P false body env v).attempt fun e => evalBy P past handler env e.fault.caught
  | .bind _ source name body =>
    (evalBy P past source env v).bind fun x => evalBy P past body ((name, x) :: env) v
  | .call loc builtin args =>
    match builtin, args with
    | .empty, [] => .done
    | .recurse, [] => .ofList v.walk
    | .env, [] => .value ((env.lookup environmentName).getD (.object []))
    | .map, [f] =>
      match v.items with
      | .ok items =>
        (((Outputs.ofList items).bind (evalBy P false f env)).collect []).andThen fun items =>
          .ok (.array items)
      | .error fault => fail loc fault
    | .select, [f] =>
      (evalBy P past f env v).bind fun x => if x.isTruthy then .value v else .done
    | .first, [f] => (evalBy P false f env v).take 1
    | .limit, [n, f] =>
      (evalBy P past n env v).bind fun n => limitOf loc n fun _ => evalBy P past f env v
    | b, args => (evalArgsBy P past args env v).bind (callBy P loc b v)

/-- The outputs of a filter that may be missing, where a value takes its place. -/
def evalOrBy (P : Policy) (past : Bool) : Option Filter → Value → Env → Value → Stream
  | none, other, _, _ => .value other
  | some f, _, env, v => evalBy P past f env v

/-- Every combination of the outputs of some filters. -/
def evalArgsBy (P : Policy) (past : Bool) :
    List Filter → Env → Value → Outputs Failure (List Value)
  | [], _, _ => .value []
  | arg :: args, env, v =>
    (evalBy P past arg env v).bind fun x =>
      (evalArgsBy P past args env v).andThen fun xs => .ok (x :: xs)

/-- Every object that the outputs of its keys and values make, with some fields to begin with. -/
def evalEntriesBy (P : Policy) (past : Bool) :
    List (Filter × Filter) → Fields Value → Env → Value → Stream
  | [], fields, _, _ => .value (.object fields)
  | (key, value) :: entries, fields, env, v =>
    (evalBy P past key env v).bind fun
      | .string k =>
        (evalBy P past value env v).bind fun x =>
          evalEntriesBy P past entries (fields.insert k x) env v
      | k => fail key.loc (.keyNotString k)

/-- For every output of the first test, the branch it chooses. -/
def evalBranchesBy (P : Policy) (past : Bool) :
    List (Filter × Filter) → (Unit → Stream) → Env → Value → Stream
  | [], otherwise, _, _ => otherwise ()
  | (test, body) :: branches, otherwise, env, v =>
    (evalBy P past test env v).bind fun c =>
      if c.isTruthy then evalBy P past body env v
      else evalBranchesBy P past branches otherwise env v

end

/-! ## Comparisons -/

/-- A relation between outputs at some horizons and the outputs of another evaluator, for outputs
that are wanted past their first failure and for those that are not. Whatever makes sequences out of
others keeps it, and counting has it. -/
structure Comparison {ι : Type} (horizon : ι → Nat) (P : Policy) where
  rel : (past : Bool) → {α : Type} → (ι → Outputs Failure α) → Outputs Failure α → Prop
  refl : ∀ (past : Bool) {α : Type} (o : Outputs Failure α), rel past (fun _ => o) o
  append : ∀ {past : Bool} {α : Type} {o more : ι → Outputs Failure α} {o' more' : Outputs Failure α},
    rel past o o' → rel past more more' →
      rel past (fun i => (o i).append fun _ => more i) (o'.append fun _ => more')
  bind : ∀ {past : Bool} {α β : Type} {o : ι → Outputs Failure α} {o' : Outputs Failure α}
    {f : ι → α → Outputs Failure β} {f' : α → Outputs Failure β},
    rel past o o' → (∀ a, rel past (fun i => f i a) (f' a)) →
      rel past (fun i => (o i).bind (f i)) (o'.bind f')
  take : ∀ (n : Nat) {past : Bool} {α : Type} {o : ι → Outputs Failure α} {o' : Outputs Failure α},
    rel past o o' → rel past (fun i => (o i).take n) (o'.take n)
  first : ∀ {past : Bool} {α : Type} {o : ι → Outputs Failure α} {o' : Outputs Failure α},
    rel false o o' → rel past (fun i => (o i).take 1) (o'.take 1)
  collect : ∀ {past : Bool} {α : Type} {o : ι → Outputs Failure α} {o' : Outputs Failure α},
    rel false o o' → rel past (fun i => (o i).collect []) (o'.collect [])
  keepOr : ∀ (p : Value → Bool) {past : Bool} {o other : ι → Stream} {o' other' : Stream},
    rel true o o' → rel past other other' →
      rel past (fun i => (o i).keepOr p fun _ => other i) (o'.keepOr p fun _ => other')
  attempt : ∀ {past : Bool} {o : ι → Stream} {o' : Stream} {handler : ι → Failure → Stream}
    {handler' : Failure → Stream},
    rel false o o' → (∀ e, rel past (fun i => handler i e) (handler' e)) →
      rel past (fun i => (o i).attempt (handler i)) (o'.attempt handler')
  count : ∀ (past : Bool) (low upto : Number),
    rel past (fun i => Filter.count (horizon i) low upto) (P.count low upto)
  pass : ∀ {past : Bool} {o : ι → Stream} {o' : Stream}, rel past o o' → rel past o (P.pass past o')

namespace Comparison

variable {ι : Type} {horizon : ι → Nat} {P : Policy} (C : Comparison horizon P) {past : Bool}

theorem andThen {α β : Type} {o : ι → Outputs Failure α} {o' : Outputs Failure α}
    (f : α → Except Failure β) (h : C.rel past o o') :
    C.rel past (fun i => (o i).andThen f) (o'.andThen f) :=
  C.bind h fun a => C.refl past (.single (f a))

theorem range (loc : Range) (args : List Value) :
    C.rel past (fun i => rangeOf (horizon i) loc args) (rangeBy P loc args) := by
  show C.rel past (fun i => rangeBy (.plain (horizon i)) loc args) _
  unfold rangeBy
  split
  · exact C.count past _ _
  · exact C.count past _ _
  · exact C.refl past _

theorem callOf (loc : Range) (b : Builtin) (input : Value) (args : List Value) :
    C.rel past (fun i => Filter.callOf (horizon i) loc b input args) (callBy P loc b input args) := by
  show C.rel past (fun i => callBy (.plain (horizon i)) loc b input args) _
  unfold callBy
  split
  · exact C.range loc args
  · exact C.refl past _
  · exact C.refl past _

theorem limitOf (loc : Range) (n : Value) {o : ι → Stream} {o' : Stream} (h : C.rel past o o') :
    C.rel past (fun i => Filter.limitOf loc n fun _ => o i) (Filter.limitOf loc n fun _ => o') := by
  unfold Filter.limitOf
  split
  · split
    · exact C.take _ h
    · exact C.refl past _
  · exact C.refl past _

/-- That a filter compares, for every environment and input, and however far its outputs are
wanted. -/
def Holds (f : Filter) : Prop :=
  ∀ past env v, C.rel past (fun i => eval (horizon i) f env v) (evalBy P past f env v)

theorem evalArgs {args : List Filter} (h : ∀ f ∈ args, C.Holds f) (past : Bool) (env : Env)
    (v : Value) :
    C.rel past (fun i => Filter.evalArgs (horizon i) args env v) (evalArgsBy P past args env v) := by
  induction args with
  | nil => exact C.refl past _
  | cons f fs ih =>
    have hfs := ih fun g hg => h g (List.mem_cons_of_mem f hg)
    simp only [Filter.evalArgs, evalArgsBy]
    exact C.bind (h f List.mem_cons_self past env v) fun x => C.andThen _ hfs

/-- A call, by the builtins that look at their arguments in a way of their own. -/
theorem call (loc : Range) (b : Builtin) {args : List Filter} (h : ∀ f ∈ args, C.Holds f) :
    C.Holds (.call loc b args) := by
  intro past env v
  have hargs : C.rel past
      (fun i => (Filter.evalArgs (horizon i) args env v).bind (Filter.callOf (horizon i) loc b v))
      ((evalArgsBy P past args env v).bind (callBy P loc b v)) :=
    C.bind (C.evalArgs h past env v) fun args => C.callOf loc b v args
  unfold evalBy
  refine C.pass ?_
  -- With a number of arguments that it does not accept, a builtin is called like any other.
  rcases args with _ | ⟨f, _ | ⟨g, _ | ⟨k, args⟩⟩⟩
  · cases b with
    | empty => exact C.refl past _
    | recurse => exact C.refl past _
    | env => exact C.refl past _
    | _ => exact hargs
  · have hf := h f List.mem_cons_self
    cases b with
    | map =>
      simp only [eval]
      cases v.items with
      | ok items =>
        exact C.andThen _ (C.collect (C.bind (C.refl false (.ofList items)) fun x => hf false env x))
      | error fault => exact C.refl past _
    | select =>
      simp only [eval]
      refine C.bind (hf past env v) fun x => ?_
      split
      · exact C.refl past _
      · exact C.refl past _
    | first =>
      simp only [eval]
      exact C.first (hf false env v)
    | _ => exact hargs
  · cases b with
    | limit =>
      have hn := h f List.mem_cons_self past env v
      have hg := h g (List.mem_cons_of_mem f List.mem_cons_self) past env v
      simp only [eval]
      exact C.bind hn fun n => C.limitOf loc n hg
    | _ => exact hargs
  · cases b <;> exact hargs

mutual

/-- What holds of counting and is kept by everything that filters do holds of every filter. -/
theorem holds : ∀ f : Filter, C.Holds f
  | .identity _, past, _, _ => C.pass (C.refl past _)
  | .recurse _, past, _, _ => C.pass (C.refl past _)
  | .literal _ _, past, _, _ => C.pass (C.refl past _)
  | .var _ _, past, _, _ => C.pass (C.refl past _)
  | .index loc target key, past, env, v => by
    simp only [eval, evalBy]
    refine C.pass (C.bind (holds target past env v) fun t => ?_)
    exact C.andThen _ (holds key past env v)
  | .slice loc target low high, past, env, v => by
    simp only [eval, evalBy]
    refine C.pass (C.bind (holds target past env v) fun t => ?_)
    refine C.bind (holdsOr low .null past env v) fun l => ?_
    exact C.andThen _ (holdsOr high .null past env v)
  | .iterate loc target, past, env, v => by
    simp only [eval, evalBy]
    refine C.pass (C.bind (holds target past env v) fun t => ?_)
    cases t.items <;> exact C.refl past _
  | .pipe _ left right, past, env, v => by
    simp only [eval, evalBy]
    exact C.pass (C.bind (holds left past env v) fun x => holds right past env x)
  | .comma _ left right, past, env, v => by
    simp only [eval, evalBy]
    exact C.pass (C.append (holds left past env v) (holds right past env v))
  | .alternative _ left right, past, env, v => by
    simp only [eval, evalBy]
    -- The left operand is wanted whole, since its failures are dropped.
    exact C.pass (C.keepOr _ (holds left true env v) (holds right past env v))
  | .and _ left right, past, env, v => by
    simp only [eval, evalBy]
    refine C.pass (C.bind (holds left past env v) fun l => ?_)
    split
    · exact C.andThen _ (holds right past env v)
    · exact C.refl past _
  | .or _ left right, past, env, v => by
    simp only [eval, evalBy]
    refine C.pass (C.bind (holds left past env v) fun l => ?_)
    split
    · exact C.refl past _
    · exact C.andThen _ (holds right past env v)
  | .binary loc op left right, past, env, v => by
    simp only [eval, evalBy]
    refine C.pass (C.bind (holds right past env v) fun r => ?_)
    exact C.andThen _ (holds left past env v)
  | .negate loc operand, past, env, v => by
    simp only [eval, evalBy]
    exact C.pass (C.andThen _ (holds operand past env v))
  | .array _ none, past, _, _ => by
    simp only [eval, evalBy]
    exact C.pass (C.refl past _)
  | .array _ (some body), past, env, v => by
    simp only [eval, evalBy]
    exact C.pass (C.andThen _ (C.collect (holds body false env v)))
  | .object _ entries, past, env, v => by
    simp only [eval, evalBy]
    exact C.pass (holdsEntries entries [] past env v)
  | .cond _ branches otherwise, past, env, v => by
    simp only [eval, evalBy]
    exact C.pass (holdsBranches branches past env v (holdsOr otherwise v past env v))
  | .attempt _ body none, past, env, v => by
    simp only [eval, evalBy]
    exact C.pass (C.attempt (holds body false env v) fun _ => C.refl past _)
  | .attempt _ body (some handler), past, env, v => by
    simp only [eval, evalBy]
    exact C.pass (C.attempt (holds body false env v) fun e => holds handler past env _)
  | .bind _ source name body, past, env, v => by
    simp only [eval, evalBy]
    exact C.pass (C.bind (holds source past env v) fun x => holds body past _ v)
  | .call loc builtin args, past, env, v => C.call loc builtin (holdsList args) past env v

theorem holdsOr : ∀ (f : Option Filter) (other : Value) (past : Bool) (env : Env) (v : Value),
    C.rel past (fun i => evalOr (horizon i) f other env v) (evalOrBy P past f other env v)
  | none, _, past, _, _ => C.refl past _
  | some f, _, past, env, v => holds f past env v

theorem holdsList : ∀ fs : List Filter, ∀ f ∈ fs, C.Holds f
  | f :: fs, g, hg => by
    cases hg with
    | head => exact holds f
    | tail _ hg => exact holdsList fs g hg

theorem holdsEntries : ∀ (ps : List (Filter × Filter)) (fields : Fields Value) (past : Bool)
    (env : Env) (v : Value),
    C.rel past (fun i => evalEntries (horizon i) ps fields env v)
      (evalEntriesBy P past ps fields env v)
  | [], _, past, _, _ => C.refl past _
  | (f, g) :: ps, fields, past, env, v => by
    simp only [evalEntries, evalEntriesBy]
    refine C.bind (holds f past env v) fun k => ?_
    cases k with
    | string k =>
      exact C.bind (holds g past env v) fun x => holdsEntries ps (fields.insert k x) past env v
    | _ => exact C.refl past _

theorem holdsBranches : ∀ (ps : List (Filter × Filter)) (past : Bool) (env : Env) (v : Value)
    {otherwise : ι → Stream} {otherwise' : Stream}, C.rel past otherwise otherwise' →
    C.rel past (fun i => evalBranches (horizon i) ps (fun _ => otherwise i) env v)
      (evalBranchesBy P past ps (fun _ => otherwise') env v)
  | [], _, _, _, _, _, h => h
  | (f, g) :: ps, past, env, v, _, _, h => by
    simp only [evalBranches, evalBranchesBy]
    refine C.bind (holds f past env v) fun c => ?_
    split
    · exact holds g past env v
    · exact holdsBranches ps past env v h

end

end Comparison

/-- Evaluation is the evaluator with its own policy. -/
def Comparison.plain (horizon : Nat) : Comparison (fun _ : Unit => horizon) (.plain horizon) where
  rel _ _ o o' := o () = o'
  refl _ _ _ := rfl
  append ho hmore := by subst ho hmore; rfl
  bind ho hf := by
    obtain rfl := funext hf
    subst ho
    rfl
  take _ _ _ _ _ ho := by subst ho; rfl
  first ho := by subst ho; rfl
  collect ho := by subst ho; rfl
  keepOr _ _ _ _ _ _ ho hother := by subst ho hother; rfl
  attempt ho hhandler := by
    obtain rfl := funext hhandler
    subst ho
    rfl
  count _ _ _ := rfl
  pass ho := ho

theorem evalBy_plain (horizon : Nat) (past : Bool) (f : Filter) (env : Env) (v : Value) :
    evalBy (.plain horizon) past f env v = eval horizon f env v :=
  ((Comparison.plain horizon).holds f past env v).symm

end JsonFilter.Filter
