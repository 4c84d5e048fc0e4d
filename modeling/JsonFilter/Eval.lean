import JsonFilter.Operation.Builtin
import JsonFilter.Outputs
import JsonFilter.Pattern.Matching

/-!
Evaluation: a filter takes a value and the variables in scope to a lazy sequence of outputs. Where
two filters meet, the order is that of nested loops: the right operand of an operator is the outer
loop, a target is outside its key, an earlier argument or entry outside a later one. A failure is
an item like any other; only arrays, `try` and `//` look at it.

A horizon bounds how far one `range` counts. Nothing else in a filter goes on without end, so the
outputs at a horizon that cuts nothing are all there are.
-/

namespace JsonFilter

/-- A fault and the range of the token whose filter met it. -/
structure Failure where
  loc : Range
  fault : Fault

/-- Variables and their values, the innermost first. -/
abbrev Env := List (String × Value)

/-- The variable that holds the environment of the program. -/
def environmentName : String := "ENV"

namespace Filter

/-- What filters produce. -/
abbrev Stream := Outputs Failure Value

/-- A fault at a range, as the only output. -/
def fail (loc : Range) (fault : Fault) : Stream := .failure ⟨loc, fault⟩

/-- The result of an operation, told by a range if it fails. -/
def located {α : Type} (loc : Range) (r : Except Fault α) : Except Failure α :=
  r.mapError (Failure.mk loc)

/-- Counts up by one while the count is below a bound. -/
def countFrom : Nat → Number → Number → Stream
  | 0, _, _ => .unfinished
  | horizon + 1, n, upto =>
    if n.cmp upto = .lt then .yield (.ok (.number n)) fun _ => countFrom horizon (n + 1) upto
    else .done

/-- The numbers from one bound up to another; none if a bound is a NaN. -/
def count (horizon : Nat) (low upto : Number) : Stream :=
  if low.isNaN || upto.isNaN then .done else countFrom horizon low upto

/-- The outputs of `range` for the values of its arguments. -/
def rangeOf (horizon : Nat) (loc : Range) : List Value → Stream
  | [.number upto] => count horizon 0 upto
  | [.number low, .number upto] => count horizon low upto
  | _ => fail loc (.misuse .rangeNotNumber)

/-- The first outputs of a sequence, as many as a value says. -/
def limitOf (loc : Range) (limit : Value) (outputs : Unit → Stream) : Stream :=
  match limit with
  | .number n => if 0 < n.toInt then (outputs ()).take n.toInt.toNat else .done
  | v => fail loc (.misuse (.limitNotNumber v))

/-- The answer of a pattern to a question. -/
def answer (loc : Range) (q : Value.Question) : Stream :=
  .request q.source fun
    | .ok automaton => .value (.bool (automaton.isMatch q.text))
    | .error reason => fail loc (.invalidPattern q.pattern reason)

/-- The outputs of `test` for the values of its arguments. -/
def testOf (loc : Range) (input : Value) (args : List Value) : Stream :=
  let q := match args with
    | [pattern] => Value.question input pattern .null
    | [pattern, flags] => Value.question input pattern flags
    | _ => .error (.misuse (.undefined .test args.length))
  match q with
  | .ok q => answer loc q
  | .error fault => fail loc fault

/-- The outputs of a builtin for its input and the values of its arguments. -/
def callOf (horizon : Nat) (loc : Range) (b : Builtin) (input : Value) (args : List Value) :
    Stream :=
  match b with
  | .range => rangeOf horizon loc args
  | .test => testOf loc input args
  | b => .single (located loc (b.apply input args))

mutual

/-- The outputs of a filter. -/
def eval (horizon : Nat) : Filter → Env → Value → Stream
  | .identity _, _, v => .value v
  | .recurse _, _, v => .ofList v.walk
  | .literal _ l, _, _ => .value l.toValue
  | .var _ name, env, _ => .value ((env.lookup name).getD .null)
  | .index loc target key, env, v =>
    (eval horizon target env v).bind fun t =>
      (eval horizon key env v).andThen fun k => located loc (t.index k)
  | .slice loc target low high, env, v =>
    (eval horizon target env v).bind fun t =>
      (evalOr horizon low .null env v).bind fun l =>
        (evalOr horizon high .null env v).andThen fun h => located loc (t.slice l h)
  | .iterate loc target, env, v =>
    (eval horizon target env v).bind fun t =>
      match t.items with
      | .ok items => .ofList items
      | .error fault => fail loc fault
  | .pipe _ left right, env, v => (eval horizon left env v).bind (eval horizon right env)
  | .comma _ left right, env, v =>
    (eval horizon left env v).append fun _ => eval horizon right env v
  | .alternative _ left right, env, v =>
    (eval horizon left env v).keepOr Value.isTruthy fun _ => eval horizon right env v
  | .and _ left right, env, v =>
    (eval horizon left env v).bind fun l =>
      if l.isTruthy then
        (eval horizon right env v).andThen fun r => .ok (.bool r.isTruthy)
      else .value (.bool false)
  | .or _ left right, env, v =>
    (eval horizon left env v).bind fun l =>
      if l.isTruthy then .value (.bool true)
      else (eval horizon right env v).andThen fun r => .ok (.bool r.isTruthy)
  | .binary loc op left right, env, v =>
    (eval horizon right env v).bind fun r =>
      (eval horizon left env v).andThen fun l => located loc (op.apply l r)
  | .negate loc operand, env, v =>
    (eval horizon operand env v).andThen fun n => located loc n.negate
  | .array _ none, _, _ => .value (.array [])
  | .array _ (some body), env, v =>
    ((eval horizon body env v).collect []).andThen fun items => .ok (.array items)
  | .object _ entries, env, v => evalEntries horizon entries [] env v
  | .cond _ branches otherwise, env, v =>
    evalBranches horizon branches (fun _ => evalOr horizon otherwise v env v) env v
  | .attempt _ body none, env, v => (eval horizon body env v).attempt fun _ => .done
  | .attempt _ body (some handler), env, v =>
    (eval horizon body env v).attempt fun e => eval horizon handler env e.fault.caught
  | .bind _ source name body, env, v =>
    (eval horizon source env v).bind fun x => eval horizon body ((name, x) :: env) v
  | .call loc builtin args, env, v =>
    match builtin, args with
    | .empty, [] => .done
    | .recurse, [] => .ofList v.walk
    | .env, [] => .value ((env.lookup environmentName).getD (.object []))
    | .map, [f] =>
      match v.items with
      | .ok items =>
        (((Outputs.ofList items).bind (eval horizon f env)).collect []).andThen fun items =>
          .ok (.array items)
      | .error fault => fail loc fault
    | .select, [f] =>
      (eval horizon f env v).bind fun x => if x.isTruthy then .value v else .done
    | .first, [f] => (eval horizon f env v).take 1
    | .limit, [n, f] =>
      (eval horizon n env v).bind fun n => limitOf loc n fun _ => eval horizon f env v
    | b, args => (evalArgs horizon args env v).bind (callOf horizon loc b v)

/-- The outputs of a filter that may be missing, where a value takes its place. -/
def evalOr (horizon : Nat) : Option Filter → Value → Env → Value → Stream
  | none, other, _, _ => .value other
  | some f, _, env, v => eval horizon f env v

/-- Every combination of the outputs of some filters. -/
def evalArgs (horizon : Nat) : List Filter → Env → Value → Outputs Failure (List Value)
  | [], _, _ => .value []
  | arg :: args, env, v =>
    (eval horizon arg env v).bind fun x =>
      (evalArgs horizon args env v).andThen fun xs => .ok (x :: xs)

/-- Every object that the outputs of its keys and values make, with some fields to begin with. -/
def evalEntries (horizon : Nat) :
    List (Filter × Filter) → Fields Value → Env → Value → Stream
  | [], fields, _, _ => .value (.object fields)
  | (key, value) :: entries, fields, env, v =>
    (eval horizon key env v).bind fun
      | .string k =>
        (eval horizon value env v).bind fun x =>
          evalEntries horizon entries (fields.insert k x) env v
      | k => fail key.loc (.keyNotString k)

/-- For every output of the first test, the branch it chooses. -/
def evalBranches (horizon : Nat) :
    List (Filter × Filter) → (Unit → Stream) → Env → Value → Stream
  | [], otherwise, _, _ => otherwise ()
  | (test, body) :: branches, otherwise, env, v =>
    (eval horizon test env v).bind fun c =>
      if c.isTruthy then eval horizon body env v
      else evalBranches horizon branches otherwise env v

end

attribute [simp] eval evalOr evalArgs evalEntries evalBranches

end Filter

end JsonFilter
