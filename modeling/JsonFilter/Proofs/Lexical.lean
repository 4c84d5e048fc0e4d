import JsonFilter.Proofs.Scope

/-!
Lexical scope. `evalAt` evaluates with a scope that is fixed by the filter alone: a list of names,
which a binding extends in its body, with a frame of values beside it. A variable is read at the
first place of its name in the scope, and what is `stuck` stands for one that has no place there.
On a scoped filter evaluation is the same, whatever stands for what is stuck.
-/

namespace JsonFilter.Filter

/-- The value of a variable: that of the innermost binding of its name. -/
def readAt (scope : List String) (frame : List Value) (name : String) : Option Value :=
  frame[scope.idxOf name]?

mutual

/-- The outputs of a filter whose variables are those of a scope. -/
def evalAt (stuck : Stream) (horizon : Nat) : Filter → List String → List Value → Value → Stream
  | .identity _, _, _, v => .value v
  | .recurse _, _, _, v => .ofList v.walk
  | .literal _ l, _, _, _ => .value l.toValue
  | .var _ name, scope, frame, _ =>
    match readAt scope frame name with
    | some x => .value x
    | none => stuck
  | .index loc target key, scope, frame, v =>
    (evalAt stuck horizon target scope frame v).bind fun t =>
      (evalAt stuck horizon key scope frame v).andThen fun k => located loc (t.index k)
  | .slice loc target low high, scope, frame, v =>
    (evalAt stuck horizon target scope frame v).bind fun t =>
      (evalOrAt stuck horizon low .null scope frame v).bind fun l =>
        (evalOrAt stuck horizon high .null scope frame v).andThen fun h =>
          located loc (t.slice l h)
  | .iterate loc target, scope, frame, v =>
    (evalAt stuck horizon target scope frame v).bind fun t =>
      match t.items with
      | .ok items => .ofList items
      | .error fault => fail loc fault
  | .pipe _ left right, scope, frame, v =>
    (evalAt stuck horizon left scope frame v).bind (evalAt stuck horizon right scope frame)
  | .comma _ left right, scope, frame, v =>
    (evalAt stuck horizon left scope frame v).append fun _ =>
      evalAt stuck horizon right scope frame v
  | .alternative _ left right, scope, frame, v =>
    (evalAt stuck horizon left scope frame v).keepOr Value.isTruthy fun _ =>
      evalAt stuck horizon right scope frame v
  | .and _ left right, scope, frame, v =>
    (evalAt stuck horizon left scope frame v).bind fun l =>
      if l.isTruthy then
        (evalAt stuck horizon right scope frame v).andThen fun r => .ok (.bool r.isTruthy)
      else .value (.bool false)
  | .or _ left right, scope, frame, v =>
    (evalAt stuck horizon left scope frame v).bind fun l =>
      if l.isTruthy then .value (.bool true)
      else (evalAt stuck horizon right scope frame v).andThen fun r => .ok (.bool r.isTruthy)
  | .binary loc op left right, scope, frame, v =>
    (evalAt stuck horizon right scope frame v).bind fun r =>
      (evalAt stuck horizon left scope frame v).andThen fun l => located loc (op.apply l r)
  | .negate loc operand, scope, frame, v =>
    (evalAt stuck horizon operand scope frame v).andThen fun n => located loc n.negate
  | .array _ none, _, _, _ => .value (.array [])
  | .array _ (some body), scope, frame, v =>
    ((evalAt stuck horizon body scope frame v).collect []).andThen fun items => .ok (.array items)
  | .object _ entries, scope, frame, v => evalEntriesAt stuck horizon entries [] scope frame v
  | .cond _ branches otherwise, scope, frame, v =>
    evalBranchesAt stuck horizon branches (fun _ => evalOrAt stuck horizon otherwise v scope frame v)
      scope frame v
  | .attempt _ body none, scope, frame, v =>
    (evalAt stuck horizon body scope frame v).attempt fun _ => .done
  | .attempt _ body (some handler), scope, frame, v =>
    (evalAt stuck horizon body scope frame v).attempt fun e =>
      evalAt stuck horizon handler scope frame e.fault.caught
  | .bind _ source name body, scope, frame, v =>
    (evalAt stuck horizon source scope frame v).bind fun x =>
      evalAt stuck horizon body (name :: scope) (x :: frame) v
  | .call loc builtin args, scope, frame, v =>
    match builtin, args with
    | .empty, [] => .done
    | .recurse, [] => .ofList v.walk
    | .env, [] => .value ((readAt scope frame environmentName).getD (.object []))
    | .map, [f] =>
      match v.items with
      | .ok items =>
        (((Outputs.ofList items).bind (evalAt stuck horizon f scope frame)).collect []).andThen
          fun items => .ok (.array items)
      | .error fault => fail loc fault
    | .select, [f] =>
      (evalAt stuck horizon f scope frame v).bind fun x => if x.isTruthy then .value v else .done
    | .first, [f] => (evalAt stuck horizon f scope frame v).take 1
    | .limit, [n, f] =>
      (evalAt stuck horizon n scope frame v).bind fun n =>
        limitOf loc n fun _ => evalAt stuck horizon f scope frame v
    | b, args => (evalArgsAt stuck horizon args scope frame v).bind (callOf horizon loc b v)

/-- `evalAt` for a filter that may be missing, where a value takes its place. -/
def evalOrAt (stuck : Stream) (horizon : Nat) :
    Option Filter → Value → List String → List Value → Value → Stream
  | none, other, _, _, _ => .value other
  | some f, _, scope, frame, v => evalAt stuck horizon f scope frame v

/-- Every combination of the outputs of some filters. -/
def evalArgsAt (stuck : Stream) (horizon : Nat) :
    List Filter → List String → List Value → Value → Outputs Failure (List Value)
  | [], _, _, _ => .value []
  | arg :: args, scope, frame, v =>
    (evalAt stuck horizon arg scope frame v).bind fun x =>
      (evalArgsAt stuck horizon args scope frame v).andThen fun xs => .ok (x :: xs)

/-- Every object that the outputs of its keys and values make, with some fields to begin with. -/
def evalEntriesAt (stuck : Stream) (horizon : Nat) :
    List (Filter × Filter) → Fields Value → List String → List Value → Value → Stream
  | [], fields, _, _, _ => .value (.object fields)
  | (key, value) :: entries, fields, scope, frame, v =>
    (evalAt stuck horizon key scope frame v).bind fun
      | .string k =>
        (evalAt stuck horizon value scope frame v).bind fun x =>
          evalEntriesAt stuck horizon entries (fields.insert k x) scope frame v
      | k => fail key.loc (.keyNotString k)

/-- For every output of the first test, the branch it chooses. -/
def evalBranchesAt (stuck : Stream) (horizon : Nat) :
    List (Filter × Filter) → (Unit → Stream) → List String → List Value → Value → Stream
  | [], otherwise, _, _, _ => otherwise ()
  | (test, body) :: branches, otherwise, scope, frame, v =>
    (evalAt stuck horizon test scope frame v).bind fun c =>
      if c.isTruthy then evalAt stuck horizon body scope frame v
      else evalBranchesAt stuck horizon branches otherwise scope frame v

end

/-! ## Places -/

/-- A list of bindings is read at the first place of a name. -/
theorem lookup_zip (name : String) : ∀ {scope : List String} {frame : List Value},
    scope.length = frame.length → (scope.zip frame).lookup name = readAt scope frame name
  | [], [], _ => rfl
  | s :: scope, x :: frame, h => by
    have hlen : scope.length = frame.length := Nat.succ.inj h
    unfold readAt
    rw [List.zip_cons_cons, List.lookup_cons, List.idxOf_cons, BEq.comm]
    cases s == name with
    | true => rfl
    | false => exact lookup_zip name hlen

/-- A name of the scope has a value. -/
theorem readAt_isSome {name : String} {scope : List String} {frame : List Value}
    (h : name ∈ scope) (hlen : scope.length = frame.length) :
    ∃ x, readAt scope frame name = some x := by
  have hplace : scope.idxOf name < frame.length := hlen ▸ List.idxOf_lt_length_of_mem h
  exact ⟨_, List.getElem?_eq_getElem hplace⟩

/-! ## Evaluation -/

theorem evalArgs_eq_evalArgsAt {stuck : Stream} {horizon : Nat} {args : List Filter}
    {scope : List String} {frame : List Value} (v : Value)
    (h : ∀ f ∈ args, ∀ v : Value,
      eval horizon f (scope.zip frame) v = evalAt stuck horizon f scope frame v) :
    evalArgs horizon args (scope.zip frame) v = evalArgsAt stuck horizon args scope frame v := by
  induction args with
  | nil => rfl
  | cons f fs ih =>
    simp only [evalArgs, evalArgsAt, h f List.mem_cons_self,
      ih fun g hg => h g (List.mem_cons_of_mem f hg)]

/-- A call, by the builtins that look at their arguments in a way of their own. -/
theorem evalCall_eq_evalAt (stuck : Stream) (horizon : Nat) (loc : Range) (b : Builtin)
    {args : List Filter} {scope : List String} {frame : List Value} (v : Value)
    (hlen : scope.length = frame.length)
    (h : ∀ f ∈ args, ∀ v : Value,
      eval horizon f (scope.zip frame) v = evalAt stuck horizon f scope frame v) :
    eval horizon (.call loc b args) (scope.zip frame) v =
      evalAt stuck horizon (.call loc b args) scope frame v := by
  have hargs : (evalArgs horizon args (scope.zip frame) v).bind (callOf horizon loc b v) =
      (evalArgsAt stuck horizon args scope frame v).bind (callOf horizon loc b v) := by
    rw [evalArgs_eq_evalArgsAt v h]
  -- With a number of arguments that it does not accept, a builtin is called like any other.
  rcases args with _ | ⟨f, _ | ⟨g, _ | ⟨k, args⟩⟩⟩
  · cases b with
    | env => simp only [eval, evalAt, lookup_zip _ hlen]
    | _ => first | exact hargs | rfl
  · have hf : eval horizon f (scope.zip frame) = evalAt stuck horizon f scope frame :=
      funext (h f List.mem_cons_self)
    cases b with
    | map => cases hitems : v.items <;> simp only [eval, evalAt, hf, hitems]
    | select => simp only [eval, evalAt, hf]
    | first => simp only [eval, evalAt, hf]
    | _ => exact hargs
  · cases b with
    | limit =>
      have hf := h f List.mem_cons_self v
      have hg := h g (List.mem_cons_of_mem f List.mem_cons_self) v
      simp only [eval, evalAt, hf, hg]
    | _ => exact hargs
  · cases b <;> exact hargs

mutual

/-- Evaluation of a scoped filter reads every variable at its place. -/
theorem eval_eq_evalAt (stuck : Stream) (horizon : Nat) :
    ∀ (f : Filter) {scope : List String} {frame : List Value} (v : Value), f.Scoped scope →
      scope.length = frame.length →
      eval horizon f (scope.zip frame) v = evalAt stuck horizon f scope frame v
  | .identity _, _, _, _, _, _ => rfl
  | .recurse _, _, _, _, _, _ => rfl
  | .literal _ _, _, _, _, _, _ => rfl
  | .var _ name, scope, frame, _, h, hlen => by
    obtain ⟨x, hx⟩ := readAt_isSome h hlen
    simp only [eval, evalAt, lookup_zip name hlen, hx, Option.getD_some]
  | .index _ target key, _, _, v, ⟨ht, hk⟩, hlen => by
    simp only [eval, evalAt, eval_eq_evalAt stuck horizon target v ht hlen,
      eval_eq_evalAt stuck horizon key v hk hlen]
  | .slice _ target low high, _, _, v, ⟨ht, hl, hh⟩, hlen => by
    simp only [eval, evalAt, eval_eq_evalAt stuck horizon target v ht hlen,
      evalOr_eq_evalOrAt stuck horizon low .null v hl hlen,
      evalOr_eq_evalOrAt stuck horizon high .null v hh hlen]
  | .iterate _ target, _, _, v, ht, hlen => by
    rw [eval, eval_eq_evalAt stuck horizon target v ht hlen]
    rfl
  | .pipe _ left right, _, _, v, ⟨hl, hr⟩, hlen => by
    simp only [eval, evalAt, eval_eq_evalAt stuck horizon left v hl hlen]
    congr 1
    funext x
    exact eval_eq_evalAt stuck horizon right x hr hlen
  | .comma _ left right, _, _, v, ⟨hl, hr⟩, hlen => by
    simp only [eval, evalAt, eval_eq_evalAt stuck horizon left v hl hlen,
      eval_eq_evalAt stuck horizon right v hr hlen]
  | .alternative _ left right, _, _, v, ⟨hl, hr⟩, hlen => by
    simp only [eval, evalAt, eval_eq_evalAt stuck horizon left v hl hlen,
      eval_eq_evalAt stuck horizon right v hr hlen]
  | .and _ left right, _, _, v, ⟨hl, hr⟩, hlen => by
    simp only [eval, evalAt, eval_eq_evalAt stuck horizon left v hl hlen,
      eval_eq_evalAt stuck horizon right v hr hlen]
  | .or _ left right, _, _, v, ⟨hl, hr⟩, hlen => by
    simp only [eval, evalAt, eval_eq_evalAt stuck horizon left v hl hlen,
      eval_eq_evalAt stuck horizon right v hr hlen]
  | .binary _ _ left right, _, _, v, ⟨hl, hr⟩, hlen => by
    simp only [eval, evalAt, eval_eq_evalAt stuck horizon left v hl hlen,
      eval_eq_evalAt stuck horizon right v hr hlen]
  | .negate _ operand, _, _, v, h, hlen => by
    simp only [eval, evalAt, eval_eq_evalAt stuck horizon operand v h hlen]
  | .array _ none, _, _, _, _, _ => by simp only [eval, evalAt]
  | .array _ (some body), _, _, v, h, hlen => by
    simp only [eval, evalAt, eval_eq_evalAt stuck horizon body v h hlen]
  | .object _ entries, _, _, v, h, hlen => by
    simp only [eval, evalAt, evalEntries_eq_evalEntriesAt stuck horizon entries [] v h hlen]
  | .cond _ branches otherwise, _, _, v, ⟨hb, ho⟩, hlen => by
    simp only [eval, evalAt, evalOr_eq_evalOrAt stuck horizon otherwise v v ho hlen,
      evalBranches_eq_evalBranchesAt stuck horizon branches _ v hb hlen]
  | .attempt _ body none, _, _, v, ⟨hb, _⟩, hlen => by
    simp only [eval, evalAt, eval_eq_evalAt stuck horizon body v hb hlen]
  | .attempt _ body (some handler), _, _, v, ⟨hb, hh⟩, hlen => by
    simp only [eval, evalAt, eval_eq_evalAt stuck horizon body v hb hlen]
    congr 1
    funext e
    exact eval_eq_evalAt stuck horizon handler _ hh hlen
  | .bind _ source name body, scope, frame, v, ⟨hs, hb⟩, hlen => by
    simp only [eval, evalAt, eval_eq_evalAt stuck horizon source v hs hlen]
    congr 1
    funext x
    -- The name and its value come first in both lists.
    show eval horizon body ((name :: scope).zip (x :: frame)) v = _
    exact eval_eq_evalAt stuck horizon body v hb (by rw [List.length_cons, hlen, List.length_cons])
  | .call loc builtin args, _, _, v, ⟨_, hargs⟩, hlen =>
    evalCall_eq_evalAt stuck horizon loc builtin v hlen
      (evalList_eq_evalAt stuck horizon args hargs hlen)

theorem evalOr_eq_evalOrAt (stuck : Stream) (horizon : Nat) :
    ∀ (f : Option Filter) (other : Value) {scope : List String} {frame : List Value} (v : Value),
      ScopedOption f scope → scope.length = frame.length →
      evalOr horizon f other (scope.zip frame) v = evalOrAt stuck horizon f other scope frame v
  | none, _, _, _, _, _, _ => rfl
  | some f, _, _, _, v, h, hlen => eval_eq_evalAt stuck horizon f v h hlen

theorem evalList_eq_evalAt (stuck : Stream) (horizon : Nat) :
    ∀ (fs : List Filter) {scope : List String} {frame : List Value}, ScopedList fs scope →
      scope.length = frame.length → ∀ f ∈ fs, ∀ v : Value,
        eval horizon f (scope.zip frame) v = evalAt stuck horizon f scope frame v
  | f :: fs, _, _, ⟨hf, hfs⟩, hlen, g, hg, v => by
    cases hg with
    | head => exact eval_eq_evalAt stuck horizon f v hf hlen
    | tail _ hg => exact evalList_eq_evalAt stuck horizon fs hfs hlen g hg v

theorem evalEntries_eq_evalEntriesAt (stuck : Stream) (horizon : Nat) :
    ∀ (ps : List (Filter × Filter)) (fields : Fields Value) {scope : List String}
      {frame : List Value} (v : Value), ScopedPairs ps scope → scope.length = frame.length →
      evalEntries horizon ps fields (scope.zip frame) v =
        evalEntriesAt stuck horizon ps fields scope frame v
  | [], _, _, _, _, _, _ => rfl
  | (f, g) :: ps, fields, scope, frame, v, ⟨hf, hg, hps⟩, hlen => by
    simp only [evalEntries, evalEntriesAt, eval_eq_evalAt stuck horizon f v hf hlen]
    congr 1
    funext k
    cases k with
    | string k =>
      simp only [eval_eq_evalAt stuck horizon g v hg hlen]
      congr 1
      funext x
      exact evalEntries_eq_evalEntriesAt stuck horizon ps _ v hps hlen
    | _ => rfl

theorem evalBranches_eq_evalBranchesAt (stuck : Stream) (horizon : Nat) :
    ∀ (ps : List (Filter × Filter)) (otherwise : Unit → Stream) {scope : List String}
      {frame : List Value} (v : Value), ScopedPairs ps scope → scope.length = frame.length →
      evalBranches horizon ps otherwise (scope.zip frame) v =
        evalBranchesAt stuck horizon ps otherwise scope frame v
  | [], _, _, _, _, _, _ => rfl
  | (f, g) :: ps, otherwise, _, _, v, ⟨hf, hg, hps⟩, hlen => by
    simp only [evalBranches, evalBranchesAt, eval_eq_evalAt stuck horizon f v hf hlen,
      eval_eq_evalAt stuck horizon g v hg hlen,
      evalBranches_eq_evalBranchesAt stuck horizon ps otherwise v hps hlen]

end

end JsonFilter.Filter
