import JsonFilter.Proofs.Outputs
import JsonFilter.Proofs.Scope

/-!
What can fail in a run. Every builtin has an answer of its own for the numbers of arguments that it
accepts, so in a scoped filter no failure says that a builtin is not defined. The property of
failures is kept by every combinator of sequences, and then by every filter.
-/

namespace JsonFilter

namespace Outputs

variable {ε ε' α β : Type} {P : ε → Prop}

/-- Every failure of a sequence has a property, whatever the patterns are that it asks for. -/
inductive FailsOnly (P : ε → Prop) : Outputs ε α → Prop where
  | done : FailsOnly P .done
  | unfinished : FailsOnly P .unfinished
  | value {a : α} {rest : Unit → Outputs ε α} :
      FailsOnly P (rest ()) → FailsOnly P (.yield (.ok a) rest)
  | failure {e : ε} {rest : Unit → Outputs ε α} :
      P e → FailsOnly P (rest ()) → FailsOnly P (.yield (.error e) rest)
  | request {source : String} {resume : Except Pattern.Error Pattern.Automaton → Outputs ε α} :
      (∀ p, FailsOnly P (resume p)) → FailsOnly P (.request source resume)

namespace FailsOnly

theorem single {item : Except ε α} (h : ∀ e, item = .error e → P e) :
    (Outputs.single item).FailsOnly P := by
  cases item with
  | ok a => exact .value .done
  | error e => exact .failure (h e rfl) .done

theorem ofValue (a : α) : (Outputs.value a).FailsOnly P := .value .done

theorem ofList (as : List α) : (Outputs.ofList as).FailsOnly P := by
  induction as with
  | nil => exact .done
  | cons a as ih => exact .value ih

theorem append {o : Outputs ε α} {more : Unit → Outputs ε α} (ho : o.FailsOnly P)
    (hmore : (more ()).FailsOnly P) : (o.append more).FailsOnly P := by
  induction ho with
  | done => exact hmore
  | unfinished => exact .unfinished
  | value _ ih => exact .value ih
  | failure he _ ih => exact .failure he ih
  | request _ ih => exact .request ih

theorem bind {o : Outputs ε α} {f : α → Outputs ε β} (ho : o.FailsOnly P)
    (hf : ∀ a, (f a).FailsOnly P) : (o.bind f).FailsOnly P := by
  induction ho with
  | done => exact .done
  | unfinished => exact .unfinished
  | value _ ih =>
    rw [yield_ok_bind]
    exact (hf _).append ih
  | failure he _ ih => exact .failure he ih
  | request _ ih => exact .request ih

theorem andThen {o : Outputs ε α} {f : α → Except ε β} (ho : o.FailsOnly P)
    (hf : ∀ a e, f a = .error e → P e) : (o.andThen f).FailsOnly P :=
  ho.bind fun a => single (hf a)

theorem take {o : Outputs ε α} (ho : o.FailsOnly P) (n : Nat) : (o.take n).FailsOnly P := by
  induction ho generalizing n with
  | done => exact .done
  | unfinished =>
    unfold Outputs.take
    split
    · exact .done
    · exact .unfinished
  | value _ ih =>
    unfold Outputs.take
    split
    · exact .done
    · refine .value ?_
      split
      · exact .done
      · exact ih _
  | failure he _ ih =>
    unfold Outputs.take
    split
    · exact .done
    · refine .failure he ?_
      split
      · exact .done
      · exact ih _
  | request _ ih =>
    unfold Outputs.take
    split
    · exact .done
    · exact .request fun p => ih p n

theorem collect {o : Outputs ε α} (ho : o.FailsOnly P) (taken : List α) :
    (o.collect taken).FailsOnly P := by
  induction ho generalizing taken with
  | done => exact ofValue _
  | unfinished => exact .unfinished
  | value _ ih => exact ih _
  | failure he _ _ => exact .failure he .done
  | request _ ih => exact .request fun p => ih p taken

/-- What is kept has no failures at all. -/
theorem keep (p : α → Bool) (o : Outputs ε α) : (o.keep p).FailsOnly P := by
  induction o with
  | done => exact .done
  | unfinished => exact .unfinished
  | yield item rest ih =>
    cases item with
    | ok a =>
      unfold Outputs.keep
      split
      · exact .value (ih ())
      · exact ih ()
    | error e => exact ih ()
  | request _ _ ih => exact .request ih

theorem keepOr (p : α → Bool) (o : Outputs ε α) {other : Unit → Outputs ε α}
    (hother : (other ()).FailsOnly P) : (o.keepOr p other).FailsOnly P := by
  induction o with
  | done => exact hother
  | unfinished => exact .unfinished
  | yield item rest ih =>
    cases item with
    | ok a =>
      unfold Outputs.keepOr
      split
      · exact .value (keep p _)
      · exact ih ()
    | error e => exact ih ()
  | request _ _ ih => exact .request ih

theorem attempt (o : Outputs ε' α) {handler : ε' → Outputs ε α}
    (hh : ∀ e, (handler e).FailsOnly P) : (o.attempt handler).FailsOnly P := by
  induction o with
  | done => exact .done
  | unfinished => exact .unfinished
  | yield item rest ih =>
    cases item with
    | ok a => exact .value (ih ())
    | error e => exact hh e
  | request _ _ ih => exact .request ih

end FailsOnly

end Outputs

/-! ## Operations -/

/-- The fault is not that a builtin is not defined. -/
def Fault.Defined : Fault → Prop
  | .misuse (.undefined _ _) => False
  | _ => True

/-- An operation that never fails because a builtin is not defined. -/
def Answers {α : Type} (r : Except Fault α) : Prop := ∀ f, r = .error f → f.Defined

namespace Answers

variable {α β : Type}

theorem ok (a : α) : Answers (.ok a) := by
  intro f h
  cases h

theorem error {f : Fault} (h : f.Defined) : Answers (.error f : Except Fault α) := by
  intro g hg
  obtain rfl := Except.error.inj hg
  exact h

theorem bind {x : Except Fault α} {f : α → Except Fault β} (hx : Answers x)
    (hf : ∀ a, Answers (f a)) : Answers (x >>= f) := by
  cases x with
  | ok a => exact hf a
  | error e => exact error (hx e rfl)

theorem foldlM {f : β → α → Except Fault β} (hf : ∀ b a, Answers (f b a)) (as : List α) (b : β) :
    Answers (as.foldlM f b) := by
  induction as generalizing b with
  | nil => exact ok b
  | cons a as ih => exact bind (hf b a) ih

theorem mapM {f : α → Except Fault β} (hf : ∀ a, Answers (f a)) (as : List α) :
    Answers (as.mapM f) := by
  induction as with
  | nil => exact ok []
  | cons a as ih =>
    rw [List.mapM_cons]
    exact bind (hf a) fun b => bind ih fun bs => ok (b :: bs)

end Answers

namespace Value

theorem index_answers (target key : Value) : Answers (target.index key) := by
  unfold index
  split
  all_goals first | exact .ok _ | exact .error trivial

theorem bound?_answers (v : Value) : Answers (bound? v) := by
  unfold bound?
  split
  all_goals first | exact .ok _ | exact .error trivial

theorem slice_answers (target low high : Value) : Answers (target.slice low high) := by
  refine (bound?_answers low).bind fun l => (bound?_answers high).bind fun h => ?_
  split
  all_goals first | exact .ok _ | exact .error trivial

theorem items_answers (v : Value) : Answers v.items := by
  unfold items
  split
  all_goals first | exact .ok _ | exact .error trivial

theorem itemsOrNone_answers (v : Value) : Answers v.itemsOrNone := by
  unfold itemsOrNone
  split
  · exact .ok _
  · exact items_answers v

theorem negate_answers (v : Value) : Answers v.negate := by
  unfold negate
  split
  all_goals first | exact .ok _ | exact .error trivial

theorem add_answers (a b : Value) : Answers (a.add b) := by
  unfold add
  split
  all_goals first | exact .ok _ | exact .error trivial

theorem sub_answers (a b : Value) : Answers (a.sub b) := by
  unfold sub
  split
  all_goals first | exact .ok _ | exact .error trivial

theorem repeatString_answers (s : String) (n : Number) : Answers (repeatString s n) := by
  unfold repeatString
  split
  · exact .ok _
  · split
    · exact .ok _
    · exact .error trivial

theorem mul_answers (a b : Value) : Answers (a.mul b) := by
  unfold mul
  split
  all_goals first | exact .ok _ | exact repeatString_answers _ _ | exact .error trivial

theorem div_answers (a b : Value) : Answers (a.div b) := by
  unfold div
  split
  · split
    · exact .error trivial
    · exact .ok _
  · exact .ok _
  · exact .error trivial

theorem rem_answers (a b : Value) : Answers (a.rem b) := by
  unfold rem
  split
  · split
    · exact .error trivial
    · exact .ok _
  · exact .error trivial

theorem length_answers (v : Value) : Answers v.length := by
  unfold length
  split
  all_goals first | exact .ok _ | exact .error trivial

theorem byteLength_answers (v : Value) : Answers v.byteLength := by
  unfold byteLength
  split
  all_goals first | exact .ok _ | exact .error trivial

theorem keys_answers (v : Value) : Answers v.keys := by
  unfold keys
  split
  all_goals first | exact .ok _ | exact .error trivial

theorem has_answers (v key : Value) : Answers (v.has key) := by
  unfold has
  split
  all_goals first | exact .ok _ | exact .error trivial

theorem toNumber_answers (v : Value) : Answers v.toNumber := by
  unfold toNumber
  split
  · exact .ok _
  · split
    · exact .ok _
    · exact .error trivial
  · exact .error trivial

theorem ofJson_answers (v : Value) : Answers v.ofJson := by
  unfold ofJson
  split
  · split
    · exact .ok _
    · exact .error trivial
  · exact .error trivial

theorem sum_answers (v : Value) : Answers v.sum :=
  v.itemsOrNone_answers.bind fun items => .foldlM add_answers items .null

theorem any_answers (v : Value) : Answers v.any := v.itemsOrNone_answers.bind fun _ => .ok _

theorem all_answers (v : Value) : Answers v.all := v.itemsOrNone_answers.bind fun _ => .ok _

theorem changeCase_answers (b : Builtin) (change : Char → Char) (v : Value) :
    Answers (v.changeCase b change) := by
  unfold changeCase
  split
  all_goals first | exact .ok _ | exact .error trivial

theorem reverse_answers (v : Value) : Answers v.reverse := by
  unfold reverse
  split
  all_goals first | exact .ok _ | exact .error trivial

theorem sort_answers (v : Value) : Answers v.sort := by
  unfold sort
  split
  all_goals first | exact .ok _ | exact .error trivial

theorem joinable_answers (v : Value) : Answers (joinable v) := by
  unfold joinable
  split
  all_goals first | exact .ok _ | exact .error trivial

theorem splitAt_answers (v separator : Value) : Answers (v.splitAt separator) := by
  unfold splitAt
  split
  all_goals first | exact .ok _ | exact .error trivial

theorem affix_answers (b : Builtin) (holds : String → String → Bool) (v part : Value) :
    Answers (v.affix b holds part) := by
  unfold affix
  split
  all_goals first | exact .ok _ | exact .error trivial

theorem join_answers (v separator : Value) : Answers (v.join separator) := by
  unfold join
  split
  · exact v.itemsOrNone_answers.bind fun items => (Answers.mapM joinable_answers items).bind
      fun _ => .ok _
  · exact .error trivial

theorem question_answers (input pattern flags : Value) : Answers (question input pattern flags) := by
  unfold question
  split
  · next text pattern =>
    cases flags with
    | null =>
      dsimp only [Bind.bind, Except.bind]
      split
      · exact .ok _
      · exact .error trivial
    | string s =>
      dsimp only [Bind.bind, Except.bind]
      split
      · exact .ok _
      · exact .error trivial
    | _ => exact .error trivial
  all_goals exact .error trivial

end Value

theorem BinaryOp.apply_answers (op : BinaryOp) (a b : Value) : Answers (op.apply a b) := by
  cases op with
  | add => exact a.add_answers b
  | sub => exact a.sub_answers b
  | mul => exact a.mul_answers b
  | div => exact a.div_answers b
  | rem => exact a.rem_answers b
  | _ => exact .ok _

namespace Builtin

open Value

theorem eq_nil_of_length {α : Type} {xs : List α} (h : (xs.length == 0) = true) : xs = [] :=
  List.length_eq_zero_iff.mp (beq_iff_eq.mp h)

theorem eq_singleton_of_length {α : Type} {xs : List α} (h : (xs.length == 1) = true) :
    ∃ x, xs = [x] :=
  List.length_eq_one_iff.mp (beq_iff_eq.mp h)

theorem eq_pair_of_length {α : Type} {xs : List α} (h : (xs.length == 2) = true) :
    ∃ x y, xs = [x, y] := by
  rcases xs with _ | ⟨x, _ | ⟨y, _ | ⟨z, xs⟩⟩⟩
  · cases h
  · cases h
  · exact ⟨x, y, rfl⟩
  · simp at h

/-- The builtins whose arguments are not evaluated to values first. -/
def isLazy : Builtin → Bool
  | .empty => true
  | .recurse => true
  | .env => true
  | .map => true
  | .select => true
  | .first => true
  | .limit => true
  | _ => false

theorem apply_answers {b : Builtin} {input : Value} {args : List Value}
    (h : b.accepts args.length) (hlazy : b.isLazy = false) (htest : b ≠ .test)
    (hrange : b ≠ .range) : Answers (b.apply input args) := by
  -- The number of arguments that a builtin accepts settles their form.
  cases b with
  | error =>
    rcases args with _ | ⟨payload, _ | ⟨_, _⟩⟩
    · exact .error trivial
    · exact .error trivial
    · simp [accepts] at h
  | not => rw [eq_nil_of_length h]; exact .ok _
  | length => rw [eq_nil_of_length h]; exact input.length_answers
  | utf8ByteLength => rw [eq_nil_of_length h]; exact input.byteLength_answers
  | keys => rw [eq_nil_of_length h]; exact input.keys_answers
  | has =>
    obtain ⟨key, rfl⟩ := eq_singleton_of_length h
    exact input.has_answers key
  | add => rw [eq_nil_of_length h]; exact input.sum_answers
  | any => rw [eq_nil_of_length h]; exact input.any_answers
  | all => rw [eq_nil_of_length h]; exact input.all_answers
  | type => rw [eq_nil_of_length h]; exact .ok _
  | toString => rw [eq_nil_of_length h]; exact .ok _
  | toNumber => rw [eq_nil_of_length h]; exact input.toNumber_answers
  | toJson => rw [eq_nil_of_length h]; exact .ok _
  | fromJson => rw [eq_nil_of_length h]; exact input.ofJson_answers
  | asciiDowncase => rw [eq_nil_of_length h]; exact input.changeCase_answers _ _
  | asciiUpcase => rw [eq_nil_of_length h]; exact input.changeCase_answers _ _
  | reverse => rw [eq_nil_of_length h]; exact input.reverse_answers
  | sort => rw [eq_nil_of_length h]; exact input.sort_answers
  | join =>
    obtain ⟨separator, rfl⟩ := eq_singleton_of_length h
    exact input.join_answers separator
  | split =>
    obtain ⟨separator, rfl⟩ := eq_singleton_of_length h
    exact input.splitAt_answers separator
  | startsWith =>
    obtain ⟨part, rfl⟩ := eq_singleton_of_length h
    exact input.affix_answers _ _ part
  | endsWith =>
    obtain ⟨part, rfl⟩ := eq_singleton_of_length h
    exact input.affix_answers _ _ part
  | test => exact absurd rfl htest
  | range => exact absurd rfl hrange
  | _ => cases hlazy

end Builtin

/-! ## Filters -/

/-- The failure is not that a builtin is not defined. -/
def Failure.Defined (e : Failure) : Prop := e.fault.Defined

namespace Filter

theorem of_located {α : Type} {loc : Range} {r : Except Fault α} (h : Answers r) :
    ∀ e, located loc r = .error e → e.Defined := by
  intro e he
  cases r with
  | ok a => cases he
  | error f =>
    obtain rfl := Except.error.inj he
    exact h f rfl

theorem fail_failsOnly (loc : Range) {fault : Fault} (h : fault.Defined) :
    (fail loc fault).FailsOnly Failure.Defined := .failure h .done

theorem countFrom_failsOnly (horizon : Nat) (n upto : Number) :
    (countFrom horizon n upto).FailsOnly Failure.Defined := by
  induction horizon generalizing n with
  | zero => exact .unfinished
  | succ horizon ih =>
    unfold countFrom
    split
    · exact .value (ih _)
    · exact .done

theorem count_failsOnly (horizon : Nat) (low upto : Number) :
    (count horizon low upto).FailsOnly Failure.Defined := by
  unfold count
  split
  · exact .done
  · exact countFrom_failsOnly horizon low upto

theorem rangeOf_failsOnly (horizon : Nat) (loc : Range) (args : List Value) :
    (rangeOf horizon loc args).FailsOnly Failure.Defined := by
  unfold rangeOf
  split
  · exact count_failsOnly horizon _ _
  · exact count_failsOnly horizon _ _
  · exact fail_failsOnly loc trivial

theorem limitOf_failsOnly (loc : Range) (limit : Value) {outputs : Unit → Stream}
    (h : (outputs ()).FailsOnly Failure.Defined) :
    (limitOf loc limit outputs).FailsOnly Failure.Defined := by
  unfold limitOf
  split
  · split
    · exact h.take _
    · exact .done
  · exact fail_failsOnly loc trivial

theorem answer_failsOnly (loc : Range) (q : Value.Question) :
    (answer loc q).FailsOnly Failure.Defined := by
  refine .request fun p => ?_
  cases p with
  | ok automaton => exact .ofValue _
  | error reason => exact fail_failsOnly loc trivial

theorem testOf_failsOnly (loc : Range) (input : Value) {args : List Value}
    (h : Builtin.test.accepts args.length) :
    (testOf loc input args).FailsOnly Failure.Defined := by
  unfold testOf
  dsimp only
  split
  · exact answer_failsOnly loc _
  · next fault hfault =>
    refine fail_failsOnly loc ?_
    split at hfault
    · exact Value.question_answers _ _ _ fault hfault
    · exact Value.question_answers _ _ _ fault hfault
    · next hone htwo =>
      rcases args with _ | ⟨x, _ | ⟨y, _ | ⟨z, args⟩⟩⟩
      · simp [Builtin.accepts] at h
      · exact absurd rfl (hone x)
      · exact absurd rfl (htwo x y)
      · simp [Builtin.accepts] at h

theorem callOf_failsOnly (horizon : Nat) (loc : Range) {b : Builtin} (input : Value)
    {args : List Value} (h : b.accepts args.length) (hlazy : b.isLazy = false) :
    (callOf horizon loc b input args).FailsOnly Failure.Defined := by
  unfold callOf
  split
  · exact rangeOf_failsOnly horizon loc args
  · exact testOf_failsOnly loc input h
  · next hrange htest => exact .single (of_located (Builtin.apply_answers h hlazy htest hrange))

/-- What is done with the values of arguments may rely on their number. -/
theorem evalArgs_bind_failsOnly {horizon : Nat} {args : List Filter} {env : Env} {v : Value}
    {k : List Value → Stream} (h : ∀ f ∈ args, ∀ v, (eval horizon f env v).FailsOnly Failure.Defined)
    (hk : ∀ xs, xs.length = args.length → (k xs).FailsOnly Failure.Defined) :
    ((evalArgs horizon args env v).bind k).FailsOnly Failure.Defined := by
  induction args generalizing k with
  | nil =>
    rw [evalArgs, Outputs.value_bind]
    exact hk [] rfl
  | cons f fs ih =>
    rw [evalArgs, Outputs.bind_assoc]
    refine (h f List.mem_cons_self v).bind fun x => ?_
    rw [Outputs.andThen, Outputs.bind_assoc]
    refine ih (fun g hg => h g (List.mem_cons_of_mem f hg)) fun xs hxs => ?_
    show ((Outputs.value (x :: xs)).bind k).FailsOnly Failure.Defined
    rw [Outputs.value_bind]
    exact hk _ (congrArg Nat.succ hxs)

theorem evalCall_failsOnly (horizon : Nat) (loc : Range) {b : Builtin} {args : List Filter}
    (hb : b.accepts args.length) (env : Env) (v : Value)
    (h : ∀ f ∈ args, ∀ v, (eval horizon f env v).FailsOnly Failure.Defined) :
    (eval horizon (.call loc b args) env v).FailsOnly Failure.Defined := by
  have hargs (hlazy : b.isLazy = false) :
      ((evalArgs horizon args env v).bind (callOf horizon loc b v)).FailsOnly Failure.Defined :=
    evalArgs_bind_failsOnly h fun xs hxs => callOf_failsOnly horizon loc v (hxs ▸ hb) hlazy
  -- Builtins that evaluate an argument when they need it, and then all others.
  cases b with
  | empty =>
    rw [Builtin.eq_nil_of_length hb]
    exact .done
  | recurse =>
    rw [Builtin.eq_nil_of_length hb]
    exact .ofList _
  | env =>
    rw [Builtin.eq_nil_of_length hb]
    exact .ofValue _
  | map =>
    obtain ⟨f, rfl⟩ := Builtin.eq_singleton_of_length hb
    simp only [eval]
    split
    · next items _ =>
      have hitems := (Outputs.FailsOnly.ofList items).bind (h f List.mem_cons_self)
      refine (hitems.collect []).andThen fun items e he => ?_
      cases he
    · next fault hfault => exact fail_failsOnly loc (v.items_answers fault hfault)
  | select =>
    obtain ⟨f, rfl⟩ := Builtin.eq_singleton_of_length hb
    simp only [eval]
    refine (h f List.mem_cons_self v).bind fun x => ?_
    split
    · exact .ofValue _
    · exact .done
  | first =>
    obtain ⟨f, rfl⟩ := Builtin.eq_singleton_of_length hb
    simp only [eval]
    exact (h f List.mem_cons_self v).take 1
  | limit =>
    obtain ⟨n, f, rfl⟩ := Builtin.eq_pair_of_length hb
    simp only [eval]
    exact (h n List.mem_cons_self v).bind fun x =>
      limitOf_failsOnly loc x (h f (List.mem_cons_of_mem n List.mem_cons_self) v)
  | error => rcases args with _ | ⟨f, _ | ⟨g, args⟩⟩ <;> exact hargs rfl
  | test => rcases args with _ | ⟨f, _ | ⟨g, args⟩⟩ <;> exact hargs rfl
  | _ => exact hargs rfl

mutual

/-- No run of a scoped filter fails because a builtin is not defined. -/
theorem eval_failsOnly (horizon : Nat) :
    ∀ (f : Filter) {scope : List String}, f.Scoped scope → ∀ (env : Env) (v : Value),
      (eval horizon f env v).FailsOnly Failure.Defined
  | .identity _, _, _, _, v => .ofValue v
  | .recurse _, _, _, _, v => .ofList v.walk
  | .literal _ l, _, _, _, _ => .ofValue l.toValue
  | .var _ _, _, _, _, _ => .ofValue _
  | .index _ target key, _, ⟨ht, hk⟩, env, v =>
    (eval_failsOnly horizon target ht env v).bind fun t =>
      (eval_failsOnly horizon key hk env v).andThen fun k => of_located (t.index_answers k)
  | .slice _ target low high, _, ⟨ht, hl, hh⟩, env, v =>
    (eval_failsOnly horizon target ht env v).bind fun t =>
      (evalOr_failsOnly horizon low hl .null env v).bind fun l =>
        (evalOr_failsOnly horizon high hh .null env v).andThen fun h =>
          of_located (t.slice_answers l h)
  | .iterate loc target, _, ht, env, v => by
    refine (eval_failsOnly horizon target ht env v).bind fun t => ?_
    split
    · exact .ofList _
    · next fault hfault => exact fail_failsOnly loc (t.items_answers fault hfault)
  | .pipe _ left right, _, ⟨hl, hr⟩, env, v =>
    (eval_failsOnly horizon left hl env v).bind fun x => eval_failsOnly horizon right hr env x
  | .comma _ left right, _, ⟨hl, hr⟩, env, v =>
    (eval_failsOnly horizon left hl env v).append (eval_failsOnly horizon right hr env v)
  | .alternative _ left right, _, ⟨_, hr⟩, env, v =>
    .keepOr _ _ (eval_failsOnly horizon right hr env v)
  | .and _ left right, _, ⟨hl, hr⟩, env, v => by
    refine (eval_failsOnly horizon left hl env v).bind fun x => ?_
    split
    · exact (eval_failsOnly horizon right hr env v).andThen fun r e he => by cases he
    · exact .ofValue _
  | .or _ left right, _, ⟨hl, hr⟩, env, v => by
    refine (eval_failsOnly horizon left hl env v).bind fun x => ?_
    split
    · exact .ofValue _
    · exact (eval_failsOnly horizon right hr env v).andThen fun r e he => by cases he
  | .binary _ op left right, _, ⟨hl, hr⟩, env, v =>
    (eval_failsOnly horizon right hr env v).bind fun r =>
      (eval_failsOnly horizon left hl env v).andThen fun l => of_located (op.apply_answers l r)
  | .negate _ operand, _, h, env, v =>
    (eval_failsOnly horizon operand h env v).andThen fun n => of_located n.negate_answers
  | .array _ none, _, _, _, _ => .ofValue _
  | .array _ (some body), _, h, env, v =>
    ((eval_failsOnly horizon body h env v).collect []).andThen fun items e he => by cases he
  | .object _ entries, _, h, env, v => evalEntries_failsOnly horizon entries h [] env v
  | .cond _ branches otherwise, _, ⟨hb, ho⟩, env, v =>
    evalBranches_failsOnly horizon branches hb env v (evalOr_failsOnly horizon otherwise ho v env v)
  | .attempt _ body none, _, _, env, v => .attempt _ fun _ => .done
  | .attempt _ body (some handler), _, ⟨_, hh⟩, env, v =>
    .attempt _ fun e => eval_failsOnly horizon handler hh env e.fault.caught
  | .bind _ source name body, _, ⟨hs, hb⟩, env, v =>
    (eval_failsOnly horizon source hs env v).bind fun x =>
      eval_failsOnly horizon body hb ((name, x) :: env) v
  | .call loc b args, _, ⟨hb, hargs⟩, env, v =>
    evalCall_failsOnly horizon loc hb env v (evalList_failsOnly horizon args hargs env)

theorem evalOr_failsOnly (horizon : Nat) :
    ∀ (f : Option Filter) {scope : List String}, ScopedOption f scope →
      ∀ (other : Value) (env : Env) (v : Value),
        (evalOr horizon f other env v).FailsOnly Failure.Defined
  | none, _, _, other, _, _ => .ofValue other
  | some f, _, h, _, env, v => eval_failsOnly horizon f h env v

theorem evalList_failsOnly (horizon : Nat) :
    ∀ (fs : List Filter) {scope : List String}, ScopedList fs scope → ∀ env, ∀ f ∈ fs, ∀ v,
      (eval horizon f env v).FailsOnly Failure.Defined
  | f :: fs, _, ⟨hf, hfs⟩, env, g, hg, v => by
    cases hg with
    | head => exact eval_failsOnly horizon f hf env v
    | tail _ hg => exact evalList_failsOnly horizon fs hfs env g hg v

theorem evalEntries_failsOnly (horizon : Nat) :
    ∀ (ps : List (Filter × Filter)) {scope : List String}, ScopedPairs ps scope →
      ∀ (fields : Fields Value) (env : Env) (v : Value),
        (evalEntries horizon ps fields env v).FailsOnly Failure.Defined
  | [], _, _, _, _, _ => .ofValue _
  | (f, g) :: ps, _, ⟨hf, hg, hps⟩, fields, env, v => by
    refine (eval_failsOnly horizon f hf env v).bind fun k => ?_
    cases k with
    | string k =>
      exact (eval_failsOnly horizon g hg env v).bind fun x =>
        evalEntries_failsOnly horizon ps hps (fields.insert k x) env v
    | _ => exact fail_failsOnly f.loc trivial

theorem evalBranches_failsOnly (horizon : Nat) :
    ∀ (ps : List (Filter × Filter)) {scope : List String}, ScopedPairs ps scope →
      ∀ (env : Env) (v : Value) {otherwise : Unit → Stream},
        (otherwise ()).FailsOnly Failure.Defined →
        (evalBranches horizon ps otherwise env v).FailsOnly Failure.Defined
  | [], _, _, _, _, _, ho => ho
  | (f, g) :: ps, _, ⟨hf, hg, hps⟩, env, v, _, ho => by
    refine (eval_failsOnly horizon f hf env v).bind fun c => ?_
    split
    · exact eval_failsOnly horizon g hg env v
    · exact evalBranches_failsOnly horizon ps hps env v ho

end

end Filter

end JsonFilter
