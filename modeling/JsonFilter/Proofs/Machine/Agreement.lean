import JsonFilter.Proofs.Grammar.Sound
import JsonFilter.Proofs.Machine.Basic

/-!
The machine does what the parser does. `Answers` relates a step to the parser's result on the tokens
that are left: it has the same result or error, and says in which state the machine is then. A step
that succeeds leaves the variables in scope as they were, and comes to a depth that is told
beforehand; one that fails also leaves the variables as they were. There is a law for each way of
putting steps together, then one lemma for each function and each loop.
-/

namespace JsonFilter.Filter.Machine

open Filter.Parser

/-! ## Single steps -/

section Exec
variable {α β : Type} (s : State)

theorem exec_bind_of_ok {m : Step α} {a : α} {t : State} (k : α → Step β)
    (h : exec m s = some (.ok a, t)) : exec (m >>= k) s = exec (k a) t := by
  change (m s).bind _ = _
  rw [show m s = some (.ok a, t) from h]
  rfl

theorem exec_bind_of_error {m : Step α} {e : Error} {t : State} (k : α → Step β)
    (h : exec m s = some (.error e, t)) : exec (m >>= k) s = some (.error e, t) := by
  change (m s).bind _ = _
  rw [show m s = some (.error e, t) from h]
  rfl

/-- The next token is taken, whatever it is. -/
theorem exec_next_bind (k : Token → Step β) : exec (next >>= k) s =
    exec (k (Parser.peek s.context s.tokens)) { s with tokens := s.tokens.tail } := by
  obtain ⟨ctx, depth, peak, tokens⟩ := s
  cases tokens with
  | nil => rfl
  | cons t r => rfl

theorem exec_descend_of_le (h : maxDepth ≤ s.depth) :
    exec descend s = some (.error (.tooDeep (Parser.peek s.context s.tokens)), s) := by
  change exec (if maxDepth ≤ s.depth then _ else _) s = _
  rw [if_pos h]
  rfl

theorem exec_descend_of_lt (h : s.depth < maxDepth) :
    exec descend s = some (.ok (), s.withDepth (s.depth + 1)) := by
  change exec (if maxDepth ≤ s.depth then _ else _) s = _
  rw [if_neg (Nat.not_le.mpr h)]
  rfl

theorem exec_nested_of_le (m : Step Filter) (h : maxDepth ≤ s.depth) :
    exec (nested m) s = some (.error (.tooDeep (Parser.peek s.context s.tokens)), s) :=
  exec_bind_of_error _ _ (exec_descend_of_le _ h)

/-- A step one level deeper comes back from there, with its result or its error. -/
theorem exec_nested_of_lt {m : Step Filter} {result : Except Error Filter} {t : State}
    {depth : Nat} (h : s.depth < maxDepth)
    (hm : exec m (s.withDepth (s.depth + 1)) = some (result, t)) (ht : t.depth = depth + 1) :
    exec (nested m) s = some (result, t.withDepth depth) := by
  rw [nested, exec_bind_of_ok _ _ (exec_descend_of_lt _ h)]
  change (m _).bind _ = _
  rw [show m _ = some (result, t) from hm]
  obtain ⟨ctx, _, peak, r⟩ := t
  cases ht
  rfl

/-- A step with a variable in scope takes it out again, with its result or its error. -/
theorem exec_inScope {m : Step Filter} {name : String} {result : Except Error Filter}
    {t : State} (hm : exec m (s.withScope (name :: s.context.scope)) = some (result, t)) :
    exec (inScope name m) s = some (result, t.withScope t.context.scope.tail) := by
  change (m _).bind _ = _
  rw [show m _ = some (result, t) from hm]
  rfl

end Exec

/-! ## Steps that answer as the parser does -/

/-- What is left when something is taken from the front of some tokens. -/
def Leaves (s r : List Token) : Prop := r <:+ s ∧ r.length < s.length

theorem Leaves.of_suffix {t : Token} {s r : List Token} (h : r <:+ s) : Leaves (t :: s) r :=
  ⟨h.trans (List.suffix_cons t s), Nat.lt_succ_of_le h.length_le⟩

theorem Leaves.trans_suffix {s r u : List Token} (h : Leaves s r) (hu : u <:+ r) : Leaves s u :=
  ⟨hu.trans h.1, Nat.lt_of_le_of_lt hu.length_le h.2⟩

theorem Leaves.trans {s r u : List Token} (h : Leaves s r) (hu : Leaves r u) : Leaves s u :=
  h.trans_suffix hu.1

theorem Leaves.cons {t : Token} {s r : List Token} (h : Leaves s r) : Leaves (t :: s) r :=
  .of_suffix h.1

theorem Leaves.tail {t : Token} {s r : List Token} (h : Leaves s (t :: r)) : Leaves s r :=
  h.trans_suffix (List.suffix_cons t r)

/-- A token of a given kind comes next, or it does not. -/
theorem comes_or (kind : Token.Kind) (s : List Token) :
    (∃ loc r, s = ⟨kind, loc⟩ :: r) ∨ ∀ loc r, s = ⟨kind, loc⟩ :: r → False := by
  by_cases h : nextKind? s = some kind
  · cases s with
    | nil => cases h
    | cons t r => exact .inl ⟨t.range, r, by rw [← Option.some.inj h]⟩
  · exact .inr fun loc r hs => h (hs ▸ rfl)

/-- A token that does not come next is not the one that stands there either, the end apart. -/
theorem peek_kind_ne {ctx : Context} {kind : Token.Kind} {s : List Token}
    (hfinish : ctx.finish.kind = .finish) (hkind : kind ≠ .finish)
    (hne : ∀ loc r, s = ⟨kind, loc⟩ :: r → False) : (Parser.peek ctx s).kind ≠ kind := by
  cases s with
  | nil => exact fun h => hkind (h.symm.trans hfinish)
  | cons t r => exact fun h => hne t.range r (by rw [← h]; rfl)

/-- What a step gives where the parser has a given result: the same, in a state with the same
variables in scope and within the limit of nesting. After a success, the depth is `base` and the
tokens that are left have a property; after an error, the depth is `base` at least. -/
inductive Outcome (ctx : Context) (base : Nat) (P : List Token → Prop) {α : Type} {w : List Token} :
    Parsing α w → Option (Except Error α × State) → Prop
  | ok {f : Front α w} {peak : Nat} (depth : base ≤ maxDepth) (peak_le : peak ≤ maxDepth)
      (rest : P f.rest) : Outcome ctx base P (.ok f) (some (.ok f.value, ⟨ctx, base, peak, f.rest⟩))
  | error {e : Error} {t : State} (scope : t.context = ctx) (above : base ≤ t.depth)
      (depth : t.depth ≤ maxDepth) (peak_le : t.peak ≤ maxDepth) :
      Outcome ctx base P (.error e) (some (.error e, t))

/-- A step answers as the parser does, from any state on that is within the limit of nesting. -/
def Answers (ctx : Context) (base depth : Nat) (s : List Token) (P : List Token → Prop) {α : Type}
    {w : List Token} (m : Step α) (x : Parsing α w) : Prop :=
  ctx.finish.isFinish → depth ≤ maxDepth → ∀ peak, peak ≤ maxDepth →
    Outcome ctx base P x (exec m ⟨ctx, depth, peak, s⟩)

section Laws
variable {ctx : Context} {base mid depth : Nat} {s r : List Token} {P Q : List Token → Prop}
  {α β : Type} {w v : List Token}

theorem Outcome.mono {x : Parsing α w} {o : Option (Except Error α × State)}
    (h : Outcome ctx base P x o) (hP : ∀ r, P r → Q r) : Outcome ctx base Q x o := by
  cases h with
  | ok hdepth hpeak hrest => exact .ok hdepth hpeak (hP _ hrest)
  | error hscope habove hdepth hpeak => exact .error hscope habove hdepth hpeak

theorem Outcome.result {x : Parsing α w} {o : Option (Except Error α × State)}
    (h : Outcome ctx base P x o) :
    (∃ f peak, x = .ok f ∧ o = some (.ok f.value, ⟨ctx, base, peak, f.rest⟩)) ∨
      ∃ e t, x = .error e ∧ o = some (.error e, t) := by
  cases h with
  | ok _ _ _ => exact .inl ⟨_, _, rfl, rfl⟩
  | error _ _ _ _ => exact .inr ⟨_, _, rfl, rfl⟩

namespace Answers

theorem mono {m : Step α} {x : Parsing α w} (h : Answers ctx base depth s P m x)
    (hP : ∀ r, P r → Q r) : Answers ctx base depth s Q m x :=
  fun hfinish hdepth peak hpeak => (h hfinish hdepth peak hpeak).mono hP

/-- The end stands for the end. -/
theorem of_finish {m : Step α} {x : Parsing α w}
    (h : ctx.finish.kind = .finish → Answers ctx base depth s P m x) :
    Answers ctx base depth s P m x :=
  fun hfinish => h (of_decide_eq_true hfinish) hfinish

theorem pure {f : Front α w} (hP : P f.rest) :
    Answers ctx base base f.rest P (pure f.value) (.ok f) :=
  fun _ hdepth _ hpeak => .ok hdepth hpeak hP

theorem throw {e : Error} (hbase : base ≤ depth) :
    Answers ctx base depth s P (throw e : Step α) (.error e : Parsing α w) :=
  fun _ hdepth _ hpeak => .error rfl hbase hdepth hpeak

theorem bind {m : Step α} {k : α → Step β} {x : Parsing α w} {g : Front α w → Parsing β v}
    (hm : Answers ctx mid depth s Q m x) (hbase : base ≤ mid)
    (hk : ∀ f, Q f.rest → Answers ctx base mid f.rest P (k f.value) (g f)) :
    Answers ctx base depth s P (m >>= k) (x >>= g) := by
  intro hfinish hdepth peak hpeak
  have hm := hm hfinish hdepth peak hpeak
  revert hm
  generalize ho : exec m ⟨ctx, depth, peak, s⟩ = o
  intro hm
  cases hm with
  | ok hd hp hr =>
    rw [exec_bind_of_ok _ _ ho]
    exact hk _ hr hfinish hd _ hp
  | error hs ha hd hp =>
    rw [exec_bind_of_error _ _ ho]
    exact .error hs (Nat.le_trans hbase ha) hd hp

theorem next {t : Token} {k : Token → Step β} {y : Parsing β v} (hs : s = t :: r)
    (h : Answers ctx base depth r P (k t) y) :
    Answers ctx base depth s P (Machine.next >>= k) y := by
  subst hs
  exact h

/-- The next token is taken, whatever it is. -/
theorem next_peek {k : Token → Step β} {y : Parsing β v}
    (h : Answers ctx base depth s.tail P (k (Parser.peek ctx s)) y) :
    Answers ctx base depth s P (Machine.next >>= k) y := by
  intro hfinish hdepth peak hpeak
  rw [exec_next_bind]
  exact h hfinish hdepth peak hpeak

theorem peek {k : Token → Step β} {y : Parsing β v}
    (h : Answers ctx base depth s P (k (Parser.peek ctx s)) y) :
    Answers ctx base depth s P (Machine.peek >>= k) y :=
  h

theorem peekIs {kind : Token.Kind} {k : Bool → Step β} {y : Parsing β v}
    (h : Answers ctx base depth s P (k (nextKind? s == some kind)) y) :
    Answers ctx base depth s P (Machine.peekIs kind >>= k) y :=
  h

/-- A token that comes next is taken. -/
theorem peekIs_next {kind : Token.Kind} {loc : Range} {k : Token → Step β} {m : Step β}
    {y : Parsing β v} (hs : s = ⟨kind, loc⟩ :: r)
    (h : Answers ctx base depth r P (k ⟨kind, loc⟩) y) :
    Answers ctx base depth s P
      (Machine.peekIs kind >>= fun comes => if comes then Machine.next >>= k else m) y := by
  subst hs
  refine peekIs ?_
  rw [if_pos (show (nextKind? (⟨kind, loc⟩ :: r) == some kind) = true from
    beq_self_eq_true (some kind))]
  exact next rfl h

theorem peekIs_else {kind : Token.Kind} {m m' : Step β} {y : Parsing β v}
    (hne : ∀ loc r, s = ⟨kind, loc⟩ :: r → False) (h : Answers ctx base depth s P m' y) :
    Answers ctx base depth s P
      (Machine.peekIs kind >>= fun comes => if comes then m else m') y := by
  refine peekIs ?_
  rw [if_neg (by simpa using nextKind?_ne hne)]
  exact h

theorem depth_bind {k : Nat → Step β} {y : Parsing β v}
    (h : Answers ctx base depth s P (k depth) y) :
    Answers ctx base depth s P (Machine.depth >>= k) y :=
  h

theorem setDepth {k : Unit → Step β} {y : Parsing β v} (hle : mid ≤ depth)
    (h : Answers ctx base mid s P (k ()) y) :
    Answers ctx base depth s P (setDepth mid >>= k) y :=
  fun hfinish hdepth _ hpeak =>
    h hfinish (Nat.le_trans hle hdepth) _ (Nat.max_le.2 ⟨hpeak, Nat.le_trans hle hdepth⟩)

theorem descend {k : Unit → Step β} {y : Parsing β v} (hbase : base ≤ depth)
    (h : Answers ctx base (depth + 1) s P (k ()) y) :
    Answers ctx base depth s P (descend >>= k) (checkDepth ctx depth s >>= fun _ => y) := by
  intro hfinish hdepth peak hpeak
  rw [checkDepth]
  split
  · next hfull =>
    rw [exec_bind_of_error _ _ (exec_descend_of_le _ hfull)]
    exact .error rfl hbase hdepth hpeak
  · next hfits =>
    have hfits : depth < maxDepth := Nat.not_le.mp hfits
    rw [exec_bind_of_ok _ _ (exec_descend_of_lt ⟨ctx, depth, peak, s⟩ hfits)]
    exact h hfinish hfits _ (Nat.max_le.2 ⟨hpeak, hfits⟩)

theorem nested {m : Step Filter} {x : Parsing Filter w}
    (h : Answers ctx (depth + 1) (depth + 1) s P m x) :
    Answers ctx depth depth s P (Machine.nested m) (checkDepth ctx depth s >>= fun _ => x) := by
  intro hfinish hdepth peak hpeak
  rw [checkDepth]
  split
  · next hfull =>
    rw [exec_nested_of_le _ _ hfull]
    exact .error rfl (Nat.le_refl _) hdepth hpeak
  · next hfits =>
    have hfits : depth < maxDepth := Nat.not_le.mp hfits
    obtain ⟨o, ho⟩ : ∃ o, exec m (State.withDepth ⟨ctx, depth, peak, s⟩ (depth + 1)) = o :=
      ⟨_, rfl⟩
    have h : Outcome ctx (depth + 1) P x o :=
      ho ▸ h hfinish hfits _ (Nat.max_le.2 ⟨hpeak, hfits⟩)
    cases h with
    | ok _ hpeak' hrest =>
      rw [exec_nested_of_lt _ hfits ho rfl]
      exact .ok hdepth (Nat.max_le.2 ⟨hpeak', hdepth⟩) hrest
    | @error e t hscope habove hbelow hpeak' =>
      obtain ⟨d, hd⟩ : ∃ d, t.depth = d + 1 := ⟨t.depth - 1, by omega⟩
      rw [exec_nested_of_lt _ hfits ho hd]
      have hle : d ≤ maxDepth := by omega
      exact .error hscope (show depth ≤ d by omega) hle (Nat.max_le.2 ⟨hpeak', hle⟩)

theorem inScope {m : Step Filter} {name : String} {x : Parsing Filter w}
    (h : Answers ⟨name :: ctx.scope, ctx.finish⟩ depth depth s P m x) :
    Answers ctx depth depth s P (Machine.inScope name m) x := by
  intro hfinish hdepth peak hpeak
  obtain ⟨o, ho⟩ : ∃ o, exec m (State.withScope ⟨ctx, depth, peak, s⟩ (name :: ctx.scope)) = o :=
    ⟨_, rfl⟩
  have h : Outcome ⟨name :: ctx.scope, ctx.finish⟩ depth P x o := ho ▸ h hfinish hdepth peak hpeak
  cases h with
  | ok _ hpeak' hrest =>
    rw [exec_inScope _ ho]
    exact .ok hdepth hpeak' hrest
  | @error e t hscope habove hbelow hpeak' =>
    rw [exec_inScope _ ho]
    refine .error ?_ habove hbelow hpeak'
    change Context.mk t.context.scope.tail t.context.finish = ctx
    rw [hscope]
    rfl

theorem take {kind : Token.Kind} {error : Token → Error} {k : Unit → Step β}
    {g : { r : List Token // r.length < s.length } → Parsing β v} (hkind : kind ≠ .finish)
    (hbase : base ≤ depth)
    (h : ∀ r hr, Leaves s r → Answers ctx base depth r P (k ()) (g ⟨r, hr⟩)) :
    Answers ctx base depth s P (take kind error >>= k) (expect ctx kind error s >>= g) := by
  rw [Machine.take, bind_assoc]
  refine .of_finish fun hfinish => ?_
  cases s with
  | nil =>
    refine .next_peek ?_
    dsimp only [Parser.peek, List.headD_nil]
    rw [if_neg (fun heq => hkind (heq.symm.trans hfinish))]
    exact .throw hbase
  | cons t r =>
    refine .next rfl ?_
    rw [expect]
    by_cases heq : t.kind = kind
    · rw [if_pos heq, if_pos heq]
      exact h r _ (.of_suffix List.suffix_rfl)
    · rw [if_neg heq, if_neg heq]
      exact .throw hbase

theorem lift {y : Except Error α} {k : α → Step β} {g : α → Parsing β v} (hbase : base ≤ depth)
    (h : ∀ a, Answers ctx base depth s P (k a) (g a)) :
    Answers ctx base depth s P (liftExcept y >>= k) (y >>= g) := by
  intro hfinish hdepth peak hpeak
  cases y with
  | ok a => exact h a hfinish hdepth peak hpeak
  | error e => exact .error rfl hbase hdepth hpeak

theorem variableStep {t : Token} {name : String} {k : Filter → Step β} {g : Filter → Parsing β v}
    (hbase : base ≤ depth) (h : ∀ f, Answers ctx base depth s P (k f) (g f)) :
    Answers ctx base depth s P (Machine.variableStep t name >>= k)
      (variableNode ctx t name >>= g) :=
  fun hfinish hdepth peak hpeak => lift hbase h hfinish hdepth peak hpeak

theorem widen {m : Step α} {x : Parsing α w} {g : w.length ≤ v.length}
    (h : Answers ctx base depth s P m x) :
    Answers ctx base depth s P m (x >>= fun f => .ok (f.widen g)) := by
  rw [← bind_pure m]
  exact h.bind (Nat.le_refl _) fun f hf => pure (f := f.widen g) hf

theorem nested_bind {m : Step Filter} {x : Parsing Filter w} {k : Filter → Step β}
    {g : Front Filter w → Parsing β v} (h : Answers ctx (depth + 1) (depth + 1) s Q m x)
    (hk : ∀ f, Q f.rest → Answers ctx depth depth f.rest P (k f.value) (g f)) :
    Answers ctx depth depth s P (Machine.nested m >>= k)
      (checkDepth ctx depth s >>= fun _ => x >>= g) := by
  rw [← bind_assoc]
  exact (nested h).bind (Nat.le_refl _) hk

end Answers

end Laws

/-! ## One lemma for each function -/

/-- What a call leaves: after the name, it takes its arguments if there are any. -/
def CallLeaves (s r : List Token) : Prop :=
  if nextKind? s = some (.symbol .openParen) then Leaves s r else r = s

theorem CallLeaves.suffix {s r : List Token} (h : CallLeaves s r) : r <:+ s := by
  unfold CallLeaves at h
  split at h
  · exact h.1
  · exact h ▸ List.suffix_rfl

/-- `n` calls inside each other are enough on these tokens. A function takes a token before it calls
one of its level or of a higher one; on the same tokens it calls only those below. -/
def Fits (n : Nat) (level : Fin 8) (s : List Token) : Prop := 8 * s.length + level < n

theorem Fits.lower {n : Nat} {level lower : Fin 8} {s : List Token} (h : Fits (n + 1) level s)
    (hlower : lower < level) : Fits n lower s := by
  have : lower.val < level.val := hlower
  unfold Fits at h ⊢
  omega

theorem Fits.shorter {n : Nat} {level other : Fin 8} {s r : List Token} (h : Fits (n + 1) level s)
    (hr : r.length < s.length) : Fits n other r := by
  have : other.val < 8 := other.isLt
  unfold Fits at h ⊢
  omega

/-- With `n` calls inside each other, the functions answer as the parser does on these tokens, if
that many fit. Before those of `opening`, `climb` and `binding` stands a token that the machine has
only looked at, where the parser has taken it. -/
structure AnswersAt (n : Nat) (s : List Token) : Prop where
  -- What takes a token before it calls anything, or nothing at all
  commaTail : Fits n 0 s → ∀ whole ctx base d left h, base ≤ d →
    Answers ctx base d s (· <:+ s) (loop n (.commaTail base left))
      (parseCommaTail whole ctx d left s h)
  operators : Fits n 0 s → ∀ whole ctx base d least compared left h, base ≤ d →
    Answers ctx base d s (· <:+ s) (loop n (.operators base least compared left))
      (parseOperators whole ctx d least compared left s h)
  opening : ∀ t, Fits n 0 (t :: s) → ∀ ctx d op left, Operator.ofKind? t.kind = some op →
    Answers ctx d d (t :: s) (· <:+ s) (loop n (.operators d op.level false left))
      (parseOperation ctx d op t.range left s >>= fun next =>
        parseOperators s ctx (d + 1) op.level op.isComparison next.value next.rest next.shorter)
  binding : ∀ t, Fits n 0 (t :: s) → ∀ ctx d source,
    Answers ctx d d (t :: s) (Leaves s) (run n (.binding source))
      (parseBinding ctx d source t.range s)
  primary : Fits n 0 s → ∀ ctx d,
    Answers ctx d d s (Leaves s) (run n .primary) (parsePrimary ctx d s)
  call : Fits n 0 s → ∀ ctx d loc name,
    Answers ctx d d s (CallLeaves s) (run n (.call loc name))
      (parsePrimary ctx d (⟨.name name, loc⟩ :: s))
  entry : Fits n 0 s → ∀ ctx d, Answers ctx d d s (Leaves s) (run n .entry) (parseEntry ctx d s)
  entryPipes : Fits n 0 s → ∀ whole ctx base d left h, base ≤ d →
    Answers ctx base d s (· <:+ s) (loop n (.entryPipes base left))
      (parseEntryPipes whole ctx d left s h)
  -- What calls on the same tokens, the lower levels first
  suffixes : Fits n 1 s → ∀ whole ctx base d term h, base ≤ d →
    Answers ctx base d s (· <:+ s) (loop n (.suffixes base term))
      (parseSuffixes whole ctx base d term s h)
  chain : Fits n 1 s → ∀ whole ctx d least left h,
    Answers ctx d d s (· <:+ s) (run n (.chain least left))
      (parseOperators whole ctx d least false left s h)
  climb : ∀ t, Fits n 1 (t :: s) → ∀ ctx d op left, Operator.ofKind? t.kind = some op →
    Answers ctx d d (t :: s) (· <:+ s) (run n (.chain op.level left))
      (parseOperation ctx d op t.range left s >>= fun next =>
        parseOperators s ctx (d + 1) op.level op.isComparison next.value next.rest next.shorter)
  postfixed : Fits n 1 s → ∀ ctx d,
    Answers ctx d d s (Leaves s) (run n .postfixed) (parsePostfix ctx d s)
  entries : Fits n 1 s → ∀ whole ctx d taken h,
    Answers ctx d d s (Leaves s) (loop n (.entries taken)) (parseEntries whole ctx d taken s h)
  tighter : Fits n 2 s → ∀ whole ctx d level right h,
    Answers ctx d d s (· <:+ s) (loop n (.tighter level right))
      (parseTighter whole ctx d level right s h)
  unary : Fits n 2 s → ∀ ctx d, Answers ctx d d s (Leaves s) (run n .unary) (parseUnary ctx d s)
  attempt : Fits n 2 s → ∀ ctx d loc,
    Answers ctx d d s (Leaves s) (run n (.attempt loc))
      (parsePrimary ctx d (⟨.keyword .tryWord, loc⟩ :: s))
  object : Fits n 2 s → ∀ ctx d loc,
    Answers ctx d d s (Leaves s) (run n (.object loc))
      (parsePrimary ctx d (⟨.symbol .openBrace, loc⟩ :: s))
  alternative : Fits n 3 s → ∀ ctx d,
    Answers ctx d d s (Leaves s) (run n .alternative) (parseAlternative ctx d s)
  comma : Fits n 4 s → ∀ ctx d, Answers ctx d d s (Leaves s) (run n .comma) (parseComma ctx d s)
  entryValue : Fits n 4 s → ∀ ctx d,
    Answers ctx d d s (Leaves s) (run n .entryValue) (parseEntryValue ctx d s)
  pipe : Fits n 5 s → ∀ ctx d, Answers ctx d d s (Leaves s) (run n .pipe) (parsePipe ctx d s)
  bracket : Fits n 6 s → ∀ ctx d term loc,
    Answers ctx d d s (Leaves s) (run n (.bracket term loc)) (parseBracket ctx d term loc s)
  arguments : Fits n 6 s → ∀ whole ctx d taken h,
    Answers ctx d d s (Leaves s) (loop n (.arguments taken)) (parseArgs whole ctx d taken s h)
  branches : Fits n 6 s → ∀ whole ctx d loc taken h,
    Answers ctx d d s (Leaves s) (loop n (.branches loc taken))
      (parseBranches whole ctx d loc taken s h)
  cond : Fits n 7 s → ∀ ctx d loc,
    Answers ctx d d s (Leaves s) (run n (.cond loc))
      (parsePrimary ctx d (⟨.keyword .ifWord, loc⟩ :: s))

section
variable {n : Nat} {s : List Token} (ih : ∀ r, AnswersAt n r)
include ih

theorem answers_commaTail (hn : Fits (n + 1) 0 s) (whole : List Token) (ctx : Context)
    (base d : Nat) (left : Filter) (h : s.length < whole.length) (hbase : base ≤ d) :
    Answers ctx base d s (· <:+ s) (loop (n + 1) (.commaTail base left))
      (parseCommaTail whole ctx d left s h) := by
  rw [loop_succ, Loop.body, parseCommaTail.eq_def]
  split
  · next loc r _ =>
    refine .peekIs_next rfl (.descend hbase ?_)
    refine ((ih r).alternative (hn.shorter (Front.tail_lt r)) ctx (d + 1)).bind
      (Nat.le_succ_of_le hbase) fun f hf => ?_
    exact ((ih f.rest).commaTail (hn.shorter hf.cons.2) whole ctx base (d + 1) _ _
      (Nat.le_succ_of_le hbase)).mono fun u hu => (hf.trans_suffix hu).cons.1
  · next hne =>
    exact .peekIs_else (fun loc r hr => hne loc r (hr ▸ h) hr (by subst hr; rfl))
      (.setDepth hbase (.pure List.suffix_rfl))

theorem answers_entryPipes (hn : Fits (n + 1) 0 s) (whole : List Token) (ctx : Context)
    (base d : Nat) (left : Filter) (h : s.length < whole.length) (hbase : base ≤ d) :
    Answers ctx base d s (· <:+ s) (loop (n + 1) (.entryPipes base left))
      (parseEntryPipes whole ctx d left s h) := by
  rw [loop_succ, Loop.body, parseEntryPipes.eq_def]
  split
  · next loc r _ =>
    refine .peekIs_next rfl (.descend hbase ?_)
    refine ((ih r).alternative (hn.shorter (Front.tail_lt r)) ctx (d + 1)).bind
      (Nat.le_succ_of_le hbase) fun f hf => ?_
    exact ((ih f.rest).entryPipes (hn.shorter hf.cons.2) whole ctx base (d + 1) _ _
      (Nat.le_succ_of_le hbase)).mono fun u hu => (hf.trans_suffix hu).cons.1
  · next hne =>
    exact .peekIs_else (fun loc r hr => hne loc r (hr ▸ h) hr (by subst hr; rfl))
      (.setDepth hbase (.pure List.suffix_rfl))

/-- An operator that has been taken, with its right operand. -/
theorem answers_operation {t : Token} (hn : Fits (n + 1) 0 (t :: s)) {α : Type} {w : List Token}
    {k : Filter → Step α} {P : List Token → Prop} (ctx : Context) (base d : Nat) (op : Operator)
    (left : Filter) {g : Front Filter s → Parsing α w} (hbase : base ≤ d)
    (hk : ∀ f, Leaves s f.rest → Answers ctx base (d + 1) f.rest P (k f.value) (g f)) :
    Answers ctx base d s P
      (descend >>= fun _ => run n .unary >>= fun first =>
        loop n (.tighter op.level first) >>= fun right => k (op.apply t.range left right))
      (parseOperation ctx d op t.range left s >>= g) := by
  rw [parseOperation, bind_assoc]
  refine .descend hbase ?_
  rw [bind_assoc]
  refine ((ih s).unary (hn.shorter (Front.tail_lt s)) ctx (d + 1)).bind (Nat.le_succ_of_le hbase)
    fun f hf => ?_
  dsimp only
  rw [bind_assoc]
  refine ((ih f.rest).tighter (hn.shorter hf.cons.2) s ctx (d + 1) _ _ _).bind
    (Nat.le_succ_of_le hbase) fun right hright => ?_
  exact hk (right.map (op.apply t.range left)) (hf.trans_suffix hright)

theorem answers_operators (hn : Fits (n + 1) 0 s) (whole : List Token) (ctx : Context)
    (base d least : Nat) (compared : Bool) (left : Filter) (h : s.length < whole.length)
    (hbase : base ≤ d) :
    Answers ctx base d s (· <:+ s) (loop (n + 1) (.operators base least compared left))
      (parseOperators whole ctx d least compared left s h) := by
  rw [loop_succ, Loop.body, parseOperators.eq_def]
  refine .peek ?_
  cases s with
  | nil =>
    refine .of_finish fun hfinish => ?_
    dsimp only [Parser.peek, List.headD_nil]
    rw [hfinish]
    exact .setDepth hbase (.pure List.suffix_rfl)
  | cons t r =>
    dsimp only [Parser.peek, List.headD_cons]
    cases hop : Operator.ofKind? t.kind with
    | none => exact .setDepth hbase (.pure List.suffix_rfl)
    | some op =>
      dsimp only
      split
      · exact .setDepth hbase (.pure List.suffix_rfl)
      · split
        · exact .throw hbase
        · refine .next rfl ?_
          refine answers_operation ih hn
            (k := fun left => loop n (.operators base least op.isComparison left)) ctx base d op
            left hbase fun f hf => ?_
          exact ((ih f.rest).operators (hn.shorter hf.cons.2) whole ctx base (d + 1) least _ _ _
            (Nat.le_succ_of_le hbase)).mono fun u hu => (hf.trans_suffix hu).cons.1

theorem answers_opening (t : Token) (hn : Fits (n + 1) 0 (t :: s)) (ctx : Context) (d : Nat)
    (op : Operator) (left : Filter) (hop : Operator.ofKind? t.kind = some op) :
    Answers ctx d d (t :: s) (· <:+ s) (loop (n + 1) (.operators d op.level false left))
      (parseOperation ctx d op t.range left s >>= fun next =>
        parseOperators s ctx (d + 1) op.level op.isComparison next.value next.rest
          next.shorter) := by
  rw [loop_succ, Loop.body]
  refine .peek ?_
  dsimp only [Parser.peek, List.headD_cons]
  rw [hop]
  dsimp only
  rw [if_neg (Nat.lt_irrefl _), if_neg (by simp)]
  refine .next rfl (answers_operation ih hn
    (k := fun left => loop n (.operators d op.level op.isComparison left)) ctx d d op left
    (Nat.le_refl d) fun f hf => ?_)
  exact ((ih f.rest).operators (hn.shorter hf.cons.2) s ctx d (d + 1) _ _ _ _ (Nat.le_succ d)).mono
    fun u hu => hu.trans hf.1

theorem answers_chain (hn : Fits (n + 1) 1 s) (whole : List Token) (ctx : Context) (d least : Nat)
    (left : Filter) (h : s.length < whole.length) :
    Answers ctx d d s (· <:+ s) (run (n + 1) (.chain least left))
      (parseOperators whole ctx d least false left s h) := by
  rw [run_succ, Procedure.body]
  have hrest := (ih s).operators (hn.lower (by decide)) whole ctx d d least false left h
  exact .depth_bind (hrest (Nat.le_refl d))

theorem answers_climb (t : Token) (hn : Fits (n + 1) 1 (t :: s)) (ctx : Context) (d : Nat)
    (op : Operator) (left : Filter) (hop : Operator.ofKind? t.kind = some op) :
    Answers ctx d d (t :: s) (· <:+ s) (run (n + 1) (.chain op.level left))
      (parseOperation ctx d op t.range left s >>= fun next =>
        parseOperators s ctx (d + 1) op.level op.isComparison next.value next.rest
          next.shorter) := by
  rw [run_succ, Procedure.body]
  exact .depth_bind ((ih s).opening t (hn.lower (by decide)) ctx d op left hop)

theorem answers_tighter (hn : Fits (n + 1) 2 s) (whole : List Token) (ctx : Context)
    (d level : Nat) (right : Filter) (h : s.length < whole.length) :
    Answers ctx d d s (· <:+ s) (loop (n + 1) (.tighter level right))
      (parseTighter whole ctx d level right s h) := by
  rw [loop_succ, Loop.body, parseTighter.eq_def]
  refine .peek ?_
  cases s with
  | nil =>
    refine .of_finish fun hfinish => ?_
    dsimp only [Parser.peek, List.headD_nil]
    rw [hfinish]
    exact .pure List.suffix_rfl
  | cons t r =>
    dsimp only [Parser.peek, List.headD_cons]
    cases hop : Operator.ofKind? t.kind with
    | none => exact .pure List.suffix_rfl
    | some op =>
      dsimp only
      split
      · exact .pure List.suffix_rfl
      · have hshort : ∀ f : Front Filter r, f.rest.length < whole.length := fun f => by
          have := f.shorter
          simp only [List.length_cons] at h
          omega
        have hclimb := (ih r).climb t (hn.lower (by decide)) ctx d op right hop
        have hboth := hclimb.bind (k := fun right => loop n (.tighter level right))
          (P := (· <:+ t :: r))
          (g := fun f => parseTighter whole ctx d level f.value f.rest (hshort f)) (Nat.le_refl d)
          fun f hf => by
            have hfits : Fits n 2 f.rest := hn.shorter (Nat.lt_succ_of_lt f.shorter)
            exact ((ih f.rest).tighter hfits whole ctx d level f.value (hshort f)).mono fun u hu =>
              hu.trans (hf.trans (List.suffix_cons t r))
        rw [bind_assoc] at hboth
        exact hboth

theorem answers_binding (t : Token) (hn : Fits (n + 1) 0 (t :: s)) (ctx : Context) (d : Nat)
    (source : Filter) :
    Answers ctx d d (t :: s) (Leaves s) (run (n + 1) (.binding source))
      (parseBinding ctx d source t.range s) := by
  rw [run_succ, Procedure.body, parseBinding.eq_def]
  refine .next rfl ?_
  split
  · next name loc r =>
    refine .next rfl ?_
    dsimp only
    refine .take (by simp) (Nat.le_refl d) fun u hu hleaves => ?_
    have hbody := (ih u).pipe (hn.shorter hleaves.cons.cons.2) ⟨name :: ctx.scope, ctx.finish⟩ d
    refine hbody.inScope.bind (Nat.le_refl d) fun f hf => ?_
    exact .pure ((hleaves.trans hf).cons)
  · next hne =>
    refine .of_finish fun hfinish => .next_peek ?_
    split
    · next name heq => exact (peek_kind_ne hfinish (by simp) (fun loc r => hne name loc r) heq).elim
    · exact .throw (Nat.le_refl d)

theorem answers_suffixes (hn : Fits (n + 1) 1 s) (whole : List Token) (ctx : Context)
    (base d : Nat) (term : Filter) (h : s.length < whole.length) (hbase : base ≤ d) :
    Answers ctx base d s (· <:+ s) (loop (n + 1) (.suffixes base term))
      (parseSuffixes whole ctx base d term s h) := by
  have hmore : base ≤ d + 1 := Nat.le_succ_of_le hbase
  rw [loop_succ, Loop.body, parseSuffixes.eq_def]
  split <;> refine .peek ?_ <;> dsimp only [Parser.peek, List.headD_cons]
  · next name loc r _ =>
    refine .descend hbase (.next rfl ?_)
    exact ((ih r).suffixes (hn.shorter (Front.tail_lt r)) whole ctx base (d + 1) _ _ hmore).mono
      fun u hu => (Leaves.of_suffix hu).1
  · next loc name keyLoc r _ =>
    refine .descend hbase (.next rfl (.peek (.next rfl ?_)))
    have hr : Fits n 1 r := hn.shorter (Nat.lt_succ_of_lt (Front.tail_lt r))
    exact ((ih r).suffixes hr whole ctx base (d + 1) _ _ hmore).mono
      fun u hu => (Leaves.of_suffix hu).cons.1
  · next loc bracket r _ =>
    refine .descend hbase (.next rfl (.peek (.next rfl ?_)))
    have hr : Fits n 6 r := hn.shorter (Nat.lt_succ_of_lt (Front.tail_lt r))
    refine ((ih r).bracket hr ctx (d + 1) _ _).bind hmore fun f hf => ?_
    exact ((ih f.rest).suffixes (hn.shorter hf.cons.cons.2) whole ctx base (d + 1) _ _ hmore).mono
      fun u hu => (hf.trans_suffix hu).cons.cons.1
  · next loc r h hstring hbracket =>
    refine .of_finish fun hfinish => .descend hbase (.next rfl (.peek ?_))
    split
    · next name heq =>
      exact (peek_kind_ne hfinish (by simp) (fun keyLoc u hu =>
        hstring name keyLoc u (hu ▸ h) hu (by subst hu; rfl)) heq).elim
    · next heq =>
      exact (peek_kind_ne hfinish (by simp) (fun keyLoc u hu =>
        hbracket keyLoc u (hu ▸ h) hu (by subst hu; rfl)) heq).elim
    · exact .throw hmore
  · next bracket r _ =>
    refine .descend hbase (.next rfl ?_)
    refine ((ih r).bracket (hn.shorter (Front.tail_lt r)) ctx (d + 1) _ _).bind hmore fun f hf => ?_
    exact ((ih f.rest).suffixes (hn.shorter hf.cons.2) whole ctx base (d + 1) _ _ hmore).mono
      fun u hu => (hf.trans_suffix hu).cons.1
  · next loc r _ =>
    refine .descend hbase (.next rfl ?_)
    exact ((ih r).suffixes (hn.shorter (Front.tail_lt r)) whole ctx base (d + 1) _ _ hmore).mono
      fun u hu => (Leaves.of_suffix hu).1
  · next loc r _ =>
    refine .setDepth hbase ?_
    exact ((ih r).binding ⟨.keyword .asWord, loc⟩ (hn.lower (by decide)) ctx base term).widen.mono
      fun u hu => hu.cons.1
  · next hfield _ _ hdot hbracket hquestion has =>
    refine .of_finish fun hfinish => ?_
    split
    · next name heq =>
      exact (peek_kind_ne hfinish (by simp) (fun loc r hr =>
        hfield name loc r (hr ▸ h) hr (by subst hr; rfl)) heq).elim
    · next heq =>
      exact (peek_kind_ne hfinish (by simp) (fun loc r hr =>
        hdot loc r (hr ▸ h) hr (by subst hr; rfl)) heq).elim
    · next heq =>
      exact (peek_kind_ne hfinish (by simp) (fun loc r hr =>
        hbracket loc r (hr ▸ h) hr (by subst hr; rfl)) heq).elim
    · next heq =>
      exact (peek_kind_ne hfinish (by simp) (fun loc r hr =>
        hquestion loc r (hr ▸ h) hr (by subst hr; rfl)) heq).elim
    · next heq =>
      exact (peek_kind_ne hfinish (by simp) (fun loc r hr =>
        has loc r (hr ▸ h) hr (by subst hr; rfl)) heq).elim
    · exact .setDepth hbase (.pure List.suffix_rfl)

theorem answers_primary (hn : Fits (n + 1) 0 s) (ctx : Context) (d : Nat) :
    Answers ctx d d s (Leaves s) (run (n + 1) .primary) (parsePrimary ctx d s) := by
  have hd : d ≤ d := Nat.le_refl d
  rw [run_succ, Procedure.body]
  cases s with
  | nil =>
    rw [parsePrimary]
    refine .of_finish fun hfinish => .next_peek ?_
    dsimp only [Parser.peek, List.headD_nil]
    rw [hfinish]
    exact .throw hd
  | cons t r =>
    obtain ⟨kind, loc⟩ := t
    have hr := ih r
    have hfits : ∀ level, Fits n level r := fun level => hn.shorter (Front.tail_lt r)
    have hleaves : Leaves (⟨kind, loc⟩ :: r) r := .of_suffix List.suffix_rfl
    refine .next rfl ?_
    dsimp only
    split
    · -- a point, which may have the name of a field behind it
      refine .of_finish fun hfinish => .peek ?_
      split
      · next name heq =>
        obtain ⟨keyLoc, u, rfl⟩ | hne := comes_or (.string name) r
        · rw [parsePrimary]
          exact .next rfl (.pure (Leaves.of_suffix List.suffix_rfl).cons)
        · exact (peek_kind_ne hfinish (by simp) hne heq).elim
      · next hstring =>
        rw [parsePrimary]
        · exact .pure hleaves
        · rintro name keyLoc u rfl
          exact hstring name rfl
    · rw [parsePrimary]
      exact .pure hleaves
    · rw [parsePrimary]
      exact .pure hleaves
    · rw [parsePrimary]
      exact .pure hleaves
    · rw [parsePrimary]
      exact .pure hleaves
    · rw [parsePrimary]
      exact .pure hleaves
    · rw [parsePrimary]
      exact .pure hleaves
    · rw [parsePrimary]
      exact .pure hleaves
    · next name =>
      rw [parsePrimary]
      rw [← bind_pure (variableStep _ _)]
      refine .variableStep hd fun f => ?_
      exact .pure hleaves
    · rw [parsePrimary]
      refine (hr.pipe (hfits _) ctx d).bind hd fun f hf => ?_
      refine .take (by simp) hd fun u hu hclose => ?_
      exact .pure (hf.trans hclose).cons
    · obtain ⟨close, u, rfl⟩ | hne := comes_or (.symbol .closeBracket) r
      · rw [parsePrimary]
        exact .peekIs_next rfl (.pure (Leaves.of_suffix List.suffix_rfl).cons)
      · rw [parsePrimary]
        · refine .peekIs_else hne ?_
          refine (hr.pipe (hfits _) ctx d).bind hd fun f hf => ?_
          refine .take (by simp) hd fun u hu hclose => ?_
          exact .pure (hf.trans hclose).cons
        · exact hne
    · exact (hr.object (hfits _) ctx d loc).mono fun u hu => hu.cons
    · exact (hr.cond (hfits _) ctx d loc).mono fun u hu => hu.cons
    · exact (hr.attempt (hfits _) ctx d loc).mono fun u hu => hu.cons
    · exact (hr.call (hfits _) ctx d loc _).mono fun u hu => .of_suffix hu.suffix
    · rw [parsePrimary]
      exact .throw hd
    · rw [parsePrimary]
      · exact .throw hd
      all_goals simp_all

theorem answers_postfixed (hn : Fits (n + 1) 1 s) (ctx : Context) (d : Nat) :
    Answers ctx d d s (Leaves s) (run (n + 1) .postfixed) (parsePostfix ctx d s) := by
  rw [run_succ, Procedure.body, parsePostfix]
  have hfirst := (ih s).primary (hn.lower (by decide)) ctx d
  refine .depth_bind (hfirst.bind (Nat.le_refl d) fun f hf => ?_)
  exact ((ih f.rest).suffixes (hn.shorter hf.2) s ctx d d _ _ (Nat.le_refl d)).mono
    fun u hu => hf.trans_suffix hu

theorem answers_unary (hn : Fits (n + 1) 2 s) (ctx : Context) (d : Nat) :
    Answers ctx d d s (Leaves s) (run (n + 1) .unary) (parseUnary ctx d s) := by
  rw [run_succ, Procedure.body, parseUnary.eq_def]
  split
  · next loc r =>
    have hoperand := (ih r).unary (hn.shorter (Front.tail_lt r)) ctx (d + 1)
    refine .peekIs_next rfl (.nested_bind hoperand fun f hf => ?_)
    exact .pure hf.cons
  · next hne => exact .peekIs_else hne ((ih s).postfixed (hn.lower (by decide)) ctx d)

theorem answers_alternative (hn : Fits (n + 1) 3 s) (ctx : Context) (d : Nat) :
    Answers ctx d d s (Leaves s) (run (n + 1) .alternative) (parseAlternative ctx d s) := by
  rw [run_succ, Procedure.body, parseAlternative]
  refine ((ih s).unary (hn.lower (by decide)) ctx d).bind (Nat.le_refl d) fun first hfirst => ?_
  refine ((ih first.rest).chain (hn.shorter hfirst.2) s ctx d _ _ _).bind (Nat.le_refl d)
    fun left hleft => ?_
  have hleft := hfirst.trans_suffix hleft
  dsimp only
  split
  · next loc r hrest =>
    refine .peekIs_next hrest ?_
    rw [hrest] at hleft
    refine .nested_bind ((ih r).alternative (hn.shorter hleft.tail.2) ctx (d + 1)) fun f hf => ?_
    exact .pure (hleft.tail.trans hf)
  · next hne => exact .peekIs_else hne (.pure hleft)

theorem answers_comma (hn : Fits (n + 1) 4 s) (ctx : Context) (d : Nat) :
    Answers ctx d d s (Leaves s) (run (n + 1) .comma) (parseComma ctx d s) := by
  rw [run_succ, Procedure.body, parseComma]
  have hfirst := (ih s).alternative (hn.lower (by decide)) ctx d
  refine .depth_bind (hfirst.bind (Nat.le_refl d) fun f hf => ?_)
  exact ((ih f.rest).commaTail (hn.shorter hf.2) s ctx d d _ _ (Nat.le_refl d)).mono
    fun u hu => hf.trans_suffix hu

theorem answers_entryValue (hn : Fits (n + 1) 4 s) (ctx : Context) (d : Nat) :
    Answers ctx d d s (Leaves s) (run (n + 1) .entryValue) (parseEntryValue ctx d s) := by
  rw [run_succ, Procedure.body, parseEntryValue]
  have hfirst := (ih s).alternative (hn.lower (by decide)) ctx d
  refine .depth_bind (hfirst.bind (Nat.le_refl d) fun f hf => ?_)
  exact ((ih f.rest).entryPipes (hn.shorter hf.2) s ctx d d _ _ (Nat.le_refl d)).mono
    fun u hu => hf.trans_suffix hu

theorem answers_pipe (hn : Fits (n + 1) 5 s) (ctx : Context) (d : Nat) :
    Answers ctx d d s (Leaves s) (run (n + 1) .pipe) (parsePipe ctx d s) := by
  rw [run_succ, Procedure.body, parsePipe]
  refine .nested (((ih s).comma (hn.lower (by decide)) ctx (d + 1)).bind (Nat.le_refl _)
    fun left hleft => ?_)
  dsimp only
  split
  · next loc r hrest =>
    refine .peekIs_next hrest ?_
    rw [hrest] at hleft
    refine ((ih r).pipe (hn.shorter hleft.tail.2) ctx (d + 1)).bind (Nat.le_refl _) fun f hf => ?_
    exact .pure (hleft.tail.trans hf)
  · next hne => exact .peekIs_else hne (.pure hleft)

theorem answers_bracket (hn : Fits (n + 1) 6 s) (ctx : Context) (d : Nat) (term : Filter)
    (loc : Range) :
    Answers ctx d d s (Leaves s) (run (n + 1) (.bracket term loc))
      (parseBracket ctx d term loc s) := by
  have hd : d ≤ d := Nat.le_refl d
  rw [run_succ, Procedure.body, parseBracket.eq_def]
  split
  · exact .peekIs_next rfl (.pure (.of_suffix List.suffix_rfl))
  · next colon r =>
    refine .peekIs_else (by simp) (.peekIs_next rfl ?_)
    refine ((ih r).pipe (hn.shorter (Front.tail_lt r)) ctx d).bind hd fun high hhigh => ?_
    refine .take (by simp) hd fun u hu hleaves => ?_
    exact .pure (hhigh.trans hleaves).cons
  · next hclose hcolon =>
    refine .peekIs_else hclose (.peekIs_else hcolon ?_)
    refine ((ih s).pipe (hn.lower (by decide)) ctx d).bind hd fun key hkey => ?_
    dsimp only
    split
    · next colon close r hrest =>
      rw [hrest] at hkey
      exact .peekIs_next hrest (.peekIs_next rfl (.pure hkey.tail.tail))
    · next colon r hclose hrest =>
      rw [hrest] at hkey
      refine .peekIs_next hrest (.peekIs_else hclose ?_)
      refine ((ih r).pipe (hn.shorter hkey.tail.2) ctx d).bind hd fun high hhigh => ?_
      refine .take (by simp) hd fun u hu hleaves => ?_
      exact .pure (hkey.tail.trans (hhigh.trans hleaves))
    · next r hne =>
      refine .peekIs_else hne ?_
      refine .take (by simp) hd fun u hu hleaves => ?_
      exact .pure (hkey.trans hleaves)

theorem answers_arguments (hn : Fits (n + 1) 6 s) (whole : List Token) (ctx : Context) (d : Nat)
    (taken : List Filter) (h : s.length ≤ whole.length) :
    Answers ctx d d s (Leaves s) (loop (n + 1) (.arguments taken))
      (parseArgs whole ctx d taken s h) := by
  rw [loop_succ, Loop.body, parseArgs]
  refine ((ih s).pipe (hn.lower (by decide)) ctx d).bind (Nat.le_refl d) fun arg harg => ?_
  dsimp only
  split
  · next loc r hrest =>
    rw [hrest] at harg
    refine .next hrest ?_
    exact ((ih r).arguments (hn.shorter harg.tail.2) whole ctx d _ _).mono
      fun u hu => harg.tail.trans hu
  · next loc r hrest =>
    rw [hrest] at harg
    exact .next hrest (.pure harg.tail)
  · next hsemicolon hclose =>
    refine .of_finish fun hfinish => .next_peek ?_
    split
    · next heq => exact (peek_kind_ne hfinish (by simp) hsemicolon heq).elim
    · next heq => exact (peek_kind_ne hfinish (by simp) hclose heq).elim
    · exact .throw (Nat.le_refl d)

theorem answers_call (hn : Fits (n + 1) 0 s) (ctx : Context) (d : Nat) (loc : Range)
    (name : String) :
    Answers ctx d d s (CallLeaves s) (run (n + 1) (.call loc name))
      (parsePrimary ctx d (⟨.name name, loc⟩ :: s)) := by
  have hd : d ≤ d := Nat.le_refl d
  rw [run_succ, Procedure.body, ← bind_pure (liftExcept (callNode ⟨.name name, loc⟩ name []))]
  obtain ⟨openLoc, r, rfl⟩ | hne := comes_or (.symbol .openParen) s
  · rw [parsePrimary]
    refine .peekIs_next rfl ?_
    refine ((ih r).arguments (hn.shorter (Front.tail_lt r)) r ctx d [] _).bind hd
      fun args hargs => ?_
    rw [← bind_pure (liftExcept _)]
    refine .lift hd fun call => ?_
    exact .pure (by rw [CallLeaves, nextKind?_cons, if_pos rfl]; exact hargs.cons)
  · rw [parsePrimary]
    · refine .peekIs_else hne (.lift hd fun call => ?_)
      exact .pure (by rw [CallLeaves, if_neg (nextKind?_ne hne)])
    · exact hne

theorem answers_branches (hn : Fits (n + 1) 6 s) (whole : List Token) (ctx : Context) (d : Nat)
    (loc : Range) (taken : List (Filter × Filter)) (h : s.length ≤ whole.length) :
    Answers ctx d d s (Leaves s) (loop (n + 1) (.branches loc taken))
      (parseBranches whole ctx d loc taken s h) := by
  have hd : d ≤ d := Nat.le_refl d
  rw [loop_succ, Loop.body, parseBranches]
  refine ((ih s).pipe (hn.lower (by decide)) ctx d).bind hd fun test htest => ?_
  refine .take (by simp) hd fun r hr hthen => ?_
  have hthen := htest.trans hthen
  refine ((ih r).pipe (hn.shorter hthen.2) ctx d).bind hd fun body hbody => ?_
  have hbody := hthen.trans hbody
  dsimp only
  split
  · next word t hrest =>
    rw [hrest] at hbody
    refine .next hrest ?_
    exact ((ih t).branches (hn.shorter hbody.tail.2) whole ctx d loc _ _).mono
      fun u hu => hbody.tail.trans hu
  · next word t hrest =>
    rw [hrest] at hbody
    refine .next hrest ?_
    refine ((ih t).pipe (hn.shorter hbody.tail.2) ctx d).bind hd fun otherwise hotherwise => ?_
    refine .take (by simp) hd fun u hu hend => ?_
    exact .pure (hbody.tail.trans (hotherwise.trans hend))
  · next word t hrest =>
    rw [hrest] at hbody
    exact .next hrest (.pure hbody.tail)
  · next helif helse hend =>
    refine .of_finish fun hfinish => .next_peek ?_
    split
    · next heq => exact (peek_kind_ne hfinish (by simp) helif heq).elim
    · next heq => exact (peek_kind_ne hfinish (by simp) helse heq).elim
    · next heq => exact (peek_kind_ne hfinish (by simp) hend heq).elim
    · exact .throw hd

theorem answers_cond (hn : Fits (n + 1) 7 s) (ctx : Context) (d : Nat) (loc : Range) :
    Answers ctx d d s (Leaves s) (run (n + 1) (.cond loc))
      (parsePrimary ctx d (⟨.keyword .ifWord, loc⟩ :: s)) := by
  rw [run_succ, Procedure.body, parsePrimary]
  exact ((ih s).branches (hn.lower (by decide)) s ctx d loc [] (Front.whole_le s)).widen

theorem answers_attempt (hn : Fits (n + 1) 2 s) (ctx : Context) (d : Nat) (loc : Range) :
    Answers ctx d d s (Leaves s) (run (n + 1) (.attempt loc))
      (parsePrimary ctx d (⟨.keyword .tryWord, loc⟩ :: s)) := by
  rw [run_succ, Procedure.body, parsePrimary]
  refine .nested_bind ((ih s).postfixed (hn.lower (by decide)) ctx (d + 1)) fun body hbody => ?_
  dsimp only
  split
  · next word t hrest =>
    rw [hrest] at hbody
    refine .peekIs_next hrest ?_
    refine .nested_bind ((ih t).postfixed (hn.shorter hbody.tail.2) ctx (d + 1))
      fun handler hhandler => ?_
    exact .pure (hbody.tail.trans hhandler)
  · next hne => exact .peekIs_else hne (.pure hbody)

theorem answers_entry (hn : Fits (n + 1) 0 s) (ctx : Context) (d : Nat) :
    Answers ctx d d s (Leaves s) (run (n + 1) .entry) (parseEntry ctx d s) := by
  have hd : d ≤ d := Nat.le_refl d
  rw [run_succ, Procedure.body]
  cases s with
  | nil =>
    rw [parseEntry]
    refine .of_finish fun hfinish => .next_peek ?_
    dsimp only [Parser.peek, List.headD_nil]
    rw [hfinish]
    exact .throw hd
  | cons t r =>
    obtain ⟨kind, loc⟩ := t
    have hr := ih r
    have hfits : ∀ level, Fits n level r := fun level => hn.shorter (Front.tail_lt r)
    have hleaves : Leaves (⟨kind, loc⟩ :: r) r := .of_suffix List.suffix_rfl
    refine .next rfl ?_
    dsimp only
    split
    · rw [parseEntry]
      refine .variableStep hd fun v => ?_
      exact .pure hleaves
    · rw [parseEntry]
      refine (hr.pipe (hfits _) ctx d).bind hd fun key hkey => ?_
      refine .take (by simp) hd fun u hu hparen => .take (by simp) hd fun w hw hcolon => ?_
      have hcolon := (hkey.trans hparen).trans hcolon
      refine ((ih w).entryValue (hn.shorter hcolon.cons.2) ctx d).bind hd fun v hv => ?_
      exact .pure (hcolon.trans hv).cons
    · rw [parseEntry]
      exact .throw hd
    · next hbinding hparen hend =>
      rw [parseEntry]
      · cases keyWord? kind with
        | none => exact .throw hd
        | some word =>
          dsimp only
          split
          · next colon u =>
            refine .peekIs_next rfl ?_
            refine ((ih u).entryValue (hn.shorter hleaves.tail.2) ctx d).bind hd fun v hv => ?_
            exact .pure hv.cons.cons
          · next hne => exact .peekIs_else hne (.pure hleaves)
      all_goals simp_all

theorem answers_entries (hn : Fits (n + 1) 1 s) (whole : List Token) (ctx : Context) (d : Nat)
    (taken : List (Filter × Filter)) (h : s.length ≤ whole.length) :
    Answers ctx d d s (Leaves s) (loop (n + 1) (.entries taken))
      (parseEntries whole ctx d taken s h) := by
  rw [loop_succ, Loop.body, parseEntries]
  refine ((ih s).entry (hn.lower (by decide)) ctx d).bind (Nat.le_refl d) fun entry hentry => ?_
  dsimp only
  split
  · next loc r hrest =>
    rw [hrest] at hentry
    refine .next hrest ?_
    exact ((ih r).entries (hn.shorter hentry.tail.2) whole ctx d _ _).mono
      fun u hu => hentry.tail.trans hu
  · next loc r hrest =>
    rw [hrest] at hentry
    exact .next hrest (.pure hentry.tail)
  · next hcomma hclose =>
    refine .of_finish fun hfinish => .next_peek ?_
    split
    · next heq => exact (peek_kind_ne hfinish (by simp) hcomma heq).elim
    · next heq => exact (peek_kind_ne hfinish (by simp) hclose heq).elim
    · exact .throw (Nat.le_refl d)

theorem answers_object (hn : Fits (n + 1) 2 s) (ctx : Context) (d : Nat) (loc : Range) :
    Answers ctx d d s (Leaves s) (run (n + 1) (.object loc))
      (parsePrimary ctx d (⟨.symbol .openBrace, loc⟩ :: s)) := by
  rw [run_succ, Procedure.body]
  obtain ⟨close, r, rfl⟩ | hne := comes_or (.symbol .closeBrace) s
  · rw [parsePrimary]
    exact .peekIs_next rfl (.pure (.of_suffix List.suffix_rfl))
  · rw [parsePrimary]
    · refine .peekIs_else hne ?_
      refine ((ih s).entries (hn.lower (by decide)) s ctx d [] (Front.whole_le s)).bind
        (Nat.le_refl d) fun fs hfs => ?_
      exact .pure hfs
    · exact hne

end

/-- Every function answers as the parser does, on all tokens. -/
theorem answersAt (n : Nat) : ∀ s, AnswersAt n s := by
  induction n with
  | zero =>
    intro s
    constructor <;> intros <;> exact absurd ‹Fits 0 _ _› (Nat.not_lt_zero _)
  | succ n ih =>
    exact fun s => {
      commaTail := answers_commaTail ih
      operators := answers_operators ih
      opening := answers_opening ih
      suffixes := answers_suffixes ih
      binding := answers_binding ih
      primary := answers_primary ih
      call := answers_call ih
      entry := answers_entry ih
      entryPipes := answers_entryPipes ih
      chain := answers_chain ih
      climb := answers_climb ih
      postfixed := answers_postfixed ih
      entries := answers_entries ih
      tighter := answers_tighter ih
      unary := answers_unary ih
      attempt := answers_attempt ih
      object := answers_object ih
      alternative := answers_alternative ih
      comma := answers_comma ih
      entryValue := answers_entryValue ih
      pipe := answers_pipe ih
      bracket := answers_bracket ih
      arguments := answers_arguments ih
      branches := answers_branches ih
      cond := answers_cond ih }

end JsonFilter.Filter.Machine
