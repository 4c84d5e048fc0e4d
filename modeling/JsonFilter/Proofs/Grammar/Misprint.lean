import JsonFilter.Proofs.Grammar.Depth
import JsonFilter.Proofs.Grammar.Precedence

/-!
Formulas and misprinted formulas through the parser. A comparison that stands bare as an operand of
another comparison makes a chain with two of them on one level. The parser takes the chain up to the
second one and stops there (`Stuck`), and so does every level around it (`Barred`), whatever the
rest of the text is.
-/

namespace JsonFilter.Filter.Parser

/-- Parsing stops at a token that is not expected, or earlier at the limit of nesting. -/
def Blocked (t : Token) {α : Type} (x : Except Error α) : Prop :=
  x = .error (.unexpected t) ∨ ∃ t', x = .error (.tooDeep t')

namespace Blocked

variable {t : Token} {α β : Type} {s w r : List Token} {a : α}

theorem bind {x : Except Error α} {k : α → Except Error β} (hx : Blocked t x) :
    Blocked t (x >>= k) := by
  rcases hx with rfl | ⟨t', rfl⟩
  · exact .inl rfl
  · exact .inr ⟨t', rfl⟩

theorem checkDepth_bind {ctx : Context} {d : Nat} {k : Unit → Except Error β}
    (hk : Blocked t (k ())) : Blocked t (checkDepth ctx d s >>= k) := by
  unfold checkDepth
  split
  · exact .inr ⟨_, rfl⟩
  · exact hk

/-- After a part that can be parsed. -/
theorem of_meets {fits : Nat → Prop} {x : Parsing α s} {k : Front α s → Except Error β}
    (hx : Meets fits x a r) (hk : ∀ h, Blocked t (k ⟨a, r, h⟩)) : Blocked t (x >>= k) := by
  rcases hx with ⟨h, rfl⟩ | ⟨_, t', rfl⟩
  · exact hk h
  · exact .inr ⟨t', rfl⟩

end Blocked

/-! ## Chains -/

/-- A loop over commas is blocked with the operand after one of them. -/
theorem Listed.blocked {scope : List String} {f g : Filter} {s r whole : List Token} {t : Token}
    {loc : Range} {ctx : Context} (hs : Listed scope f s g (⟨.symbol .comma, loc⟩ :: r))
    (h : ∀ d, Blocked t (parseAlternative ctx d r)) (hctx : ctx.scope = scope) (d : Nat)
    (hw : s.length < whole.length) : Blocked t (parseCommaTail whole ctx d f s hw) := by
  generalize hv : (⟨.symbol .comma, loc⟩ :: r : List Token) = v at hs
  induction hs generalizing d with
  | nil =>
    subst hv
    rw [parseCommaTail]
    exact .checkDepth_bind (h (d + 1)).bind
  | cons hg _ ih =>
    rw [parseCommaTail]
    refine .checkDepth_bind (.of_meets ((hg (d + 1)).parses ctx hctx) fun hshort => ?_)
    exact ih (d + 1) _ hv

/-- At the front of some tokens an operation of at least a level cannot be taken: the operator is a
second comparison, or its right operand is blocked. -/
def Halts (scope : List String) (least : Nat) (compared : Bool) (s : List Token) (t : Token) :
    Prop :=
  ∃ op t' r, s = t' :: r ∧ Operator.ofKind? t'.kind = some op ∧ least ≤ op.level ∧
    (((op.isComparison && compared) = true ∧ t' = t) ∨
      ((op.isComparison && compared) = false ∧ ∀ ctx : Context, ctx.scope = scope → ∀ d left,
        Blocked t (parseOperation ctx d op t'.range left r)))

/-- A chain of operations that halts. -/
def Stuck (scope : List String) (least : Nat) (compared : Bool) (f : Filter) (s : List Token)
    (t : Token) : Prop :=
  ∃ n last g r, Climb scope least n compared f s last g r ∧ Halts scope least last r t

namespace Stuck

variable {scope : List String} {least l n : Nat} {compared last : Bool} {f g : Filter}
variable {s r whole : List Token} {t : Token} {ctx : Context}

theorem of_halts (h : Halts scope least compared s t) (hctx : ctx.scope = scope) (d : Nat)
    (left : Filter) (hs : s.length < whole.length) :
    Blocked t (parseOperators whole ctx d least compared left s hs) := by
  obtain ⟨op, t', r, rfl, hop, hlevel, ⟨hcompared, rfl⟩ | ⟨hcompared, hblocked⟩⟩ := h
  · rw [parseOperators]
    simp only [hop, Nat.not_lt.mpr hlevel, hcompared, if_true, if_false]
    exact .inl rfl
  · rw [parseOperators]
    simp only [hop, Nat.not_lt.mpr hlevel, hcompared, if_false, Bool.false_eq_true]
    exact (hblocked ctx hctx d left).bind

/-- The loop over operations is blocked by a chain that halts. -/
theorem operators (hs : Climb scope least n compared f s last g r)
    (h : Halts scope least last r t) (hctx : ctx.scope = scope) (d : Nat)
    (hw : s.length < whole.length) :
    Blocked t (parseOperators whole ctx d least compared f s hw) := by
  induction hs generalizing d with
  | nil => exact of_halts h hctx d _ hw
  | cons hop hlevel hcompared hg _ ih =>
    rw [parseOperators]
    simp only [hop, Nat.not_lt.mpr hlevel, hcompared, if_false, Bool.false_eq_true]
    exact .of_meets ((hg d).parses ctx hctx) fun hshort => ih h (d + 1) _

/-- So is the loop over tighter operations, a stretch of equal levels at a time. It asks for no
flag, so the operation that is next must not be a second comparison. -/
theorem tighter (hs : Climb scope (l + 1) n compared f s last g r)
    (h : Halts scope (l + 1) last r t) (hctx : ctx.scope = scope) (d : Nat)
    (hw : s.length < whole.length)
    (hnext : ∀ op, nextOperator? s = some op → (op.isComparison && compared) = false) :
    Blocked t (parseTighter whole ctx d l f s hw) := by
  induction n using Nat.strongRecOn generalizing compared f s with
  | ind n ih =>
    cases hs with
    | nil =>
      obtain ⟨op, t', r, rfl, hop, hlevel, ⟨hcompared, rfl⟩ | ⟨hcompared, hblocked⟩⟩ := h
      · rw [hnext op hop] at hcompared
        cases hcompared
      · rw [parseTighter]
        simp only [hop, Nat.not_le.mpr hlevel, if_false]
        exact (hblocked ctx hctx d _).bind
    | @cons n _ _ _ _ _ op t' _ v _ hop hlevel hcompared hg hrest =>
      rw [parseTighter]
      simp only [hop, Nat.not_le.mpr hlevel, if_false]
      refine .of_meets ((hg d).parses ctx hctx) fun hshort => ?_
      obtain ⟨k, flag, g', u, m, hfirst, hsecond, hle, hstop⟩ := hrest.cut op.level
      by_cases hbelow : ∀ op', nextOperator? u = some op' → op'.level < op.level
      · -- The stretch of this level ends before the chain halts.
        refine .of_meets ((hfirst.operators hbelow (d + 1)).parses ctx hctx _ hshort) fun _ => ?_
        refine ih m (Nat.lt_succ_of_le hle) hsecond _ fun op' hop' => ?_
        cases hflag : flag with
        | false => exact Bool.and_false _
        | true =>
          have hlow : op'.level < op.level := hbelow op' hop'
          have hthree : op.level ≤ 3 := by
            rcases hfirst.of_last hflag with hcomparison | hle
            · have heq : op.level = 3 := by simpa [Operator.isComparison] using hcomparison
              exact Nat.le_of_eq heq
            · exact hle
          have hne : op'.level ≠ 3 := by omega
          simpa [Operator.isComparison] using hne
      · -- The chain halts in this stretch.
        rcases hstop with rfl | hstop
        · cases hsecond
          refine Blocked.bind (operators hfirst ?_ hctx (d + 1) hshort)
          obtain ⟨op', t', r, rfl, hop', _, hcases⟩ := h
          refine ⟨op', t', r, rfl, hop', ?_, hcases⟩
          refine Nat.le_of_not_lt fun hlt => hbelow fun op'' hop'' => ?_
          obtain rfl : op' = op'' := Option.some.inj (hop'.symm.trans hop'')
          exact hlt
        · exact absurd hstop hbelow

end Stuck

/-! ## Levels -/

/-- The parser is blocked at a token of the text `s` at a level of the table, whatever follows. -/
def Barred (scope : List String) (t : Token) : (level : Nat) → (s : List Token) → Prop
  | 0, s => ∀ r (ctx : Context), ctx.scope = scope → ∀ d, Blocked t (parsePipe ctx d (s ++ r))
  | 1, s => ∀ r (ctx : Context), ctx.scope = scope → ∀ d, Blocked t (parseComma ctx d (s ++ r))
  | 2, s => ∀ r (ctx : Context), ctx.scope = scope → ∀ d,
      Blocked t (parseAlternative ctx d (s ++ r))
  | l + 3, s => ∀ r,
      (∀ ctx : Context, ctx.scope = scope → ∀ d, Blocked t (parseUnary ctx d (s ++ r))) ∨
        ∃ g u, (∀ d, Any scope d (.unary g) (s ++ r) u) ∧ Stuck scope (l + 1) false g u t

namespace Barred

variable {scope : List String} {t : Token} {level l : Nat} {f g : Filter} {s u r : List Token}
variable {loc : Range}

theorem append (h : Barred scope t level s) (v : List Token) : Barred scope t level (s ++ v) := by
  match level, h with
  | 0, h | 1, h | 2, h =>
    intro r ctx hctx d
    rw [List.append_assoc]
    exact h (v ++ r) ctx hctx d
  | l + 3, h =>
    intro r
    rw [List.append_assoc]
    exact h (v ++ r)

theorem alternative (h : Barred scope t 3 s) : Barred scope t 2 s := by
  intro r ctx hctx d
  rw [parseAlternative]
  rcases h r with hblocked | ⟨g, u, hg, n, last, f, v, hclimb, hhalts⟩
  · exact (hblocked ctx hctx d).bind
  · refine .of_meets ((hg d).parses ctx hctx) fun hshort => ?_
    exact (Stuck.operators hclimb hhalts hctx d hshort).bind

/-- What is barred at a level is barred at every lower one. -/
theorem lower (h : Barred scope t (l + 1) s) : Barred scope t l s := by
  match l, h with
  | 0, h =>
    intro r ctx hctx d
    rw [parsePipe]
    exact .checkDepth_bind (h r ctx hctx (d + 1)).bind
  | 1, h =>
    intro r ctx hctx d
    rw [parseComma]
    exact (h r ctx hctx d).bind
  | 2, h => exact h.alternative
  | l + 3, h =>
    intro r
    rcases h r with hblocked | ⟨g, u, hg, n, last, f, v, hclimb, op, t', v', hv, hop, hlevel, hcases⟩
    · exact .inl hblocked
    · exact .inr ⟨g, u, hg, n, last, f, v, hclimb.mono (Nat.le_succ _), op, t', v', hv, hop,
        Nat.le_of_succ_le hlevel, hcases⟩

theorem of_le (h : Barred scope t level s) (hle : l ≤ level) : Barred scope t l s := by
  induction hle with
  | refl => exact h
  | step _ ih => exact ih h.lower

/-- Above the levels of the operators it is the operand that is blocked. -/
theorem unary (h : Barred scope t negateLevel s) {ctx : Context} (hctx : ctx.scope = scope)
    (d : Nat) : Blocked t (parseUnary ctx d (s ++ r)) := by
  rcases h r with hblocked | ⟨g, u, _, n, last, f, v, hclimb, op, t', v', _, _, hlevel, _⟩
  · exact hblocked ctx hctx d
  · exact absurd hlevel (Nat.not_le.mpr op.level_lt_topLevel)

theorem paren (h : Barred scope t 0 s) (openLoc close : Range) :
    Barred scope t atomLevel
      (⟨.symbol .openParen, openLoc⟩ :: (s ++ [⟨.symbol .closeParen, close⟩])) := by
  refine fun r => .inl fun ctx hctx d => ?_
  rw [List.cons_append, List.append_assoc, parseUnary, parsePostfix, parsePrimary]
  · exact (h _ ctx hctx d).bind.bind
  · simp

/-- In parentheses, too, the text of a formula is barred. -/
theorem enclosed {F : Formula} (parens : Formula.Parens) (h : Barred scope t F.level s)
    (hl : l ≤ atomLevel) : Barred scope t l (F.enclosed parens l s) := by
  unfold Formula.enclosed
  split
  · exact (paren (h.of_le (Nat.zero_le _)) _ _).of_le hl
  · next hlt => exact h.of_le (Nat.le_of_not_lt hlt)

theorem negate (h : Barred scope t negateLevel s) :
    Barred scope t negateLevel (⟨.symbol .minus, loc⟩ :: s) := by
  refine fun r => .inl fun ctx hctx d => ?_
  rw [List.cons_append, parseUnary]
  exact .checkDepth_bind (h.unary hctx (d + 1)).bind

theorem operation {op : Operator} (h : Barred scope t (op.level + 3) u) {ctx : Context}
    (hctx : ctx.scope = scope) (d : Nat) (left : Filter) :
    Blocked t (parseOperation ctx d op loc left (u ++ r)) := by
  rw [parseOperation]
  refine .checkDepth_bind ?_
  rcases h r with hblocked | ⟨g, v, hg, n, last, f, w, hclimb, hhalts⟩
  · exact (hblocked ctx hctx (d + 1)).bind
  · refine .of_meets ((hg (d + 1)).parses ctx hctx) fun hshort => ?_
    refine (Stuck.tighter hclimb hhalts hctx (d + 1) hshort fun op' _ => ?_).bind
    exact Bool.and_false _

theorem operator (op : Operator) (hf : Taken scope op.joint.left f s)
    (hg : Barred scope t op.joint.right u) :
    Barred scope t op.joint.level (s ++ ⟨op.joint.kind, loc⟩ :: u) := by
  rw [op.joint_left] at hf
  rw [op.joint_right] at hg
  rw [op.joint_level]
  have hstuck : ∀ r, ∃ g v, (∀ d, Any scope d (.unary g) (s ++ ⟨op.joint.kind, loc⟩ :: (u ++ r)) v) ∧
      Stuck scope op.level false g v t := by
    intro r
    obtain ⟨g, v, n, last, hunary, hclimb⟩ := hf.chain (u ++ r)
    refine ⟨g, v, hunary, n, last, f, _, hclimb.mono op.level_le_leftLevel, op, _, _, rfl,
      op.ofKind?_joint, Nat.le_refl _, .inr ⟨?_, fun ctx hctx d left => hg.operation hctx d left⟩⟩
    exact hclimb.flag
  obtain ⟨m, hm⟩ : ∃ m, op.level = m + 1 := Nat.exists_eq_add_one.mpr op.level_pos
  rw [hm] at hstuck ⊢
  intro r
  obtain ⟨g, v, hunary, hchain⟩ := hstuck r
  rw [List.append_assoc, List.cons_append]
  exact .inr ⟨g, v, hunary, hchain⟩

/-- A right operand that is barred bars the whole. -/
theorem right (j : Joint) (hf : Taken scope j.left f s) (hg : Barred scope t j.right u) :
    Barred scope t j.level (s ++ ⟨j.kind, loc⟩ :: u) := by
  cases j with
  | pipe =>
    intro r ctx hctx d
    have hfollows : Follows 1 (⟨.symbol .pipe, loc⟩ :: (u ++ r)) := .joint .pipe (by decide)
    rw [List.append_assoc, List.cons_append, parsePipe]
    refine .checkDepth_bind (.of_meets ((hf.comma hfollows (by simp) (d + 1)).parses ctx hctx) ?_)
    exact fun _ => (hg r ctx hctx (d + 1)).bind
  | comma =>
    intro r ctx hctx d
    obtain ⟨h, v, hh, hlisted⟩ := hf (⟨.symbol .comma, loc⟩ :: (u ++ r)) (.joint .comma (by decide))
    rw [List.append_assoc, List.cons_append, parseComma]
    refine .of_meets ((hh d).parses ctx hctx) fun hshort => ?_
    exact hlisted.blocked (fun d => hg r ctx hctx d) hctx d hshort
  | alternative =>
    intro r ctx hctx d
    obtain ⟨h, v, n, last, hh, hclimb⟩ :=
      hf (⟨.symbol .alternative, loc⟩ :: (u ++ r)) (.joint .alternative (by decide))
    have hchain := hclimb.operators (by simp [Operator.ofKind?]) d
    rw [List.append_assoc, List.cons_append, parseAlternative]
    refine .of_meets ((hh d).parses ctx hctx) fun hshort => ?_
    refine .of_meets (hchain.parses ctx hctx _ hshort) fun _ => ?_
    exact .checkDepth_bind (hg r ctx hctx (d + 1)).bind
  | or => exact operator .or hf hg
  | and => exact operator .and hf hg
  | binary op => exact operator (.binary op) hf hg

/-- The second of two bare comparisons bars what they stand in, whatever its right operand is. -/
theorem comparisons {j j' : Joint} {loc' : Range} (hj : j.nesting = .none)
    (hj' : j'.nesting = .none) (hf : Taken scope 6 f s) (hg : Taken scope 6 g u)
    (v : List Token) :
    Barred scope ⟨j'.kind, loc'⟩ 5 (s ++ ⟨j.kind, loc⟩ :: (u ++ ⟨j'.kind, loc'⟩ :: v)) := by
  obtain ⟨op, rfl, hop⟩ := exists_of_nesting hj
  obtain ⟨op', rfl, hop'⟩ := exists_of_nesting hj'
  have hlevel : op.level = 3 := by simpa [Operator.isComparison] using hop
  have hlevel' : op'.level = 3 := by simpa [Operator.isComparison] using hop'
  have hleft : op.leftLevel + 2 = 6 := by rw [Operator.leftLevel, if_pos hop, hlevel]
  have hright : op.level + 3 = 6 := by rw [hlevel]
  intro r
  have hfollows : Follows 6 (⟨op'.joint.kind, loc'⟩ :: (v ++ r)) :=
    .joint op'.joint (Nat.le_of_eq (Joint.levels_of_nesting hj').2.1)
  have hle : ∀ op'', nextOperator? (⟨op'.joint.kind, loc'⟩ :: (v ++ r)) = some op'' →
      op''.level ≤ op.level := by
    intro op'' hnext
    obtain rfl : op' = op'' := Option.some.inj (op'.ofKind?_joint.symm.trans hnext)
    exact Nat.le_of_eq (hlevel'.trans hlevel.symm)
  rw [← hleft] at hf
  rw [← hright] at hg hfollows
  -- The chain up to the second operator ends in a comparison.
  obtain ⟨h, w, n, hunary, hclimb⟩ := Taken.climb loc hf hg hfollows hle
  rw [hlevel, hop] at hclimb
  have hhalts : Halts scope 3 true (⟨op'.joint.kind, loc'⟩ :: (v ++ r)) ⟨op'.joint.kind, loc'⟩ :=
    ⟨op', _, _, rfl, op'.ofKind?_joint, Nat.le_of_eq hlevel'.symm, .inl ⟨by rw [hop']; rfl, rfl⟩⟩
  simp only [List.append_assoc, List.cons_append]
  exact .inr ⟨h, w, hunary, n, true, _, _, hclimb, hhalts⟩

/-- The parser is barred by a misprint of a formula, at the level of the formula. -/
theorem of_misprint {parens : Formula.Parens} {F : Formula} (h : F.Misprint parens s t)
    (hnames : ∀ name ∈ F.names, name ∈ scope) : Barred scope t F.level s := by
  induction h with
  | @left loc loc' j j' f g h hj hj' =>
    have hf := (Taken.tokens parens f fun name hname => hnames name (by
      simp [Formula.names, hname])).enclosed parens j'.left_le_atomLevel
    have hg := (Taken.tokens parens g fun name hname => hnames name (by
      simp [Formula.names, hname])).enclosed parens j'.right_le_atomLevel
    obtain ⟨hlevel, _, _⟩ := Joint.levels_of_nesting hj
    obtain ⟨_, hleft', hright'⟩ := Joint.levels_of_nesting hj'
    rw [hleft'] at hf
    rw [hright'] at hg
    rw [Formula.level, hlevel, Formula.tokens, hleft', hright', List.append_assoc, List.cons_append]
    exact comparisons hj' hj hf hg _
  | @right loc loc' j j' f g h hj hj' =>
    have hf := (Taken.tokens parens f fun name hname => hnames name (by
      simp [Formula.names, hname])).enclosed parens j.left_le_atomLevel
    have hg := (Taken.tokens parens g fun name hname => hnames name (by
      simp [Formula.names, hname])).enclosed parens j'.left_le_atomLevel
    obtain ⟨hlevel, hleft, _⟩ := Joint.levels_of_nesting hj
    obtain ⟨_, hleft', _⟩ := Joint.levels_of_nesting hj'
    rw [hleft] at hf
    rw [hleft'] at hg
    rw [Formula.level, hlevel, Formula.tokens, hleft, hleft']
    exact comparisons hj hj' hf hg _
  | inNegate _ ih => exact (enclosed parens (ih hnames) (by decide)).negate
  | @inLeft loc j f g s t _ ih =>
    have hf := ih fun name hname => hnames name (List.mem_append_left _ hname)
    have hlevel : j.level ≤ j.left := j.level_le_left
    exact ((enclosed parens hf j.left_le_atomLevel).of_le hlevel).append _
  | @inRight loc j f g s t _ ih =>
    have hf := Taken.tokens parens f fun name hname => hnames name (List.mem_append_left _ hname)
    have hg := ih fun name hname => hnames name (List.mem_append_right _ hname)
    exact right j (hf.enclosed parens j.left_le_atomLevel)
      (enclosed parens hg j.right_le_atomLevel)

end Barred

/-! ## All tokens of a formula -/

theorem ofTokens_of_blocked {globals : List String} {s : List Token} {t : Token}
    (h : ∀ ctx : Context, ctx.scope = globals → Blocked t (parsePipe ctx 0 s)) :
    Blocked t (Filter.ofTokens globals s) := by
  have hblocked := h ⟨globals, finishOf s⟩ rfl
  have hfirst : (peek ⟨globals, finishOf s⟩ s).isFinish = false := by
    refine Bool.eq_false_iff.mpr fun hfinish => ?_
    rw [parsePipe_of_isFinish hfinish] at hblocked
    rcases hblocked with herror | ⟨t', herror⟩
    · cases herror
    · cases herror
  unfold Filter.ofTokens
  simp only [hfirst]
  exact hblocked.bind

/-- Precedence is complete. The text of a formula, with parentheses only where the table of the
operators needs them, is parsed as that formula, or it nests too deeply, for which it must be as
long as there are levels. If the parentheses of a comparison that is an operand of a comparison are
left out, the second operator of the two is unexpected, or the text nests too deeply. -/
theorem ofTokens_formula (globals : List String) (parens : Formula.Parens) (finish : Range)
    (F : Formula) (hnames : ∀ name ∈ F.names, name ∈ globals) :
    (Filter.ofTokens globals (F.tokens parens ++ [⟨.finish, finish⟩]) = .ok F.filter ∨
      maxDepth ≤ (F.tokens parens).length ∧
        ∃ t, Filter.ofTokens globals (F.tokens parens ++ [⟨.finish, finish⟩]) =
          .error (.tooDeep t)) ∧
    ∀ s t, F.Misprint parens s t →
      Filter.ofTokens globals (s ++ [⟨.finish, finish⟩]) = .error (.unexpected t) ∨
        ∃ t', Filter.ofTokens globals (s ++ [⟨.finish, finish⟩]) = .error (.tooDeep t') := by
  constructor
  · have htaken : Taken globals 0 F.filter (F.tokens parens) :=
      (Taken.tokens parens F hnames).of_le (Nat.zero_le _)
    have hpipe : Any globals 0 (.pipe F.filter) (F.tokens parens ++ [⟨.finish, finish⟩])
        [⟨.finish, finish⟩] := htaken _ (.of_closes rfl rfl) 0
    exact ofTokens_ok_or_tooDeep hpipe
  · intro s t hmisprint
    have hbarred : Barred globals t 0 s :=
      (Barred.of_misprint hmisprint hnames).of_le (Nat.zero_le _)
    exact ofTokens_of_blocked fun ctx hctx => hbarred _ ctx hctx 0

/-- `. < ($x < .)`, and `. < $x < .` where the second operator is unexpected. -/
theorem ofTokens_formula_less :
    Filter.ofTokens ["x"] [⟨.symbol .dot, .empty ⟨1, 1⟩⟩, ⟨.symbol .less, .empty ⟨1, 2⟩⟩,
        ⟨.symbol .openParen, .empty ⟨1, 3⟩⟩, ⟨.binding "x", .empty ⟨1, 4⟩⟩,
        ⟨.symbol .less, .empty ⟨1, 5⟩⟩, ⟨.symbol .dot, .empty ⟨1, 6⟩⟩,
        ⟨.symbol .closeParen, .empty ⟨1, 7⟩⟩, ⟨.finish, .empty ⟨1, 8⟩⟩] =
      .ok (.binary (.empty ⟨1, 2⟩) .lt (.identity (.empty ⟨1, 1⟩))
        (.binary (.empty ⟨1, 5⟩) .lt (.var (.empty ⟨1, 4⟩) "x") (.identity (.empty ⟨1, 6⟩)))) ∧
    (Filter.ofTokens ["x"] [⟨.symbol .dot, .empty ⟨1, 1⟩⟩, ⟨.symbol .less, .empty ⟨1, 2⟩⟩,
        ⟨.binding "x", .empty ⟨1, 4⟩⟩, ⟨.symbol .less, .empty ⟨1, 5⟩⟩,
        ⟨.symbol .dot, .empty ⟨1, 6⟩⟩, ⟨.finish, .empty ⟨1, 8⟩⟩] =
      .error (.unexpected ⟨.symbol .less, .empty ⟨1, 5⟩⟩) ∨
        ∃ t, Filter.ofTokens ["x"] [⟨.symbol .dot, .empty ⟨1, 1⟩⟩, ⟨.symbol .less, .empty ⟨1, 2⟩⟩,
          ⟨.binding "x", .empty ⟨1, 4⟩⟩, ⟨.symbol .less, .empty ⟨1, 5⟩⟩,
          ⟨.symbol .dot, .empty ⟨1, 6⟩⟩, ⟨.finish, .empty ⟨1, 8⟩⟩] = .error (.tooDeep t)) := by
  have hless := ofTokens_formula ["x"] (fun _ => (.empty ⟨1, 3⟩, .empty ⟨1, 7⟩)) (.empty ⟨1, 8⟩)
    (.join (.empty ⟨1, 2⟩) (.binary .lt) (.identity (.empty ⟨1, 1⟩))
      (.join (.empty ⟨1, 5⟩) (.binary .lt) (.var (.empty ⟨1, 4⟩) "x")
        (.identity (.empty ⟨1, 6⟩)))) (by simp [Formula.names])
  refine ⟨hless.1.resolve_right fun hdeep => ?_, hless.2 _ _ (.right rfl rfl)⟩
  exact absurd hdeep.1 (by decide)

end JsonFilter.Filter.Parser
