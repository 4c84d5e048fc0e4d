import JsonFilter.Proofs.Grammar.Table

/-!
The parser reads a formula back level by level. On the levels of the operators it climbs: it holds a
left operand and takes one operation after the other (`Climb`), and each right operand is climbed
from a higher level. What is taken at a level, whatever follows that the level allows, is stated
once for all levels (`Taken`), so that a node of a formula is one step. A bare comparison that is an
operand of another one stops the parser on every level around it in the same way (`Barred`).
-/

namespace JsonFilter.Filter.Parser

/-- Derivations of any depth. -/
abbrev Any : (scope : List String) → (depth : Nat) → Part → (s r : List Token) → Prop :=
  Derives fun _ => True

/-- A token of this kind may follow a filter that is complete: it opens no suffix, and is neither a
key of a `.` nor begins the arguments of a name or a handler. -/
def closes : Token.Kind → Bool
  | .string _ => false
  | .symbol .openParen => false
  | .keyword .catchWord => false
  | k => !opensSuffix k

/-- Tokens may follow a text of a level: what is before them is complete, and no operator comes that
would take away from the text a part that binds less tightly than the level. -/
def Follows (level : Nat) (r : List Token) : Prop :=
  ∀ k, nextKind? r = some k → closes k = true ∧ ∀ j, joint? k = some j → j.left ≤ level

namespace Follows

variable {l m : Nat} {r : List Token} {loc : Range}

theorem mono (h : Follows l r) (hle : l ≤ m) : Follows m r := by
  intro k hk
  obtain ⟨hcloses, hleft⟩ := h k hk
  exact ⟨hcloses, fun j hj => Nat.le_trans (hleft j hj) hle⟩

theorem joint (j : Joint) (h : j.left ≤ l) : Follows l (⟨j.kind, loc⟩ :: r) := by
  intro k hk
  obtain rfl : j.kind = k := Option.some.inj hk
  refine ⟨?_, fun j' hj' => ?_⟩
  · rcases j with _ | _ | _ | _ | _ | _ | _ <;> rfl
  · obtain rfl : j = j' := Option.some.inj ((joint?_kind j).symm.trans hj')
    exact h

/-- Any token that closes a filter and is no operator may follow. -/
theorem of_closes {k : Token.Kind} (hk : closes k = true) (hj : joint? k = none) :
    Follows l (⟨k, loc⟩ :: r) := by
  intro k' hk'
  obtain rfl : k = k' := Option.some.inj hk'
  exact ⟨hk, fun j h => by cases hj.symm.trans h⟩

theorem nextKind?_ne (h : Follows l r) (j : Joint) (hlt : l < j.left) :
    nextKind? r ≠ some j.kind := fun hnext =>
  absurd ((h _ hnext).2 j (joint?_kind j)) (Nat.not_le.mpr hlt)

theorem nextOperator?_le (h : Follows l r) {op : Operator} (hop : nextOperator? r = some op) :
    op.joint.left ≤ l := by
  obtain ⟨k, hk, hop⟩ := Option.bind_eq_some_iff.mp hop
  exact (h k hk).2 _ (joint?_of_ofKind? hop)

theorem suffixes_nil (h : Follows l r) {scope : List String} {d : Nat} (base : Nat) (f : Filter) :
    Any scope d (.suffixes base f f) r r := by
  refine .suffixes_nil fun k hk => ?_
  have hcloses := (h k hk).1
  unfold closes at hcloses
  split at hcloses
  · rfl
  · rfl
  · rfl
  · simpa using hcloses

theorem nextKind?_ne_string (h : Follows l r) (name : String) :
    nextKind? r ≠ some (.string name) := by
  intro hk
  cases (h _ hk).1

end Follows

/-! ## Chains -/

/-- A chain of commas from a left operand on. -/
inductive Listed (scope : List String) : Filter → List Token → Filter → List Token → Prop where
  | nil {f s} : Listed scope f s f s
  | cons {f g h loc s r u} : (∀ d, Any scope d (.alternative g) s r) →
      Listed scope (.comma loc f g) r h u → Listed scope f (⟨.symbol .comma, loc⟩ :: s) h u

/-- A chain of `count` operations of at least a level, from a left operand on. The flags say whether
the left operand and the result end in a comparison of the chain. -/
inductive Climb (scope : List String) (least : Nat) :
    (count : Nat) → Bool → Filter → List Token → Bool → Filter → List Token → Prop where
  | nil {compared f s} : Climb scope least 0 compared f s compared f s
  | cons {n compared last f g h op t s r u} : Operator.ofKind? t.kind = some op →
      least ≤ op.level → (op.isComparison && compared) = false →
      (∀ d, Any scope d (.operation op t.range f g) s r) →
      Climb scope least n op.isComparison g r last h u →
      Climb scope least (n + 1) compared f (t :: s) last h u

namespace Listed

variable {scope : List String} {f g h : Filter} {s r u : List Token}

theorem snoc {loc : Range} (hs : Listed scope f s g (⟨.symbol .comma, loc⟩ :: r))
    (hh : ∀ d, Any scope d (.alternative h) r u) : Listed scope f s (.comma loc g h) u := by
  generalize ht : (⟨.symbol .comma, loc⟩ :: r : List Token) = t at hs
  induction hs with
  | nil =>
    subst ht
    exact .cons hh .nil
  | cons hg _ ih => exact .cons hg (ih ht)

theorem commaTail (hs : Listed scope f s g r) (hne : nextKind? r ≠ some (.symbol .comma))
    (d : Nat) : Any scope d (.commaTail f g) s r := by
  induction hs generalizing d with
  | nil => exact .commaTail_nil hne
  | cons hg _ ih => exact .commaTail_cons trivial (hg (d + 1)) (ih hne (d + 1))

end Listed

namespace Climb

variable {scope : List String} {least l m n : Nat} {compared last : Bool} {f g h : Filter}
variable {s r u : List Token} {op : Operator} {t : Token}

theorem mono (hs : Climb scope m n compared f s last g r) (hle : l ≤ m) :
    Climb scope l n compared f s last g r := by
  induction hs with
  | nil => exact .nil
  | cons hop hlevel hcompared hg _ ih => exact .cons hop (Nat.le_trans hle hlevel) hcompared hg ih

/-- A chain and one more operation. -/
theorem snoc (hs : Climb scope least n compared f s last g (t :: r))
    (hop : Operator.ofKind? t.kind = some op) (hlevel : least ≤ op.level)
    (hlast : (op.isComparison && last) = false)
    (hh : ∀ d, Any scope d (.operation op t.range g h) r u) :
    Climb scope least (n + 1) compared f s op.isComparison h u := by
  generalize ht : t :: r = v at hs
  induction hs with
  | nil =>
    subst ht
    exact .cons hop hlevel hlast hh .nil
  | cons hop' hlevel' hcompared' hg _ ih =>
    exact .cons hop' hlevel' hcompared' hg (ih hlast hh ht)

theorem operators (hs : Climb scope least n compared f s last g r)
    (hlow : ∀ op, nextOperator? r = some op → op.level < least) (d : Nat) :
    Any scope d (.operators least compared f g) s r := by
  induction hs generalizing d with
  | nil => exact .operators_nil hlow
  | cons hop hlevel hcompared hg _ ih =>
    exact .operators_cons hop hlevel hcompared (hg d) (ih hlow (d + 1))

/-- A chain is cut before its first operation below a level. -/
theorem cut (hs : Climb scope least n compared f s last g r) (l : Nat) :
    ∃ k flag h u m, Climb scope l k compared f s flag h u ∧ Climb scope least m flag h u last g r ∧
      m ≤ n ∧ (m = 0 ∨ ∀ op, nextOperator? u = some op → op.level < l) := by
  induction hs with
  | nil => exact ⟨0, _, _, _, 0, .nil, .nil, Nat.le_refl 0, .inl rfl⟩
  | @cons n _ _ _ _ _ op t _ _ _ hop hlevel hcompared hg hrest ih =>
    by_cases hl : l ≤ op.level
    · obtain ⟨k, flag, h, u, m, hfirst, hsecond, hle, hstop⟩ := ih
      exact ⟨k + 1, flag, h, u, m, .cons hop hl hcompared hg hfirst, hsecond,
        Nat.le_succ_of_le hle, hstop⟩
    · refine ⟨0, _, _, _, n + 1, .nil, .cons hop hlevel hcompared hg hrest, Nat.le_refl _,
        .inr fun op' hop' => ?_⟩
      obtain rfl : op = op' := Option.some.inj (hop.symm.trans hop')
      exact Nat.lt_of_not_le hl

/-- A chain above a level is what is taken before an operator of the level, a stretch of equal
levels at a time. -/
theorem tighter (hs : Climb scope (l + 1) n compared f s last g r)
    (hlow : ∀ op, nextOperator? r = some op → op.level ≤ l) (d : Nat) :
    Any scope d (.tighter l f g) s r := by
  induction n using Nat.strongRecOn generalizing compared f s with
  | ind n ih =>
    cases hs with
    | nil => exact .tighter_nil hlow
    | @cons n _ _ _ _ _ op _ _ _ _ hop hlevel _ hg hrest =>
      obtain ⟨_, _, h, u, m, hfirst, hsecond, hle, hstop⟩ := hrest.cut op.level
      have hnext : ∀ op', nextOperator? u = some op' → op'.level < op.level := by
        rcases hstop with rfl | hstop
        · cases hsecond
          exact fun op' hop' => Nat.lt_of_le_of_lt (hlow op' hop') hlevel
        · exact hstop
      exact .tighter_cons hop hlevel (hg d) (hfirst.operators hnext (d + 1))
        (ih m (Nat.lt_succ_of_le hle) hsecond)

/-- A chain that ends in a comparison begins with one, or goes down to the level of them. -/
theorem of_last (hs : Climb scope least n compared f s last g r) (hlast : last = true) :
    compared = true ∨ least ≤ 3 := by
  induction hs with
  | nil => exact .inl hlast
  | @cons _ _ _ _ _ _ op _ _ _ _ _ hlevel _ _ _ ih =>
    right
    rcases ih hlast with hcomparison | hle
    · have hthree : op.level = 3 := by simpa [Operator.isComparison] using hcomparison
      exact hthree ▸ hlevel
    · exact hle

/-- No comparison is the last one of the tighter operations before a comparison. -/
theorem flag (hs : Climb scope op.leftLevel n false f s last g r) :
    (op.isComparison && last) = false := by
  cases hlast : last with
  | false => exact Bool.and_false _
  | true =>
    rw [Bool.and_true]
    rcases hs.of_last hlast with hfalse | hle
    · cases hfalse
    · have hlevel := op.level_le_leftLevel
      refine Bool.eq_false_iff.mpr fun hcomparison => ?_
      have hthree : op.level = 3 := by simpa [Operator.isComparison] using hcomparison
      rw [Operator.leftLevel, if_pos hcomparison] at hle
      omega

end Climb

/-! ## Formulas -/

/-- The parser takes the text `s` as the filter `f` at a level of the table, whatever follows that
may follow there. -/
def Taken (scope : List String) : (level : Nat) → Filter → (s : List Token) → Prop
  | 0, f, s => ∀ r, Follows 0 r → ∀ d, Any scope d (.pipe f) (s ++ r) r
  | 1, f, s => ∀ r, Follows 1 r → ∃ g u, (∀ d, Any scope d (.alternative g) (s ++ r) u) ∧
      Listed scope g u f r
  | 2, f, s => ∀ r, Follows 2 r → ∀ d, Any scope d (.alternative f) (s ++ r) r
  | l + 3, f, s => ∀ r, Follows (l + 3) r → ∃ g u n last,
      (∀ d, Any scope d (.unary g) (s ++ r) u) ∧ Climb scope (l + 1) n false g u last f r

/-- On every operator's level, the operators that may follow are at most as tight as the level. -/
theorem Follows.level_le {l : Nat} {r : List Token} (h : Follows (l + 2) r) {op : Operator}
    (hop : nextOperator? r = some op) : op.level ≤ l := by
  have hle : op.joint.left ≤ l + 2 := h.nextOperator?_le hop
  have hlevel : op.leftLevel + 2 ≤ l + 2 := op.joint_left ▸ hle
  have hleft := op.level_le_leftLevel
  omega

namespace Taken

variable {scope : List String} {level l : Nat} {f g : Filter} {s u r : List Token} {loc : Range}

/-- From the levels of operations to that of `//`. -/
theorem alternative (h : Taken scope 3 f s) : Taken scope 2 f s := by
  intro r hr d
  obtain ⟨g, u, n, last, hg, hclimb⟩ := h r (hr.mono (by decide))
  have hlow : ∀ op, nextOperator? r = some op → op.level < 1 := fun op hop =>
    Nat.lt_succ_of_le (Follows.level_le hr hop)
  have hnext : nextKind? r ≠ some (.symbol .alternative) :=
    hr.nextKind?_ne .alternative (by decide)
  exact .alternative_last (hg d) (hclimb.operators hlow d) hnext

theorem comma (h : Taken scope 1 f s) (hr : Follows 1 r)
    (hne : nextKind? r ≠ some (.symbol .comma)) (d : Nat) :
    Any scope d (.comma f) (s ++ r) r := by
  obtain ⟨g, u, hg, hlisted⟩ := h r hr
  exact .comma (hg d) (hlisted.commaTail hne d)

/-- What is taken at a level is taken at every lower one. -/
theorem lower (h : Taken scope (l + 1) f s) : Taken scope l f s := by
  match l, h with
  | 0, h =>
    intro r hr d
    have hcomma : nextKind? r ≠ some (.symbol .comma) := hr.nextKind?_ne .comma (by decide)
    have hpipe : nextKind? r ≠ some (.symbol .pipe) := hr.nextKind?_ne .pipe (by decide)
    exact .pipe_last trivial (h.comma (hr.mono (by decide)) hcomma (d + 1)) hpipe
  | 1, h =>
    intro r hr
    exact ⟨f, r, fun d => h r (hr.mono (by decide)) d, .nil⟩
  | 2, h => exact h.alternative
  | l + 3, h =>
    intro r hr
    obtain ⟨g, u, n, last, hg, hclimb⟩ := h r (hr.mono (Nat.le_succ _))
    exact ⟨g, u, n, last, hg, hclimb.mono (Nat.le_succ _)⟩

theorem of_le (h : Taken scope level f s) (hle : l ≤ level) : Taken scope l f s := by
  induction hle with
  | refl => exact h
  | step _ ih => exact ih h.lower

/-- An operand that no operator joins is taken at every level of operations. -/
theorem of_unary (h : ∀ r, Follows (l + 3) r → ∀ d, Any scope d (.unary f) (s ++ r) r) :
    Taken scope (l + 3) f s :=
  fun r hr => ⟨f, r, 0, false, h r hr, .nil⟩

/-- Above the levels of the operators there are no chains. -/
theorem unary (h : Taken scope negateLevel f s) (hr : Follows negateLevel r) (d : Nat) :
    Any scope d (.unary f) (s ++ r) r := by
  obtain ⟨g, u, n, last, hg, hclimb⟩ := h r hr
  cases hclimb with
  | nil => exact hg d
  | @cons _ _ _ _ _ _ op _ _ _ _ _ hlevel _ _ _ =>
    have hlt : op.level < topLevel := op.level_lt_topLevel
    exact absurd hlevel (Nat.not_le.mpr hlt)

/-- A primary filter without suffixes. -/
theorem of_primary (hminus : ∀ r, nextKind? (s ++ r) ≠ some (.symbol .minus))
    (h : ∀ r, Follows atomLevel r → ∀ d, Any scope d (.primary f) (s ++ r) r) :
    Taken scope atomLevel f s := by
  refine of_unary fun r hr d => ?_
  exact .unary_term (hminus r) (.term (h r hr d) (hr.suffixes_nil d f))

theorem paren (h : Taken scope 0 f s) (openLoc close : Range) :
    Taken scope atomLevel f
      (⟨.symbol .openParen, openLoc⟩ :: (s ++ [⟨.symbol .closeParen, close⟩])) := by
  refine of_primary (by simp) fun r _ d => ?_
  rw [List.cons_append, List.append_assoc]
  exact .primary_paren (h _ (.of_closes rfl rfl) d)

/-- A formula's text is taken where a level is asked for, in parentheses if need be. -/
theorem enclosed {F : Formula} (parens : Formula.Parens) (h : Taken scope F.level f s)
    (hl : l ≤ atomLevel) : Taken scope l f (F.enclosed parens l s) := by
  unfold Formula.enclosed
  split
  · exact (paren (h.of_le (Nat.zero_le _)) _ _).of_le hl
  · next hlt => exact h.of_le (Nat.le_of_not_lt hlt)

theorem negate (h : Taken scope negateLevel f s) :
    Taken scope negateLevel (.negate loc f) (⟨.symbol .minus, loc⟩ :: s) := by
  refine of_unary fun r hr d => ?_
  exact .unary_minus trivial (h.unary hr (d + 1))

/-- A left operand before its operator, as a chain of tighter operations. -/
theorem chain {op : Operator} (h : Taken scope (op.leftLevel + 2) f s) (r : List Token) :
    ∃ g v n last, (∀ d, Any scope d (.unary g) (s ++ ⟨op.joint.kind, loc⟩ :: r) v) ∧
      Climb scope op.leftLevel n false g v last f (⟨op.joint.kind, loc⟩ :: r) := by
  have hfollows : Follows (op.leftLevel + 2) (⟨op.joint.kind, loc⟩ :: r) :=
    .joint op.joint (Nat.le_of_eq op.joint_left)
  obtain ⟨m, hm⟩ : ∃ m, op.leftLevel = m + 1 :=
    Nat.exists_eq_add_one.mpr (Nat.lt_of_lt_of_le op.level_pos op.level_le_leftLevel)
  rw [hm] at h hfollows ⊢
  exact h _ hfollows

/-- An operation with its right operand, after a left operand. -/
theorem operation {op : Operator} (h : Taken scope (op.level + 3) g u)
    (hr : Follows (op.level + 3) r)
    (hle : ∀ op', nextOperator? r = some op' → op'.level ≤ op.level) (d : Nat) :
    Any scope d (.operation op loc f (op.apply loc f g)) (u ++ r) r := by
  obtain ⟨g', v, n, last, hg, hclimb⟩ := h r hr
  exact .operation trivial (hg (d + 1)) (hclimb.tighter hle (d + 1))

/-- Two operands and an operator between them, as a chain that ends with this operation. -/
theorem climb {op : Operator} (loc : Range) (hf : Taken scope (op.leftLevel + 2) f s)
    (hg : Taken scope (op.level + 3) g u) (hr : Follows (op.level + 3) r)
    (hle : ∀ op', nextOperator? r = some op' → op'.level ≤ op.level) :
    ∃ h v n, (∀ d, Any scope d (.unary h) (s ++ ⟨op.joint.kind, loc⟩ :: (u ++ r)) v) ∧
      Climb scope op.level n false h v op.isComparison (op.apply loc f g) r := by
  obtain ⟨h, v, n, last, hh, hclimb⟩ := hf.chain (u ++ r)
  have hoperation : ∀ d, Any scope d (.operation op loc f (op.apply loc f g)) (u ++ r) r :=
    hg.operation hr hle
  exact ⟨h, v, n + 1, hh, (hclimb.mono op.level_le_leftLevel).snoc op.ofKind?_joint (Nat.le_refl _)
    hclimb.flag hoperation⟩

theorem operator (op : Operator) (hf : Taken scope op.joint.left f s)
    (hg : Taken scope op.joint.right g u) :
    Taken scope op.joint.level (op.joint.apply loc f g) (s ++ ⟨op.joint.kind, loc⟩ :: u) := by
  rw [op.joint_left] at hf
  rw [op.joint_right] at hg
  rw [op.joint_level, op.apply_joint]
  have hclimb : ∀ r, Follows (op.level + 2) r → _ := fun r hr =>
    climb loc hf hg (hr.mono (Nat.le_succ _)) fun op' hop' => hr.level_le hop'
  obtain ⟨m, hm⟩ : ∃ m, op.level = m + 1 := Nat.exists_eq_add_one.mpr op.level_pos
  rw [hm] at hclimb ⊢
  intro r hr
  obtain ⟨h, v, n, hh, hchain⟩ := hclimb r hr
  rw [List.append_assoc, List.cons_append]
  exact ⟨h, v, n, op.isComparison, hh, hchain⟩

/-- Two operands and any operator between them. -/
theorem join (j : Joint) (hf : Taken scope j.left f s) (hg : Taken scope j.right g u) :
    Taken scope j.level (j.apply loc f g) (s ++ ⟨j.kind, loc⟩ :: u) := by
  cases j with
  | pipe =>
    intro r hr d
    have hfollows : Follows 1 (⟨.symbol .pipe, loc⟩ :: (u ++ r)) := .joint .pipe (by decide)
    rw [List.append_assoc, List.cons_append]
    exact .pipe_more trivial (hf.comma hfollows (by simp) (d + 1)) (hg r hr (d + 1))
  | comma =>
    intro r hr
    obtain ⟨h, v, hh, hlisted⟩ := hf (⟨.symbol .comma, loc⟩ :: (u ++ r)) (.joint .comma (by decide))
    rw [List.append_assoc, List.cons_append]
    exact ⟨h, v, hh, hlisted.snoc fun d => hg r (hr.mono (by decide)) d⟩
  | alternative =>
    intro r hr d
    obtain ⟨h, v, n, last, hh, hclimb⟩ :=
      hf (⟨.symbol .alternative, loc⟩ :: (u ++ r)) (.joint .alternative (by decide))
    rw [List.append_assoc, List.cons_append]
    exact .alternative_more (hh d) (hclimb.operators (by simp [Operator.ofKind?]) d) trivial
      (hg r hr (d + 1))
  | or => exact operator .or hf hg
  | and => exact operator .and hf hg
  | binary op => exact operator (.binary op) hf hg

/-- The text of a formula is taken at its level. -/
theorem tokens (parens : Formula.Parens) (F : Formula) (hnames : ∀ name ∈ F.names, name ∈ scope) :
    Taken scope F.level F.filter (F.tokens parens) := by
  induction F with
  | identity loc =>
    refine of_primary (by simp [Formula.tokens]) fun r hr d => ?_
    exact .primary_identity hr.nextKind?_ne_string
  | literal loc l =>
    refine of_primary ?_ fun r _ d => .primary_literal ?_
    · cases l with
      | bool b => cases b <;> simp [Formula.tokens, literalKind]
      | _ => simp [Formula.tokens, literalKind]
    · cases l with
      | bool b => cases b <;> rfl
      | _ => rfl
  | var loc name =>
    refine of_primary (by simp [Formula.tokens]) fun r _ d => .primary_var ?_
    exact hnames name (List.mem_singleton_self name)
  | negate loc f ih =>
    exact (enclosed parens (ih hnames) (by decide)).negate
  | join loc j f g ihf ihg =>
    have hf := ihf fun name hname => hnames name (List.mem_append_left _ hname)
    have hg := ihg fun name hname => hnames name (List.mem_append_right _ hname)
    exact join j (enclosed parens hf j.left_le_atomLevel) (enclosed parens hg j.right_le_atomLevel)

end Taken

end JsonFilter.Filter.Parser
