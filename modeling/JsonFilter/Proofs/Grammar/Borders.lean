import JsonFilter.Proofs.Grammar.Table

/-!
What derived parts begin with and what does not follow them. A part is taken as long as possible, so
what follows it is no token that it could go on with.
-/

namespace JsonFilter.Filter.Parser

/-- A word before this token is a key. -/
def closesKey : Option Token.Kind → Bool
  | some (.symbol .colon) => true
  | some (.symbol .comma) => true
  | some (.symbol .closeBrace) => true
  | _ => false

variable {fits : Nat → Prop} {scope : List String} {d : Nat} {part : Part} {s r : List Token}

/-- No filter begins with a token that closes a key. -/
def Part.Begins (s : List Token) : Part → Prop
  | .pipe _ => closesKey (nextKind? s) = false
  | .comma _ => closesKey (nextKind? s) = false
  | .alternative _ => closesKey (nextKind? s) = false
  | .unary _ => closesKey (nextKind? s) = false
  | .term _ => closesKey (nextKind? s) = false
  | .primary _ => closesKey (nextKind? s) = false
  | .branches _ _ => closesKey (nextKind? s) = false
  | _ => True

theorem Derives.begins (h : Derives fits scope d part s r) : part.Begins s := by
  induction h with
  | pipe_last _ _ _ ih => exact ih
  | pipe_more _ _ _ ih _ => exact ih
  | comma _ _ ih _ => exact ih
  | alternative_last _ _ _ ih _ => exact ih
  | alternative_more _ _ _ _ ih _ _ => exact ih
  | unary_minus _ _ _ => exact rfl
  | unary_term _ _ ih => exact ih
  | term _ _ ih _ => exact ih
  | @primary_literal _ _ kind _ _ _ hl =>
    cases kind with
    | symbol => cases hl
    | _ => rfl
  | branches_end _ _ ih _ => exact ih
  | branches_else _ _ _ ih _ _ => exact ih
  | branches_more _ _ _ ih _ _ => exact ih
  | _ => trivial

/-- No suffix follows. -/
def NoSuffix (r : List Token) : Prop := ∀ k, nextKind? r = some k → opensSuffix k = false

/-- No suffix follows, and no operator of at least a level. -/
structure Below (level : Nat) (r : List Token) : Prop where
  suffix : NoSuffix r
  operator : ∀ k j, nextKind? r = some k → joint? k = some j → j.level < level

theorem kind_of_joint? {k : Token.Kind} {j : Joint} (h : joint? k = some j) : k = j.kind := by
  cases k with
  | symbol s => cases s <;> cases h <;> rfl
  | keyword w => cases w <;> cases h <;> rfl
  | _ => cases h

namespace Below

/-- Without the one operator of a level, only those of lower levels follow. -/
theorem tighten {j : Joint} {level : Nat} (h : Below (level + 1) r)
    (hunique : ∀ j' : Joint, j'.level = level → j' = j) (hj : nextKind? r ≠ some j.kind) :
    Below level r where
  suffix := h.suffix
  operator k j' hk hj' := by
    refine Nat.lt_of_le_of_ne (Nat.le_of_lt_succ (h.operator k j' hk hj')) fun hlevel => hj ?_
    rw [hk, kind_of_joint? hj', hunique j' hlevel]

theorem comma (h : Below 2 r) (hne : nextKind? r ≠ some (.symbol .comma)) : Below 1 r := by
  refine h.tighten (j := .comma) (fun j hj => ?_) hne
  rcases j with _ | _ | _ | _ | _ | _ | _ <;> first | rfl | cases hj

theorem pipe (h : Below 1 r) (hne : nextKind? r ≠ some (.symbol .pipe)) : Below 0 r := by
  refine h.tighten (j := .pipe) (fun j hj => ?_) hne
  rcases j with _ | _ | _ | _ | _ | _ | _ <;> first | rfl | cases hj

theorem of_operators (hsuffix : NoSuffix r)
    (hlow : ∀ op, nextOperator? r = some op → op.level < 1)
    (hne : nextKind? r ≠ some (.symbol .alternative)) : Below 2 r where
  suffix := hsuffix
  operator k j hk hj := by
    have hnone (op : Operator) (hop : Operator.ofKind? k = some op) : False := by
      have hlt := hlow op (Option.bind_eq_some_iff.mpr ⟨k, hk, hop⟩)
      have hpos := op.level_pos
      omega
    obtain rfl := kind_of_joint? hj
    cases j with
    | pipe => exact Nat.zero_lt_two
    | comma => exact Nat.one_lt_two
    | alternative => exact absurd hk hne
    | or => exact (hnone .or rfl).elim
    | and => exact (hnone .and rfl).elim
    | binary op => exact (hnone _ (Operator.ofKind?_joint (.binary op))).elim

end Below

/-- What does not follow a part. A chain that takes nothing has behind it what its left operand
has. -/
def Part.Ends (s r : List Token) : Part → Prop
  | .pipe _ => Below 0 r
  | .comma _ => Below 1 r
  | .commaTail _ _ => Below 2 s → Below 1 r
  | .alternative _ => Below 2 r
  | .operators least _ _ _ => (NoSuffix s → NoSuffix r) ∧
    ∀ op, nextOperator? r = some op → op.level < least
  | .operation _ _ _ _ => NoSuffix r
  | .tighter _ _ _ => NoSuffix s → NoSuffix r
  | .unary _ => NoSuffix r
  | .term _ => NoSuffix r
  | .suffixes _ _ _ => NoSuffix r
  | .binding _ _ _ => Below 0 r
  | _ => True

theorem Derives.ends (h : Derives fits scope d part s r) : part.Ends s r := by
  induction h with
  | pipe_last _ _ hpipe ih => exact ih.pipe hpipe
  | pipe_more _ _ _ _ ih => exact ih
  | comma _ _ ih ih' => exact ih' ih
  | commaTail_nil hcomma => exact fun hbelow => hbelow.comma hcomma
  | commaTail_cons _ _ _ ih ih' => exact fun _ => ih' ih
  | alternative_last _ _ hne ih ih' => exact .of_operators (ih'.1 ih) ih'.2 hne
  | alternative_more _ _ _ _ _ _ ih => exact ih
  | operators_nil hlow => exact ⟨id, hlow⟩
  | operators_cons _ _ _ _ _ ih ih' => exact ⟨fun _ => ih'.1 ih, ih'.2⟩
  | operation _ _ _ ih ih' => exact ih' ih
  | tighter_nil _ => exact id
  | tighter_cons _ _ _ _ _ ih ih' ih'' => exact fun _ => ih'' (ih'.1 ih)
  | unary_minus _ _ ih => exact ih
  | unary_term _ _ ih => exact ih
  | term _ _ _ ih => exact ih
  | suffixes_nil hsuffix => exact hsuffix
  | suffixes_field _ _ ih => exact ih
  | suffixes_string _ _ ih => exact ih
  | suffixes_dotBracket _ _ _ _ ih => exact ih
  | suffixes_bracket _ _ _ _ ih => exact ih
  | suffixes_question _ _ ih => exact ih
  | suffixes_binding _ ih => exact ih.suffix
  | binding _ ih => exact ih
  | _ => trivial

end JsonFilter.Filter.Parser
