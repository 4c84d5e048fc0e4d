import JsonFilter.Proofs.Grammar.Complete

/-!
The table of the operators, and formulas written by it. A formula is a tree of operators over
literals, variables and `.`, and `Formula.tokens` writes it with no more parentheses than its levels
need. `Formula.Misprint` writes one pair less: a comparison stands bare as an operand of another.
-/

namespace JsonFilter.Filter

/-! ## The table -/

/-- How operators of one level nest without parentheses. -/
inductive Nesting where
  | left
  | right
  | none
  deriving DecidableEq

/-- The operators between two operands. -/
inductive Joint where
  | pipe
  | comma
  | alternative
  | or
  | and
  | binary (op : BinaryOp)

namespace Joint

/-- How tightly an operator binds. -/
def level : Joint → Nat
  | .pipe => 0
  | .comma => 1
  | .alternative => 2
  | .or => 3
  | .and => 4
  | .binary op =>
    match op with
    | .eq | .ne | .lt | .le | .gt | .ge => 5
    | .add | .sub => 6
    | .mul | .div | .rem => 7

def nesting : Joint → Nesting
  | .pipe | .alternative => .right
  | .comma | .or | .and => .left
  | .binary op =>
    match op with
    | .eq | .ne | .lt | .le | .gt | .ge => .none
    | .add | .sub | .mul | .div | .rem => .left

/-- The least level of a left operand without parentheses. -/
def left (j : Joint) : Nat := if j.nesting = .left then j.level else j.level + 1

/-- The least level of a right operand without parentheses. -/
def right (j : Joint) : Nat := if j.nesting = .right then j.level else j.level + 1

/-- The kind of token that an operator is written as. -/
def kind : Joint → Token.Kind
  | .pipe => .symbol .pipe
  | .comma => .symbol .comma
  | .alternative => .symbol .alternative
  | .or => .keyword .orWord
  | .and => .keyword .andWord
  | .binary .eq => .symbol .equal
  | .binary .ne => .symbol .notEqual
  | .binary .lt => .symbol .less
  | .binary .le => .symbol .atMost
  | .binary .gt => .symbol .greater
  | .binary .ge => .symbol .atLeast
  | .binary .add => .symbol .plus
  | .binary .sub => .symbol .minus
  | .binary .mul => .symbol .times
  | .binary .div => .symbol .slash
  | .binary .rem => .symbol .percent

/-- The filter of an operator and its operands. -/
def apply (loc : Range) (f g : Filter) : Joint → Filter
  | .pipe => .pipe loc f g
  | .comma => .comma loc f g
  | .alternative => .alternative loc f g
  | .or => .or loc f g
  | .and => .and loc f g
  | .binary op => .binary loc op f g

end Joint

/-- The level of unary minus. -/
def negateLevel : Nat := 8

/-- The level of what never needs parentheses. -/
def atomLevel : Nat := 9

theorem Joint.level_le_left (j : Joint) : j.level ≤ j.left := by
  unfold Joint.left
  split
  · exact Nat.le_refl _
  · exact Nat.le_succ _

/-- The levels of a comparison and of its operands. -/
theorem Joint.levels_of_nesting {j : Joint} (h : j.nesting = .none) :
    j.level = 5 ∧ j.left = 6 ∧ j.right = 6 := by
  rcases j with _ | _ | _ | _ | _ | op
  case binary => cases op <;> first | exact ⟨rfl, rfl, rfl⟩ | cases h
  all_goals cases h

theorem Joint.left_le_atomLevel (j : Joint) : j.left ≤ atomLevel := by
  rcases j with _ | _ | _ | _ | _ | op
  case binary => cases op <;> decide
  all_goals decide

theorem Joint.right_le_atomLevel (j : Joint) : j.right ≤ atomLevel := by
  rcases j with _ | _ | _ | _ | _ | op
  case binary => cases op <;> decide
  all_goals decide

/-- The kind of token that a literal is written as. -/
def literalKind : Literal → Token.Kind
  | .null => .keyword .nullWord
  | .bool true => .keyword .trueWord
  | .bool false => .keyword .falseWord
  | .number n => .number n
  | .string s => .string s

/-- A tree of operators. Each node has the place of its token. -/
inductive Formula where
  | identity (loc : Range)
  | literal (loc : Range) (l : Literal)
  | var (loc : Range) (name : String)
  | negate (loc : Range) (operand : Formula)
  | join (loc : Range) (j : Joint) (left right : Formula)

namespace Formula

/-- The filter that a formula is. -/
def filter : Formula → Filter
  | .identity loc => .identity loc
  | .literal loc l => .literal loc l
  | .var loc name => .var loc name
  | .negate loc f => .negate loc f.filter
  | .join loc j f g => j.apply loc f.filter g.filter

/-- The variables of a formula. -/
def names : Formula → List String
  | .identity _ => []
  | .literal _ _ => []
  | .var _ name => [name]
  | .negate _ f => f.names
  | .join _ _ f g => f.names ++ g.names

/-- How tightly a formula binds. -/
def level : Formula → Nat
  | .negate _ _ => negateLevel
  | .join _ j _ _ => j.level
  | _ => atomLevel

/-- The places of the parentheses around a formula, where it has some. -/
abbrev Parens := Formula → Range × Range

/-- The text `s` of a formula where a level is asked for: in parentheses if the formula binds less
tightly. -/
def enclosed (parens : Parens) (least : Nat) (f : Formula) (s : List Token) : List Token :=
  if f.level < least then
    ⟨.symbol .openParen, (parens f).1⟩ :: (s ++ [⟨.symbol .closeParen, (parens f).2⟩])
  else s

/-- The text of a formula, with parentheses only where the levels need them. -/
def tokens (parens : Parens) : Formula → List Token
  | .identity loc => [⟨.symbol .dot, loc⟩]
  | .literal loc l => [⟨literalKind l, loc⟩]
  | .var loc name => [⟨.binding name, loc⟩]
  | .negate loc f =>
    ⟨.symbol .minus, loc⟩ :: f.enclosed parens negateLevel (f.tokens parens)
  | .join loc j f g => f.enclosed parens j.left (f.tokens parens) ++
      ⟨j.kind, loc⟩ :: g.enclosed parens j.right (g.tokens parens)

/-- A formula is written as `s` without the parentheses of one comparison, which is an operand of a
comparison. The token `t` is the second operator of the two. -/
inductive Misprint (parens : Parens) : Formula → (s : List Token) → (t : Token) → Prop where
  | left {loc loc' j j' f g h} : j.nesting = .none → j'.nesting = .none →
      Misprint parens (.join loc j (.join loc' j' f g) h)
        ((Formula.join loc' j' f g).tokens parens ++
          ⟨j.kind, loc⟩ :: h.enclosed parens j.right (h.tokens parens))
        ⟨j.kind, loc⟩
  | right {loc loc' j j' f g h} : j.nesting = .none → j'.nesting = .none →
      Misprint parens (.join loc j f (.join loc' j' g h))
        (f.enclosed parens j.left (f.tokens parens) ++
          ⟨j.kind, loc⟩ :: (Formula.join loc' j' g h).tokens parens)
        ⟨j'.kind, loc'⟩
  | inNegate {loc f s t} : Misprint parens f s t →
      Misprint parens (.negate loc f) (⟨.symbol .minus, loc⟩ :: f.enclosed parens negateLevel s) t
  | inLeft {loc j f g s t} : Misprint parens f s t →
      Misprint parens (.join loc j f g)
        (f.enclosed parens j.left s ++ ⟨j.kind, loc⟩ :: g.enclosed parens j.right (g.tokens parens))
        t
  | inRight {loc j f g s t} : Misprint parens g s t →
      Misprint parens (.join loc j f g)
        (f.enclosed parens j.left (f.tokens parens) ++ ⟨j.kind, loc⟩ :: g.enclosed parens j.right s)
        t

end Formula

namespace Parser

/-- The operator of the table that an operator of the parser is. -/
def Operator.joint : Operator → Joint
  | .or => .or
  | .and => .and
  | .binary op => .binary op

/-- The operator that a token stands for. -/
def joint? : Token.Kind → Option Joint
  | .symbol .pipe => some .pipe
  | .symbol .comma => some .comma
  | .symbol .alternative => some .alternative
  | k => (Operator.ofKind? k).map Operator.joint

namespace Operator

variable (op : Operator)

theorem ofKind?_joint : ofKind? op.joint.kind = some op := by
  rcases op with _ | _ | _ | _ <;> rfl

theorem level_pos : 0 < op.level := by
  rcases op with _ | _ | _ | _ <;> decide

theorem joint_level : op.joint.level = op.level + 2 := by
  rcases op with _ | _ | _ | _ <;> rfl

theorem apply_joint (loc : Range) (f g : Filter) :
    op.joint.apply loc f g = op.apply loc f g := by
  rcases op with _ | _ | _ | _ <;> rfl

/-- The comparisons are the operators that do not nest. -/
theorem joint_nesting : op.joint.nesting = if op.isComparison then .none else .left := by
  rcases op with _ | _ | _ | _ <;> rfl

theorem joint_left : op.joint.left = op.leftLevel + 2 := by
  rw [Joint.left, joint_level, joint_nesting, leftLevel]
  split <;> rfl

theorem joint_right : op.joint.right = op.level + 3 := by
  rw [Joint.right, joint_level, joint_nesting]
  split <;> rfl

end Operator

/-- The operators that do not nest are the comparisons. -/
theorem exists_of_nesting {j : Joint} (h : j.nesting = .none) :
    ∃ op : Operator, j = op.joint ∧ op.isComparison = true := by
  rcases j with _ | _ | _ | _ | _ | op
  case binary =>
    refine ⟨.binary op, rfl, ?_⟩
    cases op <;> first | rfl | cases h
  all_goals cases h

theorem joint?_kind (j : Joint) : joint? j.kind = some j := by
  rcases j with _ | _ | _ | _ | _ | _ | _ <;> rfl

theorem joint?_of_ofKind? {k : Token.Kind} {op : Operator} (h : Operator.ofKind? k = some op) :
    joint? k = some op.joint := by
  unfold joint?
  split
  · cases h
  · cases h
  · cases h
  · rw [h]
    rfl

end Parser

end JsonFilter.Filter
