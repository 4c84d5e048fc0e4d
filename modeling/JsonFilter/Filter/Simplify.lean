import JsonFilter.Operation.Arithmetic

/-!
Simplification of filters. An operator between literals becomes its value, unless it fails or its
value is no literal, and a pipe loses a side that is `.`. Failures thus stay where they are.
-/

namespace JsonFilter.Filter

/-- Two filters joined by a pipe, which `.` on either side leaves out. -/
def joinPipe (loc : Range) : Filter → Filter → Filter
  | .identity _, right => right
  | left, .identity _ => left
  | left, right => .pipe loc left right

/-- The literal that an operator makes of two literals, if it makes one. -/
def foldLiterals? (op : BinaryOp) (a b : Literal) : Option Literal :=
  match op.apply a.toValue b.toValue with
  | .ok v => Literal.ofValue? v
  | .error _ => none

/-- An operator and its operands, as a literal if that is possible. -/
def joinBinary (loc : Range) (op : BinaryOp) : Filter → Filter → Filter
  | .literal l a, .literal r b =>
    match foldLiterals? op a b with
    | some c => .literal loc c
    | none => .binary loc op (.literal l a) (.literal r b)
  | left, right => .binary loc op left right

/-- The negative of a filter, as a literal if it is a number. -/
def joinNegate (loc : Range) : Filter → Filter
  | .literal _ (.number n) => .literal loc (.number (-n))
  | operand => .negate loc operand

mutual

/-- The filter with all its parts simplified, and then itself. -/
def simplify : Filter → Filter
  | .identity loc => .identity loc
  | .recurse loc => .recurse loc
  | .literal loc l => .literal loc l
  | .var loc name => .var loc name
  | .index loc target key => .index loc target.simplify key.simplify
  | .slice loc target low high =>
    .slice loc target.simplify (simplifyOption low) (simplifyOption high)
  | .iterate loc target => .iterate loc target.simplify
  | .pipe loc left right => joinPipe loc left.simplify right.simplify
  | .comma loc left right => .comma loc left.simplify right.simplify
  | .alternative loc left right => .alternative loc left.simplify right.simplify
  | .and loc left right => .and loc left.simplify right.simplify
  | .or loc left right => .or loc left.simplify right.simplify
  | .binary loc op left right => joinBinary loc op left.simplify right.simplify
  | .negate loc operand => joinNegate loc operand.simplify
  | .array loc body => .array loc (simplifyOption body)
  | .object loc entries => .object loc (simplifyPairs entries)
  | .cond loc branches otherwise =>
    .cond loc (simplifyPairs branches) (simplifyOption otherwise)
  | .attempt loc body handler => .attempt loc body.simplify (simplifyOption handler)
  | .bind loc source name body => .bind loc source.simplify name body.simplify
  | .call loc builtin args => .call loc builtin (simplifyList args)

/-- `simplify` on a filter that may be missing. -/
def simplifyOption : Option Filter → Option Filter
  | none => none
  | some f => some f.simplify

/-- `simplify` on every filter. -/
def simplifyList : List Filter → List Filter
  | [] => []
  | f :: fs => f.simplify :: simplifyList fs

/-- `simplify` on both filters of every pair. -/
def simplifyPairs : List (Filter × Filter) → List (Filter × Filter)
  | [] => []
  | (f, g) :: ps => (f.simplify, g.simplify) :: simplifyPairs ps

end

end JsonFilter.Filter
