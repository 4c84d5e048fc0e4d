import JsonFilter.Filter.Basic
import JsonFilter.Proofs.Number.Unsigned

/-!
Filters up to what their text does not show: the ranges of their tokens, and by how much a literal
is beyond the largest number. A property of a filter and all its parts is computed here too, and the
number of these parts.
-/

namespace JsonFilter

/-- A literal with another number in place of its own. -/
def Literal.mapNumber (change : Number → Number) : Literal → Literal
  | .number n => .number (change n)
  | l => l

namespace Filter

/-! ## Equality up to ranges -/

mutual

/-- A filter without its ranges, and with its numbers changed. -/
def strip (change : Number → Number) : Filter → Filter
  | .identity _ => .identity default
  | .recurse _ => .recurse default
  | .literal _ l => .literal default (l.mapNumber change)
  | .var _ name => .var default name
  | .index _ target key => .index default (target.strip change) (key.strip change)
  | .slice _ target low high =>
    .slice default (target.strip change) (stripOption change low) (stripOption change high)
  | .iterate _ target => .iterate default (target.strip change)
  | .pipe _ left right => .pipe default (left.strip change) (right.strip change)
  | .comma _ left right => .comma default (left.strip change) (right.strip change)
  | .alternative _ left right => .alternative default (left.strip change) (right.strip change)
  | .and _ left right => .and default (left.strip change) (right.strip change)
  | .or _ left right => .or default (left.strip change) (right.strip change)
  | .binary _ op left right => .binary default op (left.strip change) (right.strip change)
  | .negate _ operand => .negate default (operand.strip change)
  | .array _ body => .array default (stripOption change body)
  | .object _ entries => .object default (stripPairs change entries)
  | .cond _ branches otherwise =>
    .cond default (stripPairs change branches) (stripOption change otherwise)
  | .attempt _ body handler => .attempt default (body.strip change) (stripOption change handler)
  | .bind _ source name body => .bind default (source.strip change) name (body.strip change)
  | .call _ builtin args => .call default builtin (stripList change args)

/-- `strip` for a filter that may be missing. -/
def stripOption (change : Number → Number) : Option Filter → Option Filter
  | none => none
  | some f => some (f.strip change)

/-- `strip` for every filter. -/
def stripList (change : Number → Number) : List Filter → List Filter
  | [] => []
  | f :: fs => f.strip change :: stripList change fs

/-- `strip` for both filters of every pair. -/
def stripPairs (change : Number → Number) : List (Filter × Filter) → List (Filter × Filter)
  | [] => []
  | (f, g) :: ps => (f.strip change, g.strip change) :: stripPairs change ps

end

/-- A filter without its ranges. -/
def bare (f : Filter) : Filter := f.strip id

/-- A filter as its text shows it: without its ranges, and with no number beyond the largest. -/
def shown (f : Filter) : Filter := f.strip Number.capped

/-! ## Parts -/

mutual

/-- Whether a filter and all its parts have a property. -/
def all (p : Filter → Bool) : Filter → Bool
  | .identity loc => p (.identity loc)
  | .recurse loc => p (.recurse loc)
  | .literal loc l => p (.literal loc l)
  | .var loc name => p (.var loc name)
  | .index loc target key => p (.index loc target key) && target.all p && key.all p
  | .slice loc target low high =>
    p (.slice loc target low high) && target.all p && allOption p low && allOption p high
  | .iterate loc target => p (.iterate loc target) && target.all p
  | .pipe loc left right => p (.pipe loc left right) && left.all p && right.all p
  | .comma loc left right => p (.comma loc left right) && left.all p && right.all p
  | .alternative loc left right => p (.alternative loc left right) && left.all p && right.all p
  | .and loc left right => p (.and loc left right) && left.all p && right.all p
  | .or loc left right => p (.or loc left right) && left.all p && right.all p
  | .binary loc op left right => p (.binary loc op left right) && left.all p && right.all p
  | .negate loc operand => p (.negate loc operand) && operand.all p
  | .array loc body => p (.array loc body) && allOption p body
  | .object loc entries => p (.object loc entries) && allPairs p entries
  | .cond loc branches otherwise =>
    p (.cond loc branches otherwise) && allPairs p branches && allOption p otherwise
  | .attempt loc body handler => p (.attempt loc body handler) && body.all p && allOption p handler
  | .bind loc source name body => p (.bind loc source name body) && source.all p && body.all p
  | .call loc builtin args => p (.call loc builtin args) && allList p args

/-- `all` for a filter that may be missing. -/
def allOption (p : Filter → Bool) : Option Filter → Bool
  | none => true
  | some f => f.all p

/-- `all` for every filter. -/
def allList (p : Filter → Bool) : List Filter → Bool
  | [] => true
  | f :: fs => f.all p && allList p fs

/-- `all` for both filters of every pair. -/
def allPairs (p : Filter → Bool) : List (Filter × Filter) → Bool
  | [] => true
  | (f, g) :: ps => f.all p && g.all p && allPairs p ps

end

mutual

/-- The number of filters that a filter consists of, itself included. -/
def size : Filter → Nat
  | .identity _ => 1
  | .recurse _ => 1
  | .literal _ _ => 1
  | .var _ _ => 1
  | .index _ target key => target.size + key.size + 1
  | .slice _ target low high => target.size + sizeOption low + sizeOption high + 1
  | .iterate _ target => target.size + 1
  | .pipe _ left right => left.size + right.size + 1
  | .comma _ left right => left.size + right.size + 1
  | .alternative _ left right => left.size + right.size + 1
  | .and _ left right => left.size + right.size + 1
  | .or _ left right => left.size + right.size + 1
  | .binary _ _ left right => left.size + right.size + 1
  | .negate _ operand => operand.size + 1
  | .array _ body => sizeOption body + 1
  | .object _ entries => sizePairs entries + 1
  | .cond _ branches otherwise => sizePairs branches + sizeOption otherwise + 1
  | .attempt _ body handler => body.size + sizeOption handler + 1
  | .bind _ source _ body => source.size + body.size + 1
  | .call _ _ args => sizeList args + 1

/-- The size of a filter that may be missing. -/
def sizeOption : Option Filter → Nat
  | none => 0
  | some f => f.size

/-- The sizes of all filters together. -/
def sizeList : List Filter → Nat
  | [] => 0
  | f :: fs => f.size + sizeList fs

/-- The sizes of both filters of all pairs together. -/
def sizePairs : List (Filter × Filter) → Nat
  | [] => 0
  | (f, g) :: ps => f.size + g.size + sizePairs ps

end

end Filter

end JsonFilter
