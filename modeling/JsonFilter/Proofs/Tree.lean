import JsonFilter.Filter.Basic

/-!
The parts of a filter. A part that a longer chain or one more suffix is put around, or that stands
as the value of an entry, is a head of the filter; every other part is an inner one. A path leads
from a filter down to a part of a part, and keeps count of its steps of both kinds.
-/

namespace JsonFilter.Filter

/-- The parts that a filter continues: left operands, the targets of suffixes, the sources of
bindings, and the values of entries. -/
def heads : Filter → List Filter
  | .index _ target _ => [target]
  | .slice _ target _ _ => [target]
  | .iterate _ target => [target]
  | .pipe _ left _ => [left]
  | .comma _ left _ => [left]
  | .alternative _ left _ => [left]
  | .and _ left _ => [left]
  | .or _ left _ => [left]
  | .binary _ _ left _ => [left]
  | .object _ entries => entries.map Prod.snd
  | .attempt _ body none => [body]
  | .bind _ source _ _ => [source]
  | _ => []

/-- The parts that are not heads. -/
def inner : Filter → List Filter
  | .index _ _ key => [key]
  | .slice _ _ low high => low.toList ++ high.toList
  | .pipe _ _ right => [right]
  | .comma _ _ right => [right]
  | .alternative _ _ right => [right]
  | .and _ _ right => [right]
  | .or _ _ right => [right]
  | .binary _ _ _ right => [right]
  | .negate _ operand => [operand]
  | .array _ body => body.toList
  | .object _ entries => entries.map Prod.fst
  | .cond _ branches otherwise =>
    branches.map Prod.fst ++ branches.map Prod.snd ++ otherwise.toList
  | .attempt _ body (some handler) => [body, handler]
  | .bind _ _ _ body => [body]
  | .call _ _ args => args
  | _ => []

/-- A filter without parts. -/
def IsLeaf (f : Filter) : Prop := f.heads = [] ∧ f.inner = []

/-- A path from a filter down to a part, with the number of its steps to inner parts and that of its
steps to heads. It has one node more than steps. -/
inductive Path : (top bottom : Filter) → (inner heads : Nat) → Prop where
  | here (f : Filter) : Path f f 0 0
  | head {f g k : Filter} {c u : Nat} : g ∈ f.heads → Path g k c u → Path f k c (u + 1)
  | inner {f g k : Filter} {c u : Nat} : g ∈ f.inner → Path g k c u → Path f k (c + 1) u

/-- The filter itself, its parts, their parts, and so on. -/
def OccursIn (g f : Filter) : Prop := ∃ c u, Path f g c u

namespace OccursIn

variable {f g p : Filter}

theorem refl (f : Filter) : OccursIn f f := ⟨0, 0, .here f⟩

theorem of_head (hp : p ∈ f.heads) (h : OccursIn g p) : OccursIn g f := by
  obtain ⟨c, u, hpath⟩ := h
  exact ⟨c, u + 1, .head hp hpath⟩

theorem of_inner (hp : p ∈ f.inner) (h : OccursIn g p) : OccursIn g f := by
  obtain ⟨c, u, hpath⟩ := h
  exact ⟨c + 1, u, .inner hp hpath⟩

theorem trans (h : OccursIn g p) (hp : OccursIn p f) : OccursIn g f := by
  obtain ⟨c, u, hpath⟩ := hp
  induction hpath with
  | here => exact h
  | head hq _ ih => exact (ih h).of_head hq
  | inner hq _ ih => exact (ih h).of_inner hq

/-- What occurs in a filter is the filter itself or occurs in a part. -/
theorem eq_or_part (h : OccursIn g f) : g = f ∨ ∃ p ∈ f.heads ++ f.inner, OccursIn g p := by
  obtain ⟨c, u, hpath⟩ := h
  cases hpath with
  | here => exact .inl rfl
  | head hp hpath => exact .inr ⟨_, List.mem_append_left _ hp, _, _, hpath⟩
  | inner hp hpath => exact .inr ⟨_, List.mem_append_right _ hp, _, _, hpath⟩

end OccursIn

end JsonFilter.Filter
