import JsonFilter.Proofs.Tree

/-!
The object constructions of a filter, as a list. It says of each of them where it begins and how
many entries it has, and names all that occur in the filter.
-/

namespace JsonFilter.Filter

mutual

/-- The object constructions of a filter, in the order of their closing braces: where each of them
begins, and how many entries it has. -/
def constructions : Filter → List (Range × Nat)
  | .identity _ => []
  | .recurse _ => []
  | .literal _ _ => []
  | .var _ _ => []
  | .index _ target key => target.constructions ++ key.constructions
  | .slice _ target low high =>
    target.constructions ++ (constructionsOr low ++ constructionsOr high)
  | .iterate _ target => target.constructions
  | .pipe _ left right => left.constructions ++ right.constructions
  | .comma _ left right => left.constructions ++ right.constructions
  | .alternative _ left right => left.constructions ++ right.constructions
  | .and _ left right => left.constructions ++ right.constructions
  | .or _ left right => left.constructions ++ right.constructions
  | .binary _ _ left right => left.constructions ++ right.constructions
  | .negate _ operand => operand.constructions
  | .array _ body => constructionsOr body
  | .object loc entries => constructionsPairs entries ++ [(loc, entries.length)]
  | .cond _ branches otherwise => constructionsPairs branches ++ constructionsOr otherwise
  | .attempt _ body handler => body.constructions ++ constructionsOr handler
  | .bind _ source _ body => source.constructions ++ body.constructions
  | .call _ _ args => constructionsList args

def constructionsOr : Option Filter → List (Range × Nat)
  | none => []
  | some f => f.constructions

def constructionsPairs : List (Filter × Filter) → List (Range × Nat)
  | [] => []
  | (f, g) :: ps => f.constructions ++ (g.constructions ++ constructionsPairs ps)

def constructionsList : List Filter → List (Range × Nat)
  | [] => []
  | f :: fs => f.constructions ++ constructionsList fs

end

attribute [simp] constructions constructionsOr constructionsPairs constructionsList

section
variable {f g : Filter} {c : Range × Nat}

@[simp] theorem mem_constructionsOr {o : Option Filter} :
    c ∈ constructionsOr o ↔ ∃ f ∈ o, c ∈ f.constructions := by
  cases o with
  | none => simp
  | some f => simp

@[simp] theorem mem_constructionsPairs {ps : List (Filter × Filter)} :
    c ∈ constructionsPairs ps ↔ ∃ p ∈ ps, c ∈ p.1.constructions ∨ c ∈ p.2.constructions := by
  induction ps with
  | nil => simp
  | cons p ps ih => simp [ih, or_assoc]

@[simp] theorem mem_constructionsList {fs : List Filter} :
    c ∈ constructionsList fs ↔ ∃ f ∈ fs, c ∈ f.constructions := by
  induction fs with
  | nil => simp
  | cons f fs ih => simp [ih]

/-- The constructions of a part are constructions of the whole. -/
theorem mem_constructions_of_part (hg : g ∈ f.heads ++ f.inner) (hc : c ∈ g.constructions) :
    c ∈ f.constructions := by
  cases f with
  | identity | recurse | literal | var => simp [heads, inner] at hg
  | index | pipe | comma | alternative | and | or | binary | bind =>
    simp only [heads, inner, List.cons_append, List.nil_append, List.mem_cons, List.not_mem_nil,
      or_false] at hg
    rcases hg with rfl | rfl
    · exact List.mem_append_left _ hc
    · exact List.mem_append_right _ hc
  | iterate | negate =>
    obtain rfl : g = _ := by simpa [heads, inner] using hg
    exact hc
  | array loc body =>
    have hbody : g ∈ body := by simpa [heads, inner] using hg
    exact mem_constructionsOr.mpr ⟨g, hbody, hc⟩
  | call loc b args =>
    have harg : g ∈ args := by simpa [heads, inner] using hg
    exact mem_constructionsList.mpr ⟨g, harg, hc⟩
  | slice loc target low high =>
    simp only [heads, inner, List.mem_append, List.mem_singleton, Option.mem_toList] at hg
    simp only [constructions, List.mem_append, mem_constructionsOr]
    rcases hg with rfl | hlow | hhigh
    · exact .inl hc
    · exact .inr (.inl ⟨g, hlow, hc⟩)
    · exact .inr (.inr ⟨g, hhigh, hc⟩)
  | object loc es =>
    simp only [heads, inner, List.mem_append, List.mem_map] at hg
    refine List.mem_append_left _ (mem_constructionsPairs.mpr ?_)
    rcases hg with ⟨p, hp, rfl⟩ | ⟨p, hp, rfl⟩
    · exact ⟨p, hp, .inr hc⟩
    · exact ⟨p, hp, .inl hc⟩
  | cond loc branches otherwise =>
    simp only [heads, inner, List.nil_append, List.mem_append, List.mem_map,
      Option.mem_toList] at hg
    simp only [constructions, List.mem_append, mem_constructionsPairs, mem_constructionsOr]
    rcases hg with (⟨p, hp, rfl⟩ | ⟨p, hp, rfl⟩) | helse
    · exact .inl ⟨p, hp, .inl hc⟩
    · exact .inl ⟨p, hp, .inr hc⟩
    · exact .inr ⟨g, helse, hc⟩
  | attempt loc body handler =>
    cases handler with
    | none =>
      obtain rfl : g = body := by simpa [heads, inner] using hg
      exact List.mem_append_left _ hc
    | some handler =>
      have hcases : g = body ∨ g = handler := by simpa [heads, inner] using hg
      rcases hcases with rfl | rfl
      · exact List.mem_append_left _ hc
      · exact List.mem_append_right _ hc

/-- Every object construction that occurs in a filter is one of its constructions. -/
theorem OccursIn.mem_constructions {loc : Range} {es : List (Filter × Filter)}
    (h : OccursIn (.object loc es) f) : (loc, es.length) ∈ f.constructions := by
  obtain ⟨n, m, hpath⟩ := h
  generalize hg : Filter.object loc es = g at hpath
  induction hpath with
  | here => simp [← hg]
  | head hp _ ih => exact mem_constructions_of_part (List.mem_append_left _ hp) (ih hg)
  | inner hp _ ih => exact mem_constructions_of_part (List.mem_append_right _ hp) (ih hg)

end

end JsonFilter.Filter
