import JsonFilter.Operation.Access
import Mathlib.Data.List.Induction

/-!
The values inside a value. A place is a list of indices: which part of the value, which part of that
part, and so on. In the order of lists a place comes before the places inside it, and those before
the places of later parts, so the ascending list of all places is the order in which each value is
visited before its parts. A walk has the values at these places, each place once.
-/

namespace JsonFilter.Value

/-- The items of an array, or the values of an object in the order in which their keys came. -/
def parts : Value → List Value
  | .array items => items
  | .object fields => Fields.values fields
  | _ => []

/-- The value at a place inside a value. -/
def at? (v : Value) : List Nat → Option Value
  | [] => some v
  | i :: place => v.parts[i]?.bind fun part => part.at? place

/-- The value at a place inside one of some values. -/
def partAt? (vs : List Value) : List Nat → Option Value
  | [] => none
  | i :: place => vs[i]?.bind fun v => v.at? place

/-- Some places and the values there: all the places at which there is a value, in their order, and
so each of them once. -/
structure Enumerates (at? : List Nat → Option Value) (places : List (List Nat))
    (values : List Value) : Prop where
  ascending : places.Pairwise (· < ·)
  complete (place : List Nat) : place ∈ places ↔ (at? place).isSome
  found : places.map at? = values.map some

/-! ## Walks -/

theorem sizeOf_parts {v p : Value} (h : p ∈ v.parts) : sizeOf p < sizeOf v := by
  cases v with
  | array items =>
    have hitem : sizeOf p < sizeOf items := List.sizeOf_lt_of_mem h
    simp only [array.sizeOf_spec]
    omega
  | object fields =>
    obtain ⟨field, hfield, rfl⟩ := List.mem_map.mp h
    have hlt := List.sizeOf_lt_of_mem hfield
    obtain ⟨k, w⟩ := field
    simp only [Prod.mk.sizeOf_spec] at hlt
    simp only [object.sizeOf_spec]
    omega
  | _ => cases h

/-- What is true of a value once it is true of its parts is true of every value. -/
theorem induction_on_parts {Q : Value → Prop} (step : ∀ v, (∀ p ∈ v.parts, Q p) → Q v)
    (v : Value) : Q v :=
  step v fun p _ => induction_on_parts step p
termination_by sizeOf v
decreasing_by exact sizeOf_parts ‹_›

theorem walkList_eq (vs : List Value) : walkList vs = vs.flatMap walk := by
  induction vs with
  | nil => rfl
  | cons v vs ih => rw [walkList, ih, List.flatMap_cons]

theorem walkFields_eq (fs : List (String × Value)) :
    walkFields fs = (Fields.values fs).flatMap walk := by
  induction fs with
  | nil => rfl
  | cons f fs ih =>
    rw [walkFields, ih, Fields.values, Fields.values, List.map_cons, List.flatMap_cons]

/-- A walk goes to the value and then through its parts, one after the other. -/
theorem walk_eq (v : Value) : v.walk = v :: v.parts.flatMap walk := by
  cases v with
  | array items => rw [walk, walkList_eq, parts]
  | object fields => rw [walk, walkFields_eq, parts]
  | _ => rfl

/-! ## Places -/

section
variable {vs : List Value} {p : Value} {place : List Nat}

/-- A place inside one of some values is that of a value there and a place inside it. -/
theorem exists_of_isSome_partAt? (h : (partAt? vs place).isSome) :
    ∃ i rest, place = i :: rest ∧ i < vs.length := by
  cases place with
  | nil => cases h
  | cons i rest =>
    refine ⟨i, rest, rfl, ?_⟩
    by_contra hout
    rw [partAt?, List.getElem?_eq_none (Nat.le_of_not_lt hout)] at h
    cases h

theorem partAt?_append (ws : List Value) (h : (partAt? vs place).isSome) :
    partAt? (vs ++ ws) place = partAt? vs place := by
  obtain ⟨i, rest, rfl, hi⟩ := exists_of_isSome_partAt? h
  rw [partAt?, partAt?, List.getElem?_append_left hi]

theorem partAt?_length (vs : List Value) (p : Value) (place : List Nat) :
    partAt? (vs ++ [p]) (vs.length :: place) = p.at? place := by
  rw [partAt?, List.getElem?_concat_length]
  rfl

theorem isSome_partAt?_iff : (partAt? (vs ++ [p]) place).isSome ↔
    (partAt? vs place).isSome ∨ ∃ rest, (p.at? rest).isSome ∧ vs.length :: rest = place := by
  constructor
  · intro h
    obtain ⟨i, rest, rfl, hi⟩ := exists_of_isSome_partAt? h
    rw [List.length_append, List.length_singleton] at hi
    rcases Nat.lt_or_eq_of_le (Nat.le_of_lt_succ hi) with hlt | rfl
    · left
      rwa [partAt?, List.getElem?_append_left hlt] at h
    · rw [partAt?_length] at h
      exact .inr ⟨rest, h, rfl⟩
  · rintro (h | ⟨rest, h, rfl⟩)
    · rwa [partAt?_append [p] h]
    · rwa [partAt?_length]

/-- Behind some values there is one more: the places inside the others stay, and the places inside
this one come after them. -/
theorem Enumerates.append_one {places inside : List (List Nat)} {values within : List Value}
    (hvs : Enumerates (partAt? vs) places values) (hp : Enumerates p.at? inside within) :
    Enumerates (partAt? (vs ++ [p])) (places ++ inside.map (vs.length :: ·))
      (values ++ within) where
  ascending := by
    refine List.pairwise_append.mpr ⟨hvs.ascending, ?_, ?_⟩
    · refine List.pairwise_map.mpr (hp.ascending.imp fun hlt => ?_)
      exact List.cons_lt_cons_iff.mpr (.inr ⟨rfl, hlt⟩)
    · intro place hplace later hlater
      obtain ⟨rest, _, rfl⟩ := List.mem_map.mp hlater
      obtain ⟨i, rest', rfl, hi⟩ := exists_of_isSome_partAt? ((hvs.complete place).mp hplace)
      exact List.cons_lt_cons_iff.mpr (.inl hi)
  complete place := by
    rw [List.mem_append, List.mem_map, isSome_partAt?_iff, hvs.complete]
    simp only [hp.complete]
  found := by
    have hstay : places.map (partAt? (vs ++ [p])) = places.map (partAt? vs) :=
      List.map_congr_left fun place h => partAt?_append [p] ((hvs.complete place).mp h)
    have hnew : (inside.map (vs.length :: ·)).map (partAt? (vs ++ [p])) = inside.map p.at? := by
      rw [List.map_map]
      exact List.map_congr_left fun place _ => partAt?_length vs p place
    rw [List.map_append, hstay, hnew, hvs.found, hp.found, List.map_append]

end

theorem exists_enumerates_parts {vs : List Value}
    (h : ∀ p ∈ vs, ∃ places, Enumerates p.at? places p.walk) :
    ∃ places, Enumerates (partAt? vs) places (vs.flatMap walk) := by
  -- From the right, so that the places inside the values before a value do not move.
  induction vs using List.reverseRecOn with
  | nil => exact ⟨[], .nil, fun place => by cases place <;> simp [partAt?], rfl⟩
  | append_singleton vs p ih =>
    obtain ⟨places, hvs⟩ := ih fun q hq => h q (List.mem_append_left _ hq)
    obtain ⟨inside, hp⟩ := h p List.mem_concat_self
    rw [List.flatMap_append, List.flatMap_singleton]
    exact ⟨_, hvs.append_one hp⟩

/-- A walk visits every place inside a value once, each value before its parts and the parts in
their order. -/
theorem exists_enumerates_walk (v : Value) : ∃ places, Enumerates v.at? places v.walk := by
  induction v using induction_on_parts with
  | step v ih =>
    obtain ⟨places, h⟩ := exists_enumerates_parts ih
    have hinside : ∀ place ∈ places, v.at? place = partAt? v.parts place ∧ [] < place := by
      intro place hplace
      obtain ⟨i, rest, rfl, _⟩ := exists_of_isSome_partAt? ((h.complete place).mp hplace)
      exact ⟨rfl, List.nil_lt_cons i rest⟩
    rw [walk_eq]
    refine ⟨[] :: places, ?_, ?_, ?_⟩
    · exact List.pairwise_cons.mpr ⟨fun place hplace => (hinside place hplace).2, h.ascending⟩
    · intro place
      cases place with
      | nil => exact iff_of_true List.mem_cons_self rfl
      | cons i rest =>
        rw [List.mem_cons, h.complete, or_iff_right (List.cons_ne_nil i rest)]
        rfl
    · have hparts : places.map v.at? = places.map (partAt? v.parts) :=
        List.map_congr_left fun place hplace => (hinside place hplace).1
      rw [List.map_cons, List.map_cons, hparts, h.found, at?]

end JsonFilter.Value
