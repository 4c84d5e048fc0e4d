import JsonFilter.Operation.Arithmetic
import JsonFilter.Proofs.Offsets

/-!
Stretches of arrays and strings. Between any two bounds there is a stretch, its ends lie in the
target, and it is the same stretch for a string and for the array of its characters. A bound that
rounds alike in both directions cuts a target in two.
-/

namespace JsonFilter

namespace Number

variable {n : Number}

/-- Rounding moves only numbers with a fraction. -/
theorem floor_eq_ceil (h : n.isInt = true ∨ n.isInfinite = true ∨ n.isNaN = true) :
    n.floor = n.ceil := by
  rcases n.cases_toRat? with hnan | ⟨s, hinfinity⟩ | ⟨p, hp⟩
  · rw [floor, ceil, roundBy_of_isNaN hnan, roundBy_of_isNaN hnan]
  · cases s with
    | negative =>
      rw [floor, ceil, roundBy_of_infinity_negative hinfinity,
        roundBy_of_infinity_negative hinfinity]
    | positive =>
      rw [floor, ceil, roundBy_of_infinity_positive hinfinity,
        roundBy_of_infinity_positive hinfinity]
  · rcases h with hint | hinfinite | hnan
    · obtain ⟨i, hi⟩ := isInt_iff.mp hint
      rw [floor_eq hi, ceil_eq hi, Int.floor_intCast, Int.ceil_intCast]
    · obtain ⟨d, hd, -⟩ := Option.map_eq_some_iff.mp hp
      rw [isInfinite_of_dyadic? hd] at hinfinite
      cases hinfinite
    · rw [isNaN_of_toRat? hp] at hnan
      cases hnan

end Number

namespace Value

open Number (endpoints)

/-! ## Stretches of lists -/

section
variable {α β : Type} (items : List α) (low high : Option Number)

theorem sliceList_eq (h : items.length ≤ 2 ^ 53) :
    sliceList items low high = (items.drop (endpoints items.length low high).1).take
      ((endpoints items.length low high).2 - (endpoints items.length low high).1) := by
  rw [sliceList, Number.stretch_eq low high h]

/-- Where a stretch is does not depend on the items. -/
theorem sliceList_map (f : α → β) :
    sliceList (items.map f) low high = (sliceList items low high).map f := by
  unfold sliceList
  rw [List.length_map, List.map_take, List.map_drop]

/-- What is before a bound and what is behind it are the whole list. -/
theorem sliceList_append {n : Number} (h : n.floor = n.ceil) :
    sliceList items none (some n) ++ sliceList items (some n) none = items := by
  have hfront : sliceList items none (some n) = items.take (clamp items.length n.floor) := by
    rw [h]
    rfl
  have hback : sliceList items (some n) none = items.drop (clamp items.length n.floor) := by
    refine List.take_of_length_le ?_
    rw [List.length_drop]
  rw [hfront, hback, List.take_append_drop]

end

/-! ## Stretches of values -/

/-- A bound as a value. -/
def ofBound : Option Number → Value
  | none => .null
  | some n => .number n

theorem bound?_ofBound (b : Option Number) : bound? (ofBound b) = .ok b := by
  cases b <;> rfl

section
variable (items : List Value) (s : String) (low high : Option Number)

theorem slice_array : slice (.array items) (ofBound low) (ofBound high) =
    .ok (.array (sliceList items low high)) := by
  rw [slice, bound?_ofBound, bound?_ofBound]
  rfl

theorem slice_string : slice (.string s) (ofBound low) (ofBound high) =
    .ok (.string (String.ofList (sliceList s.toList low high))) := by
  rw [slice, bound?_ofBound, bound?_ofBound]
  rfl

end

/-- The characters of a string, each as a string. -/
def characters (s : String) : List Value := s.toList.map fun c => .string (String.singleton c)

theorem join_map_singleton (cs : List Char) :
    String.join (cs.map String.singleton) = String.ofList cs := by
  refine String.toList_injective ?_
  rw [String.toList_join, List.flatMap_map, String.toList_ofList]
  simp

/-- The stretch of a string is the stretch of its characters, joined. -/
theorem slice_characters (s : String) (low high : Option Number) :
    slice (.array (characters s)) (ofBound low) (ofBound high) =
        .ok (.array (((sliceList s.toList low high).map String.singleton).map .string)) ∧
      slice (.string s) (ofBound low) (ofBound high) =
        .ok (.string (String.join ((sliceList s.toList low high).map String.singleton))) := by
  rw [slice_array, slice_string, join_map_singleton, characters, sliceList_map, List.map_map]
  exact ⟨rfl, rfl⟩

/-- What is before a bound and what is behind it add up to the target. -/
theorem add_slice_slice (items : List Value) (s : String) {n : Number} (h : n.floor = n.ceil) :
    add (.array (sliceList items none (some n))) (.array (sliceList items (some n) none)) =
        .ok (.array items) ∧
      add (.string (String.ofList (sliceList s.toList none (some n))))
          (.string (String.ofList (sliceList s.toList (some n) none))) = .ok (.string s) := by
  rw [add, add, ← String.ofList_append, sliceList_append items h, sliceList_append s.toList h,
    String.ofList_toList]
  exact ⟨rfl, rfl⟩

/-- Slicing arrays and strings always succeeds: the ends that binary64 arithmetic computes lie in
the target, the first not behind the second, and what is between them is the slice. The slice of a
string is the slice of its characters, joined; and a bound that is an integer, infinite or a NaN
cuts the target into two parts that add up to it. -/
theorem slice_total (items : List Value) (s : String) (low high : Option Number)
    (hitems : items.length ≤ 2 ^ 53) (hs : s.length ≤ 2 ^ 53) :
    (∃ first past, endpoints items.length low high = (first, past) ∧ first ≤ past ∧
      past ≤ items.length ∧ slice (.array items) (ofBound low) (ofBound high) =
        .ok (.array ((items.drop first).take (past - first)))) ∧
    (∃ first past, endpoints s.length low high = (first, past) ∧ first ≤ past ∧
      past ≤ s.length ∧ slice (.string s) (ofBound low) (ofBound high) =
        .ok (.string (String.ofList ((s.toList.drop first).take (past - first))))) ∧
    (∃ parts : List String,
      slice (.array (characters s)) (ofBound low) (ofBound high) =
        .ok (.array (parts.map .string)) ∧
      slice (.string s) (ofBound low) (ofBound high) = .ok (.string (String.join parts))) ∧
    ∀ n : Number, n.isInt = true ∨ n.isInfinite = true ∨ n.isNaN = true →
      ∀ target, target = .array items ∨ target = .string s →
        ∃ front back, slice target .null (.number n) = .ok front ∧
          slice target (.number n) .null = .ok back ∧ add front back = .ok target := by
  refine ⟨⟨(endpoints items.length low high).1, (endpoints items.length low high).2, rfl, ?_⟩,
    ⟨(endpoints s.length low high).1, (endpoints s.length low high).2, rfl, ?_⟩,
    ⟨_, slice_characters s low high⟩, ?_⟩
  · obtain ⟨hle, hmost⟩ := Number.endpoints_le low high hitems
    exact ⟨hle, hmost, by rw [slice_array, sliceList_eq items low high hitems]⟩
  · obtain ⟨hle, hmost⟩ := Number.endpoints_le low high hs
    have hchars : s.toList.length ≤ 2 ^ 53 := by rwa [String.length_toList]
    refine ⟨hle, hmost, ?_⟩
    rw [slice_string, sliceList_eq s.toList low high hchars, String.length_toList]
  · rintro n hn target (rfl | rfl)
    · exact ⟨_, _, slice_array items none (some n), slice_array items (some n) none,
        (add_slice_slice items s (Number.floor_eq_ceil hn)).1⟩
    · exact ⟨_, _, slice_string s none (some n), slice_string s (some n) none,
        (add_slice_slice items s (Number.floor_eq_ceil hn)).2⟩

/-- The stretch from -1.5 of three items, and a NaN as a bound. -/
theorem slice_total_fraction :
    (∃ first past, endpoints 3 (some (Number.ofBits 0xbff8000000000000)) none = (first, past) ∧
      first ≤ past ∧ past ≤ 3) ∧
    ∃ front back, slice (.string "abc") .null (.number Number.nan) = .ok front ∧
      slice (.string "abc") (.number Number.nan) .null = .ok back ∧
      add front back = .ok (.string "abc") := by
  obtain ⟨⟨first, past, hends, hle, hmost, -⟩, -, -, hcut⟩ := slice_total [.null, .null, .null]
    "abc" (some (Number.ofBits 0xbff8000000000000)) none (by decide) (by decide)
  exact ⟨⟨first, past, hends, hle, hmost⟩,
    hcut Number.nan (.inr (.inr (by decide))) _ (.inr rfl)⟩

end Value

end JsonFilter
