import JsonFilter.Value.Order

/-!
Sorting the keys of objects. Sorting keeps the parts of a value, does nothing to a value whose keys
are sorted, and commutes with every change of the values of fields alone.
-/

namespace JsonFilter

namespace Fields

variable {α β : Type}

theorem mem_sorted {f : String × α} {fields : Fields α} : f ∈ sorted fields ↔ f ∈ fields :=
  List.mem_mergeSort

theorem nodup_keys_sorted {fields : Fields α} (h : (keys fields).Nodup) :
    (keys (sorted fields)).Nodup :=
  ((List.mergeSort_perm fields _).map Prod.fst).nodup_iff.mpr h

/-- Sorting looks only at the keys. -/
theorem map_sorted (g : α → β) (fields : Fields α) :
    (sorted fields).map (fun f => (f.1, g f.2)) = sorted (fields.map fun f => (f.1, g f.2)) :=
  List.map_mergeSort fun _ _ _ _ => rfl

theorem pairwise_sorted (fields : Fields α) :
    (sorted fields).Pairwise fun f g => f.1 ≤ g.1 := by
  refine (List.pairwise_mergeSort ?_ ?_ fields).imp fun h => of_decide_eq_true h
  · intro f g k hfg hgk
    rw [decide_eq_true_eq] at *
    exact String.le_trans hfg hgk
  · intro f g
    rw [Bool.or_eq_true, decide_eq_true_eq, decide_eq_true_eq]
    exact String.le_total f.1 g.1

theorem sorted_sorted (fields : Fields α) : sorted (sorted fields) = sorted fields :=
  List.mergeSort_of_pairwise ((pairwise_sorted fields).imp fun h => decide_eq_true h)

end Fields

namespace Value

theorem sortKeysFields_eq_map (fs : List (String × Value)) :
    sortKeysFields fs = fs.map fun f => (f.1, f.2.sortKeys) := by
  induction fs with
  | nil => rfl
  | cons f fs ih => rw [sortKeysFields, ih, List.map_cons]

theorem sortKeysFields_sorted (fs : List (String × Value)) :
    sortKeysFields (Fields.sorted fs) = Fields.sorted (sortKeysFields fs) := by
  rw [sortKeysFields_eq_map, sortKeysFields_eq_map]
  exact Fields.map_sorted sortKeys fs

mutual

/-- Sorting twice is sorting once. -/
theorem sortKeys_sortKeys : ∀ v : Value, v.sortKeys.sortKeys = v.sortKeys
  | .null => rfl
  | .bool _ => rfl
  | .number _ => rfl
  | .string _ => rfl
  | .array items => by
    rw [sortKeys, sortKeys, sortKeysList_sortKeysList items]
  | .object fields => by
    rw [sortKeys, sortKeys, sortKeysFields_sorted, sortKeysFields_sortKeysFields fields,
      Fields.sorted_sorted]

theorem sortKeysList_sortKeysList : ∀ vs : List Value,
    sortKeysList (sortKeysList vs) = sortKeysList vs
  | [] => rfl
  | v :: vs => by
    rw [sortKeysList, sortKeysList, sortKeys_sortKeys v, sortKeysList_sortKeysList vs]

theorem sortKeysFields_sortKeysFields : ∀ fs : List (String × Value),
    sortKeysFields (sortKeysFields fs) = sortKeysFields fs
  | [] => rfl
  | (k, v) :: fs => by
    rw [sortKeysFields, sortKeysFields, sortKeys_sortKeys v, sortKeysFields_sortKeysFields fs]

end

/-! ## Parts -/

theorem mem_walk (v : Value) : v ∈ v.walk := by cases v <;> exact List.mem_cons_self

theorem mem_walkFields {v : Value} {fs : List (String × Value)} :
    v ∈ walkFields fs ↔ ∃ f ∈ fs, v ∈ f.2.walk := by
  induction fs with
  | nil => simp [walkFields]
  | cons f fs ih => simp [walkFields, ih]

mutual

/-- Sorting keys makes no new parts: each is a part whose keys were sorted. -/
theorem mem_walk_sortKeys {w : Value} : ∀ v : Value, w ∈ v.sortKeys.walk →
    ∃ u ∈ v.walk, w = u.sortKeys
  | .null, h => ⟨.null, List.mem_singleton_self _, List.mem_singleton.mp h⟩
  | .bool b, h => ⟨.bool b, List.mem_singleton_self _, List.mem_singleton.mp h⟩
  | .number n, h => ⟨.number n, List.mem_singleton_self _, List.mem_singleton.mp h⟩
  | .string s, h => ⟨.string s, List.mem_singleton_self _, List.mem_singleton.mp h⟩
  | .array items, h => by
    rcases List.mem_cons.mp h with rfl | h
    · exact ⟨.array items, List.mem_cons_self, rfl⟩
    · obtain ⟨u, hu, rfl⟩ := mem_walkList_sortKeysList items h
      exact ⟨u, List.mem_cons_of_mem _ hu, rfl⟩
  | .object fields, h => by
    rcases List.mem_cons.mp h with rfl | h
    · exact ⟨.object fields, List.mem_cons_self, rfl⟩
    · obtain ⟨f, hf, hw⟩ := mem_walkFields.mp h
      have hfields := mem_walkFields.mpr ⟨f, Fields.mem_sorted.mp hf, hw⟩
      obtain ⟨u, hu, rfl⟩ := mem_walkFields_sortKeysFields fields hfields
      exact ⟨u, List.mem_cons_of_mem _ hu, rfl⟩

theorem mem_walkList_sortKeysList {w : Value} : ∀ vs : List Value,
    w ∈ walkList (sortKeysList vs) → ∃ u ∈ walkList vs, w = u.sortKeys
  | [], h => nomatch h
  | v :: vs, h => by
    rcases List.mem_append.mp h with h | h
    · obtain ⟨u, hu, rfl⟩ := mem_walk_sortKeys v h
      exact ⟨u, List.mem_append_left _ hu, rfl⟩
    · obtain ⟨u, hu, rfl⟩ := mem_walkList_sortKeysList vs h
      exact ⟨u, List.mem_append_right _ hu, rfl⟩

theorem mem_walkFields_sortKeysFields {w : Value} : ∀ fs : List (String × Value),
    w ∈ walkFields (sortKeysFields fs) → ∃ u ∈ walkFields fs, w = u.sortKeys
  | [], h => nomatch h
  | (_, v) :: fs, h => by
    rcases List.mem_append.mp h with h | h
    · obtain ⟨u, hu, rfl⟩ := mem_walk_sortKeys v h
      exact ⟨u, List.mem_append_left _ hu, rfl⟩
    · obtain ⟨u, hu, rfl⟩ := mem_walkFields_sortKeysFields fs h
      exact ⟨u, List.mem_append_right _ hu, rfl⟩

end

end Value

end JsonFilter
