import JsonFilter.Proofs.Order.Value

/-!
What the order of values does not tell apart. Two values are alike where they have the same shape
with the order of keys left out: the order compares them as equal exactly then.
-/

namespace JsonFilter

namespace Fields

variable {α : Type}

theorem mem_keys {key : String} {fields : Fields α} : key ∈ keys fields ↔ ∃ v, (key, v) ∈ fields := by
  simp [keys]

theorem get?_eq_some_iff {key : String} {v : α} {fields : Fields α} (h : (keys fields).Nodup) :
    get? key fields = some v ↔ (key, v) ∈ fields := by
  induction fields with
  | nil => simp [get?]
  | cons f fields ih =>
    obtain ⟨k, w⟩ := f
    obtain ⟨hk, hrest⟩ := List.nodup_cons.mp h
    rw [get?, List.mem_cons, Prod.mk.injEq]
    split
    · rename_i heq
      subst heq
      have hnot : (k, v) ∉ fields := fun hm => hk (mem_keys.mpr ⟨v, hm⟩)
      simp [hnot, eq_comm]
    · rename_i hne
      rw [ih hrest]
      simp [Ne.symm hne]

theorem get?_sorted {fields : Fields α} (h : (keys fields).Nodup) (key : String) :
    get? key (sorted fields) = get? key fields := by
  refine Option.ext fun v => ?_
  rw [get?_eq_some_iff (nodup_keys_sorted h), get?_eq_some_iff h, mem_sorted]

/-- Sorting gives the same keys in the same order exactly where the sets of keys are the same. -/
theorem keys_sorted_eq_iff {β : Type} {f : Fields α} {g : Fields β} (hf : (keys f).Nodup)
    (hg : (keys g).Nodup) :
    keys (sorted f) = keys (sorted g) ↔ ∀ key, key ∈ keys f ↔ key ∈ keys g := by
  have hmem : ∀ {γ : Type} (e : Fields γ) (key : String), key ∈ keys (sorted e) ↔ key ∈ keys e :=
    fun e key => by simp [mem_keys, mem_sorted]
  constructor
  · intro h key
    rw [← hmem f, h, hmem g]
  · intro h
    have hperm : (keys (sorted f)).Perm (keys (sorted g)) :=
      (List.perm_ext_iff_of_nodup (nodup_keys_sorted hf) (nodup_keys_sorted hg)).mpr
        fun key => by rw [hmem f, hmem g, h]
    exact hperm.eq_of_pairwise (fun a b _ _ hab hba => String.le_antisymm hab hba)
      (List.pairwise_map.mpr (pairwise_sorted f)) (List.pairwise_map.mpr (pairwise_sorted g))

end Fields

namespace Value

/-- The fields of an object; a value of another kind has none. -/
def ownFields : Value → Fields Value
  | .object fields => fields
  | _ => []

/-- No object in a value has a key twice. -/
def DistinctKeys (v : Value) : Prop := ∀ w ∈ v.walk, (Fields.keys w.ownFields).Nodup

instance : DecidablePred DistinctKeys := fun v =>
  inferInstanceAs (Decidable (∀ w ∈ v.walk, (Fields.keys w.ownFields).Nodup))

/-- Values of the same shape: the order of keys plays no part, numbers need to be equal only by the
arithmetic standard, and the NaN goes with itself. -/
inductive Alike : Value → Value → Prop
  | null : Alike .null .null
  | bool (b : Bool) : Alike (.bool b) (.bool b)
  | number {m n : Number} (h : m.isNaN = true ∧ n.isNaN = true ∨ (m == n) = true) :
      Alike (.number m) (.number n)
  | string (s : String) : Alike (.string s) (.string s)
  | array {as bs : List Value} (hlength : as.length = bs.length)
      (hitems : ∀ (i : Nat) (a b : Value), as[i]? = some a → bs[i]? = some b → Alike a b) :
      Alike (.array as) (.array bs)
  | object {as bs : List (String × Value)}
      (hkeys : ∀ key, key ∈ Fields.keys as ↔ key ∈ Fields.keys bs)
      (hvalues : ∀ (key : String) (a b : Value),
        Fields.get? key as = some a → Fields.get? key bs = some b → Alike a b) :
      Alike (.object as) (.object bs)

theorem mem_walkList {v : Value} {vs : List Value} :
    v ∈ walkList vs ↔ ∃ w ∈ vs, v ∈ w.walk := by
  induction vs with
  | nil => simp [walkList]
  | cons w vs ih => simp [walkList, ih]

namespace DistinctKeys

theorem keys {fields : List (String × Value)} (h : DistinctKeys (.object fields)) :
    (Fields.keys fields).Nodup := h (.object fields) (mem_walk _)

theorem item {v : Value} {items : List Value} (h : DistinctKeys (.array items)) (hv : v ∈ items) :
    v.DistinctKeys := fun w hw => h w (List.mem_cons_of_mem _ (mem_walkList.mpr ⟨v, hv, hw⟩))

theorem field {key : String} {v : Value} {fields : List (String × Value)}
    (h : DistinctKeys (.object fields)) (hv : (key, v) ∈ fields) : v.DistinctKeys := fun w hw =>
  h w (List.mem_cons_of_mem _ (mem_walkFields.mpr ⟨(key, v), hv, hw⟩))

end DistinctKeys

/-! ## One level -/

theorem cmp_array_eq_iff (as bs : List Value) :
    cmp (.array as) (.array bs) = .eq ↔
      as.length = bs.length ∧
        ∀ (i : Nat) (a b : Value), as[i]? = some a → bs[i]? = some b → cmp a b = .eq := by
  show cmpSortedList (sortKeysList as) (sortKeysList bs) = .eq ↔ _
  induction as generalizing bs with
  | nil => cases bs <;> simp [sortKeysList, cmpSortedList]
  | cons a as ih =>
    cases bs with
    | nil => simp [sortKeysList, cmpSortedList]
    | cons b bs =>
      rw [sortKeysList, sortKeysList, cmpSortedList, Ordering.then_eq_eq, ih, List.length_cons,
        List.length_cons, Nat.add_right_cancel_iff]
      constructor
      · rintro ⟨hhead, hlength, htail⟩
        refine ⟨hlength, fun i c d hc hd => ?_⟩
        cases i with
        | zero =>
          cases hc
          cases hd
          exact hhead
        | succ i => exact htail i c d hc hd
      · rintro ⟨hlength, hall⟩
        exact ⟨hall 0 a b rfl rfl, hlength, fun i c d hc hd => hall (i + 1) c d hc hd⟩

/-- Fields with the same keys in the same order: the order looks at the values of each key. -/
theorem cmpSortedFields_eq_iff (as bs : List (String × Value))
    (hkeys : Fields.keys as = Fields.keys bs) (hnodup : (Fields.keys as).Nodup) :
    cmpSortedFields (sortKeysFields as) (sortKeysFields bs) = .eq ↔
      ∀ (key : String) (a b : Value),
        Fields.get? key as = some a → Fields.get? key bs = some b → cmp a b = .eq := by
  induction as generalizing bs with
  | nil =>
    cases bs with
    | nil => simp [sortKeysFields, cmpSortedFields, Fields.get?]
    | cons g bs => cases hkeys
  | cons f as ih =>
    cases bs with
    | nil => cases hkeys
    | cons g bs =>
      obtain ⟨j, a⟩ := f
      obtain ⟨k, b⟩ := g
      obtain ⟨hhead, htail⟩ : j = k ∧ Fields.keys as = Fields.keys bs := List.cons.inj hkeys
      subst hhead
      obtain ⟨hj, hnodup⟩ := List.nodup_cons.mp hnodup
      rw [sortKeysFields, sortKeysFields, cmpSortedFields, Ordering.then_eq_eq, ih bs htail hnodup]
      constructor
      · rintro ⟨hhead, htail⟩ key c d hc hd
        rw [Fields.get?] at hc hd
        split at hc <;> rename_i hkey
        · rw [if_pos hkey] at hd
          cases hc
          cases hd
          exact hhead
        · rw [if_neg hkey] at hd
          exact htail key c d hc hd
      · intro hall
        refine ⟨hall j a b (if_pos rfl) (if_pos rfl), fun key c d hc hd => ?_⟩
        have hkey : j ≠ key := by
          rintro rfl
          exact hj (Fields.mem_keys.mpr ⟨c, (Fields.get?_eq_some_iff hnodup).mp hc⟩)
        exact hall key c d ((if_neg hkey).trans hc) ((if_neg hkey).trans hd)

theorem cmp_object_eq_iff {as bs : List (String × Value)} (ha : (Fields.keys as).Nodup)
    (hb : (Fields.keys bs).Nodup) :
    cmp (.object as) (.object bs) = .eq ↔
      (∀ key, key ∈ Fields.keys as ↔ key ∈ Fields.keys bs) ∧
        ∀ (key : String) (a b : Value),
          Fields.get? key as = some a → Fields.get? key bs = some b → cmp a b = .eq := by
  have hkeys : ∀ fs : List (String × Value), Fields.keys (sortKeysFields fs) = Fields.keys fs :=
    fun fs => by simp [sortKeysFields_eq_map, Fields.keys]
  rw [cmp, sortKeys, sortKeys, cmpSorted, Ordering.then_eq_eq, cmpKeys_eq_iff,
    ← sortKeysFields_sorted, ← sortKeysFields_sorted, hkeys, hkeys, Fields.keys_sorted_eq_iff ha hb]
  refine and_congr_right fun hsame => ?_
  rw [cmpSortedFields_eq_iff _ _ ((Fields.keys_sorted_eq_iff ha hb).mpr hsame)
    (Fields.nodup_keys_sorted ha)]
  simp only [Fields.get?_sorted ha, Fields.get?_sorted hb]

/-! ## All levels -/

theorem rank_sortKeys (v : Value) : v.sortKeys.rank = v.rank := by
  rcases v with _ | (_ | _) | _ | _ | _ | _ <;> rfl

theorem Alike.rank_eq {a b : Value} (h : Alike a b) : a.rank = b.rank := by
  cases h <;> rfl

/-- Values of different kinds are not alike, and the order tells them apart. -/
theorem cmp_eq_iff_alike_of_rank_ne {a b : Value} (h : a.rank ≠ b.rank) :
    cmp a b = .eq ↔ Alike a b := by
  refine iff_of_false ?_ fun halike => h halike.rank_eq
  have hne : a.sortKeys.rank ≠ b.sortKeys.rank := by rwa [rank_sortKeys, rank_sortKeys]
  rw [cmp, cmpSorted_of_rank_ne hne, Nat.compare_eq_eq]
  exact hne

mutual

/-- The order compares two values as equal exactly where they are alike. -/
theorem cmp_eq_iff_alike : ∀ a b : Value, a.DistinctKeys → b.DistinctKeys →
    (cmp a b = .eq ↔ Alike a b)
  | .null, b, _, _ => by
    cases b with
    | null => exact iff_of_true rfl .null
    | _ => exact cmp_eq_iff_alike_of_rank_ne (by grind [rank, rank_bool])
  | .bool c, b, _, _ => by
    cases b with
    | bool d =>
      by_cases h : c = d
      · subst h
        exact iff_of_true (by cases c <;> rfl) (.bool c)
      · exact cmp_eq_iff_alike_of_rank_ne (by grind [rank_bool])
    | _ => exact cmp_eq_iff_alike_of_rank_ne (by grind [rank, rank_bool])
  | .number m, b, _, _ => by
    cases b with
    | number n =>
      refine Number.cmp_eq_iff.trans ⟨.number, fun h => ?_⟩
      cases h with
      | number h => exact h
    | _ => exact cmp_eq_iff_alike_of_rank_ne (by grind [rank, rank_bool])
  | .string s, b, _, _ => by
    cases b with
    | string t =>
      refine Std.LawfulEqOrd.compare_eq_iff_eq.trans ⟨fun h => h ▸ .string s, fun h => ?_⟩
      cases h
      rfl
    | _ => exact cmp_eq_iff_alike_of_rank_ne (by grind [rank, rank_bool])
  | .array as, b, ha, hb => by
    cases b with
    | array bs =>
      have hitem : ∀ (i : Nat) (a b : Value), as[i]? = some a → bs[i]? = some b →
          (cmp a b = .eq ↔ Alike a b) := fun i a b hi hj =>
        cmp_eq_iff_alike_items as a (List.mem_of_getElem? hi) b (ha.item (List.mem_of_getElem? hi))
          (hb.item (List.mem_of_getElem? hj))
      rw [cmp_array_eq_iff]
      constructor
      · rintro ⟨hlength, hall⟩
        exact .array hlength fun i a b hi hj => (hitem i a b hi hj).mp (hall i a b hi hj)
      · rintro (_ | _ | _ | _ | ⟨hlength, hall⟩)
        exact ⟨hlength, fun i a b hi hj => (hitem i a b hi hj).mpr (hall i a b hi hj)⟩
    | _ => exact cmp_eq_iff_alike_of_rank_ne (by grind [rank, rank_bool])
  | .object as, b, ha, hb => by
    cases b with
    | object bs =>
      have hvalue : ∀ (key : String) (a b : Value), Fields.get? key as = some a →
          Fields.get? key bs = some b → (cmp a b = .eq ↔ Alike a b) := fun key a b hj hk =>
        have hj := (Fields.get?_eq_some_iff ha.keys).mp hj
        have hk := (Fields.get?_eq_some_iff hb.keys).mp hk
        cmp_eq_iff_alike_fields as key a hj b (ha.field hj) (hb.field hk)
      rw [cmp_object_eq_iff ha.keys hb.keys]
      constructor
      · rintro ⟨hkeys, hall⟩
        exact .object hkeys fun key a b hj hk => (hvalue key a b hj hk).mp (hall key a b hj hk)
      · rintro (_ | _ | _ | _ | _ | ⟨hkeys, hall⟩)
        exact ⟨hkeys, fun key a b hj hk => (hvalue key a b hj hk).mpr (hall key a b hj hk)⟩
    | _ => exact cmp_eq_iff_alike_of_rank_ne (by grind [rank, rank_bool])

theorem cmp_eq_iff_alike_items : ∀ (items : List Value), ∀ a ∈ items, ∀ b : Value,
    a.DistinctKeys → b.DistinctKeys → (cmp a b = .eq ↔ Alike a b)
  | [], _, h => nomatch h
  | v :: vs, a, h => by
    rcases List.mem_cons.mp h with h | h
    · exact h ▸ cmp_eq_iff_alike v
    · exact cmp_eq_iff_alike_items vs a h

theorem cmp_eq_iff_alike_fields : ∀ (fields : List (String × Value)) (key : String) (a : Value),
    (key, a) ∈ fields → ∀ b : Value, a.DistinctKeys → b.DistinctKeys → (cmp a b = .eq ↔ Alike a b)
  | [], _, _, h => nomatch h
  | (k, v) :: fs, key, a, h => by
    rcases List.mem_cons.mp h with h | h
    · exact (Prod.mk.inj h).2 ▸ cmp_eq_iff_alike v
    · exact cmp_eq_iff_alike_fields fs key a h

end

theorem le_iff_isLE {a b : Value} : a.le b = true ↔ (cmp a b).isLE = true := by
  rw [le]
  cases cmp a b <;> decide

/-- The order of values is a total preorder: a value compares as equal to itself, swapping the
values swaps the outcome, and "not above" is transitive. It tells apart exactly the values that are
not alike. -/
theorem cmp_total_preorder (a b c : Value) :
    cmp a a = .eq ∧ cmp b a = (cmp a b).swap ∧
      (a.le b = true → b.le c = true → a.le c = true) ∧
      (a.DistinctKeys → b.DistinctKeys → (cmp a b = .eq ↔ Alike a b)) := by
  refine ⟨Std.ReflCmp.compare_self, Std.OrientedCmp.eq_swap, ?_, cmp_eq_iff_alike a b⟩
  intro hab hbc
  rw [le_iff_isLE] at *
  exact Std.TransCmp.isLE_trans hab hbc

/-- Objects with their keys in different orders, a NaN inside, and zeros of both signs. -/
theorem cmp_total_preorder_nested :
    let a : Value := .object [("k", .array [.number .nan, .number (.ofBits 0)]), ("j", .bool true)]
    let b : Value :=
      .object [("j", .bool true), ("k", .array [.number .nan, .number (.ofBits 0x8000000000000000)])]
    let c : Value := .object [("k", .null), ("j", .string "")]
    Alike a b ∧ cmp a a = .eq ∧ cmp b a = (cmp a b).swap ∧ a.le c = true := by
  intro a b c
  obtain ⟨hself, hswap, htrans, hequal⟩ := cmp_total_preorder a b c
  have hkj (x y : Value) : Fields.sorted [("k", x), ("j", y)] = [("j", y), ("k", x)] := by
    simp [Fields.sorted, List.mergeSort]
  have hjk (x y : Value) : Fields.sorted [("j", x), ("k", y)] = [("j", x), ("k", y)] := by
    simp [Fields.sorted, List.mergeSort]
  have hab : cmp a b = .eq := by
    show cmpSorted (.object (Fields.sorted [("k", _), ("j", _)]))
      (.object (Fields.sorted [("j", _), ("k", _)])) = _
    rw [hkj, hjk]
    decide +kernel
  have hbc : cmp b c = .lt := by
    show cmpSorted (.object (Fields.sorted [("j", _), ("k", _)]))
      (.object (Fields.sorted [("k", _), ("j", _)])) = _
    rw [hkj, hjk]
    decide +kernel
  have hle : a.le b = true ∧ b.le c = true := by
    rw [le_iff_isLE, le_iff_isLE, hab, hbc]
    exact ⟨rfl, rfl⟩
  exact ⟨(hequal (by decide) (by decide)).mp hab, hself, hswap, htrans hle.1 hle.2⟩

end Value

end JsonFilter
