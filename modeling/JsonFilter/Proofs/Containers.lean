import JsonFilter.Proofs.Offsets
import JsonFilter.Proofs.Order.Alike

/-!
Containers and their keys. Listing the keys, asking for a key and looking one up are three separate
computations on the same container; they agree on objects, and on arrays of at most 2^53 items they
agree on every number that is not negative, but for the NaN.
-/

namespace JsonFilter

namespace Fields

variable {α : Type} {fields : Fields α} {key : String}

theorem get?_eq_none_iff : get? key fields = none ↔ key ∉ keys fields := by
  induction fields with
  | nil => simp [get?, keys]
  | cons f fields ih => grind [get?, keys]

theorem contains_iff : contains fields key = true ↔ key ∈ keys fields := by
  rw [contains, Option.isSome_iff_ne_none, ne_eq, get?_eq_none_iff, not_not]

theorem mem_keys_sorted : key ∈ keys (sorted fields) ↔ key ∈ keys fields := by
  simp only [mem_keys, mem_sorted]

/-- Looking up all keys in their order gives the values in that order. -/
theorem map_get?_sorted (h : (keys fields).Nodup) (default : α) :
    (keys (sorted fields)).map (fun key => (get? key fields).getD default) =
      values (sorted fields) := by
  rw [keys, values, List.map_map]
  refine List.map_congr_left fun f hf => ?_
  have hget : get? f.1 fields = some f.2 := (get?_eq_some_iff h).mpr (mem_sorted.mp hf)
  show (get? f.1 fields).getD default = f.2
  rw [hget, Option.getD_some]

theorem values_sorted_perm (fields : Fields α) : (values (sorted fields)).Perm (values fields) :=
  (List.mergeSort_perm fields _).map Prod.snd

end Fields

namespace Number

variable {n : Number}

theorem floor_ofNat {i : Nat} (h : i ≤ 2 ^ 53) : (ofNat i).floor = .exact i := by
  rw [floor_eq (toRat?_ofNat h), Int.floor_natCast]

/-- A number that is not negative and not a NaN is infinite or has a floor. -/
theorem floor_of_not_negative (hsign : ¬n.toFloat < 0) (hnan : n.isNaN = false) :
    n.floor = .above ∨ ∃ i : Nat, n.floor = .exact i := by
  rcases n.cases_toRat? with hisNaN | ⟨s, hinfinity⟩ | ⟨p, hp⟩
  · rw [hisNaN] at hnan
    cases hnan
  · cases s with
    | negative => exact absurd (lt_of_infinity_negative hinfinity toRat?_zero) hsign
    | positive => exact .inl (roundBy_of_infinity_positive hinfinity)
  · have hnonneg : 0 ≤ p := not_lt.mp ((lt_zero_iff hp).not.mp hsign)
    obtain ⟨i, hi⟩ := Int.eq_ofNat_of_zero_le (Int.floor_nonneg.mpr hnonneg)
    exact .inr ⟨i, by rw [floor_eq hp, hi]⟩

end Number

namespace Value

/-- The keys of a container: they are what `keys` lists, no two of them are equal, and among the
values of their kind they are exactly those, up to equality, that the container has. -/
structure AreKeys (v : Value) (isKey : Value → Prop) (ks : List Value) : Prop where
  listed : v.keys = .ok (.array ks)
  distinct : ks.Pairwise fun a b => (a == b) = false
  kind : ∀ k ∈ ks, isKey k
  complete : ∀ k, isKey k → (v.has k = .ok (.bool true) ↔ ∃ key ∈ ks, (key == k) = true)

/-- The keys of objects. -/
def IsString (v : Value) : Prop := ∃ s, v = .string s

/-- The keys of arrays. -/
def IsInteger (v : Value) : Prop := ∃ n : Number, v = .number n ∧ n.isInt = true

theorem string_beq_iff {s t : String} : (Value.string s == Value.string t) = true ↔ s = t := by
  show (s == t) = true ↔ s = t
  exact beq_iff_eq

theorem number_beq (m n : Number) : (Value.number m == Value.number n) = (m == n) := rfl

/-- A computation that succeeds on every item succeeds on the list. -/
theorem mapM_of_forall_ok {α β : Type} {f : α → Except Fault β} {g : α → β} {as : List α}
    (h : ∀ a ∈ as, f a = .ok (g a)) : as.mapM f = .ok (as.map g) := by
  induction as with
  | nil => rfl
  | cons a as ih =>
    rw [List.mapM_cons, h a List.mem_cons_self, ih fun b hb => h b (List.mem_cons_of_mem a hb)]
    rfl

/-! ## Objects -/

section
variable {fields : List (String × Value)} {k : String}

theorem has_object_iff :
    has (.object fields) (.string k) = .ok (.bool true) ↔ k ∈ Fields.keys fields := by
  rw [has, Except.ok.injEq, Value.bool.injEq, Fields.contains_iff]

theorem has_object_false_iff :
    has (.object fields) (.string k) = .ok (.bool false) ↔ k ∉ Fields.keys fields := by
  rw [has, Except.ok.injEq, Value.bool.injEq, ← Bool.not_eq_true, Fields.contains_iff]

variable (hfields : (Fields.keys fields).Nodup)
include hfields

theorem areKeys_object :
    AreKeys (.object fields) IsString ((Fields.keys (Fields.sorted fields)).map .string) where
  listed := rfl
  distinct := by
    refine List.pairwise_map.mpr ((Fields.nodup_keys_sorted hfields).imp fun hne => ?_)
    rw [← Bool.not_eq_true, string_beq_iff]
    exact hne
  kind := by
    rintro _ hk
    obtain ⟨s, -, rfl⟩ := List.mem_map.mp hk
    exact ⟨s, rfl⟩
  complete := by
    rintro _ ⟨k, rfl⟩
    rw [has_object_iff]
    simp only [List.mem_map, exists_exists_and_eq_and, string_beq_iff, exists_eq_right,
      Fields.mem_keys_sorted]

/-- Looking up the keys of an object gives its values, in the order of the keys. -/
theorem mapM_index_object :
    ((Fields.keys (Fields.sorted fields)).map Value.string).mapM (index (.object fields)) =
      .ok (Fields.values (Fields.sorted fields)) := by
  rw [← Fields.map_get?_sorted hfields .null, List.mapM_map]
  exact mapM_of_forall_ok fun key _ => rfl

/-- What an object has is the value of a field. -/
theorem index_object_of_mem (hk : k ∈ Fields.keys fields) :
    ∃ v, (k, v) ∈ fields ∧ index (.object fields) (.string k) = .ok v := by
  obtain ⟨v, hv⟩ := Fields.mem_keys.mp hk
  refine ⟨v, hv, ?_⟩
  rw [index, (Fields.get?_eq_some_iff hfields).mpr hv, Option.getD_some]

omit hfields in
/-- What an object does not have is `null`. -/
theorem index_object_of_not_mem (hk : k ∉ Fields.keys fields) :
    index (.object fields) (.string k) = .ok .null := by
  rw [index, Fields.get?_eq_none_iff.mpr hk, Option.getD_none]

end

/-! ## Arrays -/

section
variable {items : List Value} {n : Number}

theorem isPlace_iff {length : Nat} :
    isPlace length n = true ↔ ∃ i : Nat, n.floor = .exact i ∧ i < length := by
  unfold isPlace
  cases n.floor with
  | exact i =>
    simp only [Bool.and_eq_true, decide_eq_true_eq, Whole.exact.injEq]
    constructor
    · rintro ⟨hnonneg, hlt⟩
      exact ⟨i.toNat, by omega, by omega⟩
    · rintro ⟨k, rfl, hlt⟩
      omega
  | undefined => simp
  | below => simp
  | above => simp

theorem index_of_floor {i : Nat} (h : n.floor = .exact i) :
    index (.array items) (.number n) = .ok (items[i]?.getD .null) := by
  have hfrom : Number.placeFrom items.length i = i := if_neg (by omega)
  have hplace : place? items.length n = some i := by
    rw [Number.place?_of_floor h, hfrom, if_neg (by omega), Int.toNat_natCast]
  rw [index, itemAt, hplace]
  rfl

/-- What an array has is found at the floor. -/
theorem index_of_isPlace (h : isPlace items.length n = true) :
    ∃ (i : Nat) (v : Value), n.floor = .exact i ∧ items[i]? = some v ∧
      index (.array items) (.number n) = .ok v := by
  obtain ⟨i, hfloor, hlt⟩ := isPlace_iff.mp h
  refine ⟨i, items[i], hfloor, List.getElem?_eq_getElem hlt, ?_⟩
  rw [index_of_floor hfloor, List.getElem?_eq_getElem hlt, Option.getD_some]

/-- What an array does not have is `null`, unless it is counted from the end or is a NaN. -/
theorem index_of_not_isPlace (h : isPlace items.length n = false) (hsign : ¬n.toFloat < 0)
    (hnan : n.isNaN = false) : index (.array items) (.number n) = .ok .null := by
  rcases Number.floor_of_not_negative hsign hnan with habove | ⟨i, hfloor⟩
  · rw [index, itemAt, place?, habove]
    rfl
  · have hge : items.length ≤ i := by
      by_contra hlt
      rw [isPlace_iff.mpr ⟨i, hfloor, by omega⟩] at h
      cases h
    rw [index_of_floor hfloor, List.getElem?_eq_none hge, Option.getD_none]

/-- A NaN is no key of an array, but it leads to the first item. -/
theorem has_index_of_isNaN (h : n.isNaN = true) :
    has (.array items) (.number n) = .ok (.bool false) ∧
      index (.array items) (.number n) = .ok (items[0]?.getD .null) := by
  have hfloor : n.floor = .undefined := Number.roundBy_of_isNaN h
  rw [has, isPlace, index, itemAt, place?, hfloor]
  exact ⟨rfl, rfl⟩

variable (hitems : items.length ≤ 2 ^ 53)
include hitems

theorem areKeys_array :
    AreKeys (.array items) IsInteger ((List.range items.length).map .ofNat) where
  listed := rfl
  distinct := by
    refine List.pairwise_map.mpr (List.pairwise_lt_range.imp_of_mem fun hi hj hlt => ?_)
    have hi' := (List.mem_range.mp hi).le.trans hitems
    have hj' := (List.mem_range.mp hj).le.trans hitems
    rw [← Bool.not_eq_true, Value.ofNat, Value.ofNat, number_beq,
      Number.beq_iff (Number.toRat?_ofNat hi') (Number.toRat?_ofNat hj'), Nat.cast_inj]
    exact hlt.ne
  kind := by
    rintro _ hk
    obtain ⟨i, hi, rfl⟩ := List.mem_map.mp hk
    exact ⟨_, rfl, Number.isInt_iff.mpr
      ⟨i, Number.toRat?_ofNat ((List.mem_range.mp hi).le.trans hitems)⟩⟩
  complete := by
    rintro _ ⟨n, rfl, hn⟩
    obtain ⟨j, hj⟩ := Number.isInt_iff.mp hn
    have hfloor : n.floor = .exact j := by rw [Number.floor_eq hj, Int.floor_intCast]
    have hkey (i : Nat) (hi : i < items.length) :
        (Value.ofNat i == Value.number n) = true ↔ (i : Int) = j := by
      rw [Value.ofNat, number_beq, Number.beq_iff (Number.toRat?_ofNat (hi.le.trans hitems)) hj]
      exact_mod_cast Iff.rfl
    rw [has, Except.ok.injEq, Value.bool.injEq, isPlace_iff, hfloor]
    constructor
    · rintro ⟨i, hij, hi⟩
      exact ⟨_, List.mem_map.mpr ⟨i, List.mem_range.mpr hi, rfl⟩,
        (hkey i hi).mpr (Whole.exact.inj hij).symm⟩
    · rintro ⟨_, hk, hbeq⟩
      obtain ⟨i, hi, rfl⟩ := List.mem_map.mp hk
      have hlt := List.mem_range.mp hi
      exact ⟨i, by rw [(hkey i hlt).mp hbeq], hlt⟩

/-- Looking up the keys of an array gives its items. -/
theorem mapM_index_array :
    ((List.range items.length).map Value.ofNat).mapM (index (.array items)) = .ok items := by
  have hindex (i : Nat) (hi : i ∈ List.range items.length) :
      index (.array items) (Value.ofNat i) = .ok (items[i]?.getD .null) :=
    index_of_floor (Number.floor_ofNat ((List.mem_range.mp hi).le.trans hitems))
  have hlist : (List.range items.length).map (fun i => items[i]?.getD .null) = items := by
    refine List.ext_getElem (by simp) fun i hi hi' => ?_
    simp [List.getElem?_eq_getElem hi']
  rw [List.mapM_map]
  exact (mapM_of_forall_ok hindex).trans (congrArg Except.ok hlist)

end

/-! ## Both -/

/-- The keys of a container are what it has, and what its parts are found at. An object finds the
value of each key that it has, and `null` for every other string; an array finds the item at the
floor of each number that it has, and `null` for every other one that is not negative and not a NaN.
A NaN is not a key either, but finds the first item. Both computations on arrays are those of
binary64 arithmetic. -/
theorem keys_has_index (fields : List (String × Value)) (hfields : (Fields.keys fields).Nodup)
    (items : List Value) (hitems : items.length ≤ 2 ^ 53) :
    (∃ ks, AreKeys (.object fields) IsString ks ∧ ∃ found vs : List Value,
      ks.mapM (index (.object fields)) = .ok found ∧ Value.items (.object fields) = .ok vs ∧
        found.Perm vs) ∧
    (∀ k : String,
      has (.object fields) (.string k) = .ok (.bool true) ∧
        (∃ v, (k, v) ∈ fields ∧ index (.object fields) (.string k) = .ok v) ∨
      has (.object fields) (.string k) = .ok (.bool false) ∧
        index (.object fields) (.string k) = .ok .null) ∧
    (∃ ks, AreKeys (.array items) IsInteger ks ∧ ∃ found : List Value,
      ks.mapM (index (.array items)) = .ok found ∧ Value.items (.array items) = .ok found) ∧
    (∀ n : Number, ¬n.toFloat < 0 →
      has (.array items) (.number n) = .ok (.bool true) ∧
        (∃ (i : Nat) (v : Value), n.floor = .exact i ∧ items[i]? = some v ∧
          index (.array items) (.number n) = .ok v) ∨
      has (.array items) (.number n) = .ok (.bool false) ∧
        index (.array items) (.number n) =
          .ok (if n.isNaN then items[0]?.getD .null else .null)) ∧
    (∀ n : Number,
      has (.array items) (.number n) = .ok (.bool (decide (0 ≤ n.toFloat) &&
        decide (n.toFloat < (Number.ofNat items.length).toFloat))) ∧
      index (.array items) (.number n) =
        .ok (((Number.offset? items.length n).bind (items[·]?)).getD .null)) := by
  refine ⟨⟨_, areKeys_object hfields, _, _, mapM_index_object hfields, rfl,
    Fields.values_sorted_perm fields⟩, fun k => ?_, ⟨_, areKeys_array hitems, _,
    mapM_index_array hitems, rfl⟩, fun n hsign => ?_, fun n => ⟨?_, ?_⟩⟩
  · by_cases hk : k ∈ Fields.keys fields
    · exact .inl ⟨has_object_iff.mpr hk, index_object_of_mem hfields hk⟩
    · exact .inr ⟨has_object_false_iff.mpr hk, index_object_of_not_mem hk⟩
  · cases hplace : isPlace items.length n with
    | true => exact .inl ⟨by rw [has, hplace], index_of_isPlace hplace⟩
    | false =>
      refine .inr ⟨by rw [has, hplace], ?_⟩
      cases hnan : n.isNaN with
      | true => exact (has_index_of_isNaN hnan).2
      | false => exact index_of_not_isPlace hplace hsign hnan
  · rw [has, Number.isPlace_eq n hitems]
  · rw [index, itemAt, Number.offset?_bind hitems]

/-- An object whose keys are not in order, and a NaN on an array. -/
theorem keys_has_index_unordered :
    (∃ ks found, AreKeys (.object [("b", .null), ("a", .bool true)]) IsString ks ∧
      ks.mapM (index (.object [("b", .null), ("a", .bool true)])) = .ok found ∧
        found.Perm [.null, .bool true]) ∧
    index (.array [.bool true]) (.number Number.nan) = .ok (.bool true) := by
  obtain ⟨⟨ks, hks, found, vs, hfound, hvs, hperm⟩, -, -, harray, -⟩ :=
    keys_has_index [("b", .null), ("a", .bool true)] (by decide) [.bool true] (by decide)
  refine ⟨⟨ks, found, hks, hfound, ?_⟩, ?_⟩
  · cases hvs
    exact hperm
  · obtain ⟨hhas, -⟩ | ⟨-, hindex⟩ := harray Number.nan Number.nan_not_lt
    · rw [(has_index_of_isNaN (n := Number.nan) (by decide)).1] at hhas
      cases hhas
    · exact hindex.trans (by rw [if_pos (by decide)]; rfl)

end Value

end JsonFilter
