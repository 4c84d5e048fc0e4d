import JsonFilter.Proofs.Json.Canonical
import JsonFilter.Proofs.Json.Documents
import JsonFilter.Proofs.Plain.Reading
import JsonFilter.Value.Plain

/-!
Values as plain data and back. Placing the keys is setting them and sorting, so the value of a datum
in order is its value with sorted keys; and a value whose numbers are finite comes back from plain
data as the value that its text is read as.
-/

namespace JsonFilter

namespace Fields

variable {α β : Type}

/-- Fields in ascending order are told by what each key holds. -/
theorem Ascending.eq_of_get? {f g : Fields α} (hf : Ascending f) (hg : Ascending g)
    (h : ∀ key, get? key f = get? key g) : f = g := by
  have hmem (e : String × α) : e ∈ f ↔ e ∈ g := by
    rw [← get?_eq_some_iff hf.nodup, h, get?_eq_some_iff hg.nodup]
  have hperm : f.Perm g :=
    (List.perm_ext_iff_of_nodup (.of_map _ hf.nodup) (.of_map _ hg.nodup)).mpr hmem
  rw [Ascending, keys, List.pairwise_map] at hf hg
  exact hperm.eq_of_pairwise
    (fun a b _ _ hab hba => (String.lt_irrefl _ (String.lt_trans hab hba)).elim) hf hg

theorem nodup_insertAll {fields : Fields α} (h : (keys fields).Nodup) (more : Fields α) :
    (keys (fields.insertAll more)).Nodup := by
  induction more generalizing fields with
  | nil => exact h
  | cons f more ih => exact ih (nodup_insert f.1 f.2 fields h)

theorem place_sorted {fields : Fields α} (h : (keys fields).Nodup) (key : String) (value : α) :
    place key value (sorted fields) = sorted (insert key value fields) := by
  have hsorted : Ascending (sorted fields) := keys_sorted_ascending h
  have hinsert := nodup_insert key value fields h
  refine (hsorted.place key value).eq_of_get? (keys_sorted_ascending hinsert) fun other => ?_
  rw [get?_place, get?_sorted h, get?_sorted hinsert, get?_insert]

/-- Placing every key is setting every key and sorting. -/
theorem placeAll_eq (fields : Fields α) : placeAll fields = sorted (insertAll [] fields) := by
  have key (more acc : Fields α) (h : (keys acc).Nodup) :
      more.foldl (fun acc f => acc.place f.1 f.2) (sorted acc) = sorted (insertAll acc more) := by
    induction more generalizing acc with
    | nil => rfl
    | cons f more ih =>
      rw [List.foldl_cons, place_sorted h]
      exact ih _ (nodup_insert f.1 f.2 acc h)
  have hempty : sorted ([] : Fields α) = [] := List.mergeSort_nil
  have hplace := key fields [] List.nodup_nil
  rwa [hempty] at hplace

theorem mem_of_insertAll {f : String × α} {fields : Fields α} (h : f ∈ insertAll [] fields) :
    f ∈ fields := by
  rw [← mem_sorted, ← placeAll_eq] at h
  exact mem_placeAll h

/-- Fields that have no key twice are set one after the other. -/
theorem insertAll_of_nodup {fields : Fields α} (h : (keys fields).Nodup) :
    insertAll [] fields = fields := by
  have key (more acc : Fields α) (h : (keys (acc ++ more)).Nodup) :
      insertAll acc more = acc ++ more := by
    induction more generalizing acc with
    | nil => exact (List.append_nil acc).symm
    | cons f more ih =>
      have hnew : f.1 ∉ keys acc := by
        rw [keys, List.map_append] at h
        exact fun hk => (List.nodup_append.mp h).2.2 _ hk _ List.mem_cons_self rfl
      have happend : acc ++ f :: more = acc ++ [f] ++ more := by simp
      show insertAll (acc.insert f.1 f.2) more = _
      rw [insert_of_not_mem hnew, happend]
      exact ih _ (happend ▸ h)
  exact key fields [] h

section
variable (g : α → β)

theorem map_insert (key : String) (value : α) (fields : Fields α) :
    (insert key value fields).map (fun f => (f.1, g f.2)) =
      insert key (g value) (fields.map fun f => (f.1, g f.2)) := by
  induction fields with
  | nil => rfl
  | cons f fields ih =>
    rw [insert, List.map_cons, insert]
    split
    · rfl
    · rw [List.map_cons, ih]

theorem map_insertAll (fields more : Fields α) :
    (insertAll fields more).map (fun f => (f.1, g f.2)) =
      insertAll (fields.map fun f => (f.1, g f.2)) (more.map fun f => (f.1, g f.2)) := by
  induction more generalizing fields with
  | nil => rfl
  | cons f more ih =>
    show (insertAll (fields.insert f.1 f.2) more).map _ = _
    rw [ih, map_insert]
    rfl

/-- Placing looks only at the keys. -/
theorem map_placeAll (fields : Fields α) :
    (placeAll fields).map (fun f => (f.1, g f.2)) =
      placeAll (fields.map fun f => (f.1, g f.2)) := by
  rw [placeAll_eq, placeAll_eq, map_sorted, map_insertAll]
  rfl

end

end Fields

namespace Json.Datum

open Value (AllDecodable sortKeysFields)

/-! ## Data in order -/

mutual

/-- The value of a datum in order is its value with sorted keys. -/
theorem toValue_arrange : ∀ d : Datum, d.arrange.toValue = d.toValue.sortKeys
  | .null => rfl
  | .bool _ => rfl
  | .number _ => rfl
  | .string _ => rfl
  | .array items => by
    rw [arrange, toValue, toValue, Value.sortKeys, toValues_arrangeList items]
  | .object fields => by
    have hfields : toFields (Fields.placeAll (arrangeFields fields)) =
        Fields.placeAll (sortKeysFields (toFields fields)) := by
      rw [← toFields_arrangeFields fields, toFields_eq_map, toFields_eq_map, Fields.map_placeAll]
    rw [arrange, toValue, toValue, Value.sortKeys, hfields,
      Fields.insertAll_of_nodup (Fields.ascending_placeAll _).nodup, Fields.placeAll_eq,
      Value.sortKeysFields_eq_map, Value.sortKeysFields_eq_map, Fields.map_insertAll]
    rfl

theorem toValues_arrangeList : ∀ ds : List Datum,
    toValues (arrangeList ds) = Value.sortKeysList (toValues ds)
  | [] => rfl
  | d :: ds => by
    rw [arrangeList, toValues, toValues, Value.sortKeysList, toValue_arrange d,
      toValues_arrangeList ds]

theorem toFields_arrangeFields : ∀ fs : List (String × Datum),
    toFields (arrangeFields fs) = sortKeysFields (toFields fs)
  | [] => rfl
  | (k, d) :: fs => by
    rw [arrangeFields, toFields, toFields, sortKeysFields, toValue_arrange d,
      toFields_arrangeFields fs]

end

mutual

/-- The value of a datum has finite numbers and no key twice. -/
theorem allDecodable_toValue : ∀ d : Datum, AllDecodable d.toValue.walk
  | .null => List.forall_mem_singleton.mpr trivial
  | .bool _ => List.forall_mem_singleton.mpr trivial
  | .number n => List.forall_mem_singleton.mpr n.isFinite_toNumber
  | .string _ => List.forall_mem_singleton.mpr trivial
  | .array items => List.forall_mem_cons.mpr ⟨trivial, allDecodable_toValues items⟩
  | .object fields => by
    have hnil : (Fields.keys ([] : Fields Value)).Nodup := List.nodup_nil
    refine List.forall_mem_cons.mpr ⟨Fields.nodup_insertAll hnil _, fun v hv => ?_⟩
    obtain ⟨f, hf, hv⟩ := Value.mem_walkFields.mp hv
    exact allDecodable_toFields fields v
      (Value.mem_walkFields.mpr ⟨f, Fields.mem_of_insertAll hf, hv⟩)

theorem allDecodable_toValues : ∀ ds : List Datum, AllDecodable (Value.walkList (toValues ds))
  | [] => List.forall_mem_nil _
  | d :: ds => List.forall_mem_append.mpr ⟨allDecodable_toValue d, allDecodable_toValues ds⟩

theorem allDecodable_toFields : ∀ fs : List (String × Datum),
    AllDecodable (Value.walkFields (toFields fs))
  | [] => List.forall_mem_nil _
  | (_, d) :: fs => List.forall_mem_append.mpr ⟨allDecodable_toValue d, allDecodable_toFields fs⟩

end

end Json.Datum

open Json (Datum Figure)

/-! ## Numbers -/

theorem Json.Figure.toNumber_ofInt (n : Int) (low : Number.minInt ≤ n) (high : n ≤ Number.maxInt) :
    (ofInt n low high).toNumber = .ofInt n := by
  unfold ofInt
  split
  · rfl
  · next h =>
    obtain ⟨k, rfl⟩ := Int.eq_ofNat_of_zero_le (Int.not_lt.mp h)
    rfl

theorem Json.Figure.text_ofInt (n : Int) (low : Number.minInt ≤ n) (high : n ≤ Number.maxInt) :
    (ofInt n low high).text = toString n := by
  unfold ofInt
  split
  · rfl
  · next h => rw [text, Int.toNat_of_nonneg (Int.not_lt.mp h)]

namespace Number

variable {x : Number}

theorem safeInt?_eq_some_iff {n : Int} :
    x.safeInt? = some n ↔ x.toRat? = some (n : ℚ) ∧ n.natAbs ≤ maxSafe := by
  unfold safeInt? toRat?
  cases x.dyadic? with
  | none => simp
  | some d =>
    dsimp only
    rw [Option.map_some, Option.some_inj]
    constructor
    · intro h
      split at h
      · next hsafe =>
        obtain ⟨hwhole, hsize⟩ := Bool.and_eq_true_iff.mp hsafe
        obtain ⟨m, hm⟩ := d.isWhole_iff.mp hwhole
        obtain rfl := Option.some.inj h
        refine ⟨?_, of_decide_eq_true hsize⟩
        rw [d.trunc_eq, hm, integerPart_intCast]
      · cases h
    · rintro ⟨hvalue, hsize⟩
      have htrunc : d.trunc = n := by rw [d.trunc_eq, hvalue, integerPart_intCast]
      rw [htrunc, d.isWhole_iff.mpr ⟨n, hvalue⟩, decide_eq_true hsize]
      rfl

/-- A safe integer is the same as one of 64 bits. -/
theorem toInt_of_safeInt? {n : Int} (h : x.safeInt? = some n) : x.toInt = n := by
  obtain ⟨hvalue, hsize⟩ := safeInt?_eq_some_iff.mp h
  have hsafe : n.natAbs ≤ 2 ^ 53 := hsize
  rw [toInt_of_toRat? hvalue, integerPart_intCast, minInt_eq, maxInt_eq]
  omega

/-- The text of a finite number denotes the number, but for the sign of a zero. -/
theorem reread_eq {p : ℚ} (h : x.toRat? = some p) : x.reread = if p = 0 then zero else x := by
  obtain ⟨d, hd, rfl⟩ := Option.map_eq_some_iff.mp h
  rcases Nat.eq_zero_or_pos d.mantissa with hm | hm
  · have hvalue : d.value = 0 := by simp [Dyadic.value, Dyadic.signed, hm]
    rw [if_pos hvalue, reread, Json.ofText_of_readNumber (readNumber_json_zero hd hm)]
  · obtain ⟨hc, -⟩ := unpack_of_dyadic? hd hm
    have hvalue : d.value ≠ 0 := by
      rw [← value_of_sign]
      exact Binary.value_ne_zero hc
    rw [if_neg hvalue, reread, Json.ofText_of_readNumber (readNumber_json hd hm)]

/-- A finite number as a datum is the number that its text denotes. -/
theorem toValue_datum (h : x.isFinite = true) : x.datum.toValue = .number x.reread := by
  obtain ⟨p, hp⟩ := exists_toRat? h
  rw [reread_eq hp]
  unfold datum
  split
  · next hsafe =>
    obtain ⟨n, hn⟩ := Option.isSome_iff_exists.mp hsafe
    obtain ⟨hvalue, hsize⟩ := safeInt?_eq_some_iff.mp hn
    obtain rfl := Option.some.inj (hvalue.symm.trans hp)
    rw [Datum.toValue, Figure.toNumber_ofInt, toInt_of_safeInt? hn]
    by_cases hzero : n = 0
    · subst hzero
      rw [if_pos Int.cast_zero]
      rfl
    · have hcast : (n : ℚ) ≠ 0 := Int.cast_ne_zero.mpr hzero
      rw [if_neg hcast, eq_of_toRat? (toRat?_ofInt (representable_of_natAbs_le hsize)) hp hcast]
  · next hsafe =>
    split
    · next hzero =>
      subst hzero
      have hint : x.safeInt? = some 0 :=
        safeInt?_eq_some_iff.mpr ⟨hp.trans (congrArg some Int.cast_zero.symm), Nat.zero_le _⟩
      rw [isSafeInt, hint] at hsafe
      exact (hsafe rfl).elim
    · rfl

theorem chars_datum (h : x.isFinite = true) : x.datum.chars = x.json.toList := by
  obtain ⟨d, hd⟩ := exists_dyadic h
  unfold datum json Layout.text
  split
  · next hsafe =>
    obtain ⟨n, hn⟩ := Option.isSome_iff_exists.mp hsafe
    rw [Datum.chars, Figure.text_ofInt, hn, toInt_of_safeInt? hn]
  · next hsafe =>
    have hnone : x.safeInt? = none := by simpa [isSafeInt] using hsafe
    rw [Datum.chars, Figure.text, hnone, hd]

theorem datum_of_not_isFinite (h : ¬x.isFinite = true) : x.datum = .null := by
  have hsafe : ¬x.isSafeInt = true := by
    intro hsafe
    obtain ⟨n, hn⟩ := Option.isSome_iff_exists.mp hsafe
    exact h (isFinite_of_toRat? (safeInt?_eq_some_iff.mp hn).1)
  rw [datum, if_neg hsafe, dif_neg h]

end Number

/-! ## Values -/

namespace Value

theorem datumFields_eq_map (fs : List (String × Value)) :
    datumFields fs = fs.map fun f => (f.1, f.2.datum) := by
  induction fs with
  | nil => rfl
  | cons f fs ih => rw [datumFields, ih, List.map_cons]

theorem keys_dropNonFiniteFields (fs : List (String × Value)) :
    Fields.keys (dropNonFiniteFields fs) = Fields.keys fs := by
  induction fs with
  | nil => rfl
  | cons f fs ih => exact congrArg (f.1 :: ·) ih

mutual

/-- A number that is not finite and `null` are the same datum. -/
theorem datum_dropNonFinite : ∀ v : Value, v.dropNonFinite.datum = v.datum
  | .null => rfl
  | .bool _ => rfl
  | .number n => by
    rw [dropNonFinite]
    split
    · rfl
    · next h => exact (Number.datum_of_not_isFinite h).symm
  | .string _ => rfl
  | .array items => by rw [dropNonFinite, datum, datum, datumList_dropNonFiniteList items]
  | .object fields => by
    rw [dropNonFinite, datum, datum, datumFields_dropNonFiniteFields fields]

theorem datumList_dropNonFiniteList : ∀ vs : List Value,
    datumList (dropNonFiniteList vs) = datumList vs
  | [] => rfl
  | v :: vs => by
    rw [dropNonFiniteList, datumList, datumList, datum_dropNonFinite v,
      datumList_dropNonFiniteList vs]

theorem datumFields_dropNonFiniteFields : ∀ fs : List (String × Value),
    datumFields (dropNonFiniteFields fs) = datumFields fs
  | [] => rfl
  | (k, v) :: fs => by
    rw [dropNonFiniteFields, datumFields, datumFields, datum_dropNonFinite v,
      datumFields_dropNonFiniteFields fs]

end

mutual

theorem allDecodable_dropNonFinite : ∀ v : Value,
    (∀ w ∈ v.walk, (Fields.keys w.ownFields).Nodup) → AllDecodable v.dropNonFinite.walk
  | .null, _ => List.forall_mem_singleton.mpr trivial
  | .bool _, _ => List.forall_mem_singleton.mpr trivial
  | .number n, _ => by
    rw [dropNonFinite]
    split
    · next h => exact List.forall_mem_singleton.mpr h
    · exact List.forall_mem_singleton.mpr trivial
  | .string _, _ => List.forall_mem_singleton.mpr trivial
  | .array items, h =>
    List.forall_mem_cons.mpr
      ⟨trivial, allDecodable_dropNonFiniteList items (List.forall_mem_cons.mp h).2⟩
  | .object fields, h => by
    obtain ⟨hkeys, hparts⟩ := List.forall_mem_cons.mp h
    have hdrop : (Fields.keys (dropNonFiniteFields fields)).Nodup := by
      rw [keys_dropNonFiniteFields]
      exact hkeys
    exact List.forall_mem_cons.mpr ⟨hdrop, allDecodable_dropNonFiniteFields fields hparts⟩

theorem allDecodable_dropNonFiniteList : ∀ vs : List Value,
    (∀ w ∈ walkList vs, (Fields.keys w.ownFields).Nodup) →
      AllDecodable (walkList (dropNonFiniteList vs))
  | [], _ => List.forall_mem_nil _
  | v :: vs, h => by
    obtain ⟨hv, hvs⟩ := List.forall_mem_append.mp h
    exact List.forall_mem_append.mpr
      ⟨allDecodable_dropNonFinite v hv, allDecodable_dropNonFiniteList vs hvs⟩

theorem allDecodable_dropNonFiniteFields : ∀ fs : List (String × Value),
    (∀ w ∈ walkFields fs, (Fields.keys w.ownFields).Nodup) →
      AllDecodable (walkFields (dropNonFiniteFields fs))
  | [], _ => List.forall_mem_nil _
  | (_, v) :: fs, h => by
    obtain ⟨hv, hfs⟩ := List.forall_mem_append.mp h
    exact List.forall_mem_append.mpr
      ⟨allDecodable_dropNonFinite v hv, allDecodable_dropNonFiniteFields fs hfs⟩

end

mutual

/-- A value whose numbers are finite is, as a datum, the value that its text is read as. -/
theorem toValue_datum : ∀ v : Value, AllDecodable v.walk → v.datum.toValue = v.reread
  | .null, _ => rfl
  | .bool _, _ => rfl
  | .number _, h => Number.toValue_datum h.self
  | .string _, _ => rfl
  | .array items, h => by rw [datum, Datum.toValue, reread, toValues_datumList items h.tail]
  | .object fields, h => by
    have hkeys : (Fields.keys (rereadFields fields)).Nodup := by
      rw [keys_rereadFields]
      exact h.self
    rw [datum, Datum.toValue, reread, toFields_datumFields fields h.tail,
      Fields.insertAll_of_nodup hkeys]

theorem toValues_datumList : ∀ vs : List Value, AllDecodable (walkList vs) →
    Datum.toValues (datumList vs) = rereadList vs
  | [], _ => rfl
  | v :: vs, h => by
    obtain ⟨hv, hvs⟩ := h.split
    rw [datumList, Datum.toValues, rereadList, toValue_datum v hv, toValues_datumList vs hvs]

theorem toFields_datumFields : ∀ fs : List (String × Value), AllDecodable (walkFields fs) →
    Datum.toFields (datumFields fs) = rereadFields fs
  | [], _ => rfl
  | (k, v) :: fs, h => by
    obtain ⟨hv, hfs⟩ := h.split
    rw [datumFields, Datum.toFields, rereadFields, toValue_datum v hv,
      toFields_datumFields fs hfs]

end

mutual

/-- A value whose numbers are finite has, as a datum, the text of the value on one line. -/
theorem chars_datum : ∀ (v : Value) (level : Nat), AllDecodable v.walk →
    v.datum.chars = chars 0 level v
  | .null, _, _ => rfl
  | .bool true, _, _ => rfl
  | .bool false, _, _ => rfl
  | .number _, _, h => Number.chars_datum h.self
  | .string _, _, _ => rfl
  | .array [], _, _ => rfl
  | .array (v :: vs), level, h => by
    obtain ⟨hv, hvs⟩ := h.tail.split
    rw [datum, datumList, Datum.chars, chars_datum v (level + 1) hv,
      itemChars_datumList vs (level + 1) hvs, chars]
    simp [lineBreak]
  | .object [], _, _ => rfl
  | .object ((k, v) :: fs), level, h => by
    obtain ⟨hv, hfs⟩ := h.tail.split
    rw [datum, datumFields, Datum.chars, chars_datum v (level + 1) hv,
      fieldChars_datumFields fs (level + 1) hfs, chars]
    simp [lineBreak, colon]

theorem itemChars_datumList : ∀ (vs : List Value) (level : Nat), AllDecodable (walkList vs) →
    Datum.itemChars (datumList vs) = itemChars 0 level vs
  | [], _, _ => rfl
  | v :: vs, level, h => by
    obtain ⟨hv, hvs⟩ := h.split
    rw [datumList, Datum.itemChars, chars_datum v level hv, itemChars_datumList vs level hvs]
    rfl

theorem fieldChars_datumFields : ∀ (fs : List (String × Value)) (level : Nat),
    AllDecodable (walkFields fs) → Datum.fieldChars (datumFields fs) = fieldChars 0 level fs
  | [], _, _ => rfl
  | (k, v) :: fs, level, h => by
    obtain ⟨hv, hfs⟩ := h.split
    rw [datumFields, Datum.fieldChars, chars_datum v level hv,
      fieldChars_datumFields fs level hfs, fieldChars]
    simp [lineBreak, colon]

end

mutual

/-- A value without a key twice is put in order by sorting its keys. -/
theorem arrange_datum : ∀ v : Value, AllDecodable v.walk → v.datum.arrange = v.sortKeys.datum
  | .null, _ => rfl
  | .bool _, _ => rfl
  | .number n, _ => by
    rw [datum, sortKeys, datum, Number.datum]
    repeat' split
    all_goals rfl
  | .string _, _ => rfl
  | .array items, h => by
    rw [datum, Datum.arrange, sortKeys, datum, arrangeList_datumList items h.tail]
  | .object fields, h => by
    have hkeys : (Fields.keys (sortKeysFields fields)).Nodup := by
      rw [keys_sortKeysFields]
      exact h.self
    rw [datum, Datum.arrange, sortKeys, datum, arrangeFields_datumFields fields h.tail,
      datumFields_eq_map, datumFields_eq_map, ← Fields.map_placeAll, Fields.placeAll_eq,
      Fields.insertAll_of_nodup hkeys]

theorem arrangeList_datumList : ∀ vs : List Value, AllDecodable (walkList vs) →
    Datum.arrangeList (datumList vs) = datumList (sortKeysList vs)
  | [], _ => rfl
  | v :: vs, h => by
    obtain ⟨hv, hvs⟩ := h.split
    rw [datumList, Datum.arrangeList, sortKeysList, datumList, arrange_datum v hv,
      arrangeList_datumList vs hvs]

theorem arrangeFields_datumFields : ∀ fs : List (String × Value), AllDecodable (walkFields fs) →
    Datum.arrangeFields (datumFields fs) = datumFields (sortKeysFields fs)
  | [], _ => rfl
  | (k, v) :: fs, h => by
    obtain ⟨hv, hfs⟩ := h.split
    rw [datumFields, Datum.arrangeFields, sortKeysFields, datumFields, arrange_datum v hv,
      arrangeFields_datumFields fs hfs]

end

end Value

namespace Plain

variable {v : Value}

/-- Plain data have the text of the value that they are of, with sorted keys. -/
theorem text_ofValue (h : Value.AllDecodable v.walk) : (ofValue v).text = v.text ⟨0, true⟩ := by
  show String.ofList v.datum.arrange.chars = _
  rw [Value.arrange_datum v h, Value.chars_datum _ 0 h.sortKeys]
  rfl

theorem ofValue_dropNonFinite (v : Value) : ofValue v.dropNonFinite = ofValue v :=
  congrArg ofDatum (Value.datum_dropNonFinite v)

/-- Whatever its numbers are, a value has as plain data the text of the value that is left when those
that are not finite are dropped. -/
theorem text_ofValue_eq_toPlain (h : v.DistinctKeys) : (ofValue v).text = v.toPlain.json := by
  rw [← ofValue_dropNonFinite, text_ofValue (Value.allDecodable_dropNonFinite v h)]
  rfl

/-- The value of the plain data of a value is the one with sorted keys that its text denotes. -/
theorem toValue_ofValue (h : Value.AllDecodable v.walk) :
    (ofValue v).toValue = v.sortKeys.reread := by
  show v.datum.arrange.toValue = _
  rw [Datum.toValue_arrange, Value.toValue_datum v h, Value.sortKeys_reread]

end Plain

end JsonFilter
