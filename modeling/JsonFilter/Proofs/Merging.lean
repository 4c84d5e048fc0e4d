import JsonFilter.Proofs.Containers
import JsonFilter.Proofs.Walk

/-!
Merging objects. The product of two objects has the keys of both, and under each key what the two
hold there merged in turn, so whatever a path of keys leads to in one of them is still there unless
the second object puts something else in its way.
-/

namespace JsonFilter

namespace Fields

variable {α : Type}

/-- Fields are told by their keys in order and by what each key holds. -/
theorem eq_of_get? {f g : Fields α} (hf : (keys f).Nodup) (hkeys : keys f = keys g)
    (hget : ∀ key ∈ keys f, get? key f = get? key g) : f = g := by
  induction f generalizing g with
  | nil =>
    cases g with
    | nil => rfl
    | cons e g => cases hkeys
  | cons e f ih =>
    cases g with
    | nil => cases hkeys
    | cons e' g =>
      obtain ⟨k, v⟩ := e
      obtain ⟨k', v'⟩ := e'
      obtain ⟨rfl, hrest⟩ : k = k' ∧ keys f = keys g := List.cons.inj hkeys
      obtain ⟨hk, hnodup⟩ := List.nodup_cons.mp hf
      obtain rfl : v = v' := by
        have hhead := hget k List.mem_cons_self
        rw [get?, get?, if_pos rfl, if_pos rfl] at hhead
        exact Option.some.inj hhead
      congr 1
      refine ih hnodup hrest fun key hkey => ?_
      have hne : k ≠ key := by
        rintro rfl
        exact hk hkey
      have htail := hget key (List.mem_cons_of_mem k hkey)
      rwa [get?, get?, if_neg hne, if_neg hne] at htail

end Fields

namespace Value

def isObject : Value → Bool
  | .object _ => true
  | _ => false

/-- What a path of keys leads to. -/
def follow? (v : Value) : List String → Option Value
  | [] => some v
  | key :: path => (Fields.get? key v.ownFields).bind fun w => w.follow? path

section
variable {v w x : Value} {key : String} {path : List String} {f g : Fields Value}

theorem isObject_iff : v.isObject = true ↔ ∃ f, v = .object f := by
  cases v <;> simp [isObject]

/-- Only the empty path leads anywhere in a value that is no object. -/
theorem follow?_of_not_object (h : v.isObject = false) (hpath : v.follow? path = some w) :
    path = [] ∧ w = v := by
  cases path with
  | nil => exact ⟨rfl, (Option.some.inj hpath).symm⟩
  | cons key path =>
    cases v with
    | object f => cases h
    | _ => cases hpath

theorem follow?_cons (h : Fields.get? key f = some w) (path : List String) :
    follow? (.object f) (key :: path) = w.follow? path := by
  rw [follow?, ownFields, h, Option.bind_some]

theorem exists_of_follow?_cons (h : follow? (.object f) (key :: path) = some v) :
    ∃ w, Fields.get? key f = some w ∧ w.follow? path = some v :=
  Option.bind_eq_some_iff.mp h

/-! ## One level -/

/-- Unless two objects meet, a value replaces what was there. -/
theorem mergeOnto_eq_self {old : Option Value}
    (h : ∀ x, old = some x → x.isObject = true → w.isObject = false) : mergeOnto old w = w := by
  cases w with
  | object g =>
    rcases old with _ | x
    · rfl
    · cases x with
      | object f => cases h _ rfl rfl
      | _ => rfl
  | _ => rfl

/-- What a key holds after a merge. -/
theorem get?_mergeFields (hg : (Fields.keys g).Nodup) (f : Fields Value) (key : String) :
    Fields.get? key (mergeFields f g) =
      ((Fields.get? key g).map (mergeOnto (Fields.get? key f))).or (Fields.get? key f) := by
  induction g generalizing f with
  | nil => rw [mergeFields, Fields.get?, Option.map_none, Option.none_or]
  | cons e g ih =>
    obtain ⟨k, v⟩ := e
    obtain ⟨hk, hg⟩ := List.nodup_cons.mp hg
    rw [mergeFields, ih hg, Fields.get?_insert, Fields.get?]
    by_cases hkey : k = key
    · subst hkey
      rw [if_pos rfl, if_pos rfl, Fields.get?_eq_none_iff.mpr hk]
      rfl
    · rw [if_neg hkey, if_neg hkey]

/-- The keys of a merge: those of the first object, and then the new ones. -/
theorem keys_mergeFields (hg : (Fields.keys g).Nodup) (f : Fields Value) :
    Fields.keys (mergeFields f g) =
      Fields.keys f ++ (Fields.keys g).filter (· ∉ Fields.keys f) := by
  induction g generalizing f with
  | nil => rw [mergeFields]; exact (List.append_nil _).symm
  | cons e g ih =>
    obtain ⟨k, v⟩ := e
    obtain ⟨hk, hg⟩ := List.nodup_cons.mp hg
    have hcons : Fields.keys ((k, v) :: g) = k :: Fields.keys g := rfl
    rw [mergeFields, ih hg, Fields.keys_insert, hcons]
    by_cases hmem : k ∈ Fields.keys f
    · rw [if_pos hmem, List.filter_cons_of_neg (by simpa using hmem)]
    · rw [if_neg hmem, List.filter_cons_of_pos (by simpa using hmem), List.append_assoc,
        List.singleton_append]
      congr 2
      -- The key just set does not come again.
      refine List.filter_congr fun key hkey => ?_
      have hne : key ≠ k := by
        rintro rfl
        exact hk hkey
      simp [hne]

section
variable (hg : (Fields.keys g).Nodup)
include hg

theorem get?_mergeFields_of_some (hw : Fields.get? key g = some w) :
    Fields.get? key (mergeFields f g) = some (mergeOnto (Fields.get? key f) w) := by
  rw [get?_mergeFields hg, hw]
  rfl

theorem get?_mergeFields_of_none (hnone : Fields.get? key g = none) :
    Fields.get? key (mergeFields f g) = Fields.get? key f := by
  rw [get?_mergeFields hg, hnone]
  rfl

/-- Two objects at a key are merged. -/
theorem get?_mergeFields_of_objects {f' g' : Fields Value}
    (hf' : Fields.get? key f = some (.object f')) (hg' : Fields.get? key g = some (.object g')) :
    Fields.get? key (mergeFields f g) = some (.object (mergeFields f' g')) := by
  rw [get?_mergeFields_of_some hg hg', hf']
  rfl

/-- Unless both hold an object at a key, what the second one holds there stays. -/
theorem get?_mergeFields_of_replaced (hw : Fields.get? key g = some w)
    (h : ∀ x, Fields.get? key f = some x → x.isObject = true → w.isObject = false) :
    Fields.get? key (mergeFields f g) = some w := by
  rw [get?_mergeFields_of_some hg hw, mergeOnto_eq_self h]

end

/-! ## Paths -/

/-- A path that leads to no object in the second object leads to the same value in the merge. -/
theorem follow?_mergeFields_right (hg : DistinctKeys (.object g)) (hv : v.isObject = false)
    (hpath : follow? (.object g) path = some v) :
    follow? (.object (mergeFields f g)) path = some v := by
  induction path generalizing f g with
  | nil =>
    obtain rfl := Option.some.inj hpath
    cases hv
  | cons key path ih =>
    obtain ⟨w, hw, hrest⟩ := exists_of_follow?_cons hpath
    have hreplaced (h : ∀ x, Fields.get? key f = some x → x.isObject = true → w.isObject = false) :
        follow? (.object (mergeFields f g)) (key :: path) = some v := by
      rw [follow?_cons (get?_mergeFields_of_replaced hg.keys hw h), hrest]
    cases hobject : w.isObject with
    | false => exact hreplaced fun _ _ _ => hobject
    | true =>
      obtain ⟨g', rfl⟩ := isObject_iff.mp hobject
      by_cases hboth : ∃ f', Fields.get? key f = some (.object f')
      · obtain ⟨f', hf'⟩ := hboth
        rw [follow?_cons (get?_mergeFields_of_objects hg.keys hf' hw)]
        exact ih (hg.field ((Fields.get?_eq_some_iff hg.keys).mp hw)) hrest
      · refine hreplaced fun x hx hxobject => ?_
        obtain ⟨f', rfl⟩ := isObject_iff.mp hxobject
        exact absurd ⟨f', hx⟩ hboth

/-- A path that leads to a value in the first object leads to the same value in the merge, unless
the second one has a value there or no object on the way. -/
theorem follow?_mergeFields_left (hg : DistinctKeys (.object g))
    (hpath : follow? (.object f) path = some v) (hnone : follow? (.object g) path = none)
    (hway : ∀ front, front <+: path → front ≠ path →
      ∀ w, follow? (.object g) front = some w → w.isObject = true) :
    follow? (.object (mergeFields f g)) path = some v := by
  induction path generalizing f g with
  | nil => cases hnone
  | cons key path ih =>
    obtain ⟨x, hx, hrest⟩ := exists_of_follow?_cons hpath
    cases hw : Fields.get? key g with
    | none => rw [follow?_cons ((get?_mergeFields_of_none hg.keys hw).trans hx), hrest]
    | some w =>
      have hshort : path ≠ [] := by
        rintro rfl
        rw [follow?_cons hw] at hnone
        cases hnone
      -- The second object goes on along the path, and so does the first.
      have hobject : w.isObject = true :=
        hway [key] (List.prefix_append [key] path) (by simpa using Ne.symm hshort) w
          (by rw [follow?_cons hw, follow?])
      obtain ⟨g', rfl⟩ := isObject_iff.mp hobject
      have hxobject : x.isObject = true := by
        by_contra hx
        exact hshort (follow?_of_not_object (Bool.eq_false_iff.mpr hx) hrest).1
      obtain ⟨f', rfl⟩ := isObject_iff.mp hxobject
      rw [follow?_cons (get?_mergeFields_of_objects hg.keys hx hw)]
      refine ih (hg.field ((Fields.get?_eq_some_iff hg.keys).mp hw)) hrest
        ((follow?_cons hw path).symm.trans hnone) fun front hfront hne w hfollow => ?_
      refine hway (key :: front) (List.cons_prefix_cons.mpr ⟨rfl, hfront⟩) (by simpa using hne) w ?_
      rw [follow?_cons hw, hfollow]

/-! ## Identities -/

theorem mergeFields_nil (f : Fields Value) : mergeFields f [] = f := mergeFields.eq_1 f

theorem nil_mergeFields (hg : (Fields.keys g).Nodup) : mergeFields [] g = g := by
  have hkeys : Fields.keys (mergeFields [] g) = Fields.keys g := by
    rw [keys_mergeFields hg]
    simp [Fields.keys]
  refine Fields.eq_of_get? (hkeys ▸ hg) hkeys fun key hkey => ?_
  rw [hkeys] at hkey
  obtain ⟨w, hw⟩ := Fields.mem_keys.mp hkey
  have hw := (Fields.get?_eq_some_iff hg).mpr hw
  rw [hw]
  exact get?_mergeFields_of_replaced hg hw fun x hx => by cases hx

/-- A value is not changed by being merged onto itself. -/
theorem mergeOnto_self (h : v.DistinctKeys) : mergeOnto (some v) v = v := by
  induction v using induction_on_parts with
  | step v ih =>
    cases v with
    | object f =>
      show Value.object (mergeFields f f) = .object f
      have hkeys : Fields.keys (mergeFields f f) = Fields.keys f := by
        rw [keys_mergeFields h.keys, List.filter_eq_nil_iff.mpr (by simp), List.append_nil]
      congr 1
      refine Fields.eq_of_get? (hkeys ▸ h.keys) hkeys fun key hkey => ?_
      rw [hkeys] at hkey
      obtain ⟨w, hw⟩ := Fields.mem_keys.mp hkey
      have hget := (Fields.get?_eq_some_iff h.keys).mpr hw
      rw [get?_mergeFields_of_some h.keys hget, hget,
        ih w (List.mem_map_of_mem hw) (h.field hw)]
    | _ => rfl

theorem mergeFields_self (hf : DistinctKeys (.object f)) : mergeFields f f = f :=
  Value.object.inj (mergeOnto_self hf)

/-- The product of two objects loses nothing. Its keys are those of the first object and then those
that only the second one has, each in their order. A key holds the product of what the two hold, if
these are objects, else what the second one holds, else what the first one does. So a path of keys
that leads to no object in the second one leads to the same value in the product; one that leads to
any value in the first one does too, unless the second has a value there or no object on the way.
The empty object changes nothing on either side, and neither does an object with itself. -/
theorem mul_loses_nothing (a b : Fields Value) (ha : DistinctKeys (.object a))
    (hb : DistinctKeys (.object b)) :
    ∃ m : Fields Value, mul (.object a) (.object b) = .ok (.object m) ∧
      Fields.keys m = Fields.keys a ++ (Fields.keys b).filter (· ∉ Fields.keys a) ∧
      (∀ key f g, Fields.get? key a = some (.object f) → Fields.get? key b = some (.object g) →
        ∃ h, Fields.get? key m = some h ∧ mul (.object f) (.object g) = .ok h) ∧
      (∀ key w, Fields.get? key b = some w →
        (∀ x, Fields.get? key a = some x → ¬(x.isObject = true ∧ w.isObject = true)) →
        Fields.get? key m = some w) ∧
      (∀ key, Fields.get? key b = none → Fields.get? key m = Fields.get? key a) ∧
      (∀ path v, follow? (.object b) path = some v → v.isObject = false →
        follow? (.object m) path = some v) ∧
      (∀ path v, follow? (.object a) path = some v → follow? (.object b) path = none →
        (∀ front, front <+: path → front ≠ path →
          ∀ w, follow? (.object b) front = some w → w.isObject = true) →
        follow? (.object m) path = some v) ∧
      mul (.object a) (.object []) = .ok (.object a) ∧
      mul (.object []) (.object a) = .ok (.object a) ∧
      mul (.object a) (.object a) = .ok (.object a) := by
  refine ⟨mergeFields a b, rfl, keys_mergeFields hb.keys a, ?_, ?_, ?_, ?_, ?_, ?_, ?_, ?_⟩
  · intro key f g hf hg
    exact ⟨_, get?_mergeFields_of_objects hb.keys hf hg, rfl⟩
  · intro key w hw h
    refine get?_mergeFields_of_replaced hb.keys hw fun x hx hxobject => ?_
    exact Bool.eq_false_iff.mpr fun hwobject => h x hx ⟨hxobject, hwobject⟩
  · intro key hnone
    exact get?_mergeFields_of_none hb.keys hnone
  · intro path v hpath hv
    exact follow?_mergeFields_right hb hv hpath
  · intro path v hpath hnone hway
    exact follow?_mergeFields_left hb hpath hnone hway
  · rw [mul, mergeFields_nil]
  · rw [mul, nil_mergeFields ha.keys]
  · rw [mul, mergeFields_self ha]

/-- Objects that meet in objects at one key and in other values at two more. -/
theorem mul_loses_nothing_nested :
    let a : Fields Value := [("k", .object [("i", .number 1), ("j", .null)]), ("l", .object []),
      ("m", .bool true)]
    let b : Fields Value := [("n", .string ""), ("m", .object []), ("l", .array []),
      ("k", .object [("h", .object [("g", .null)]), ("i", .bool false)])]
    ∃ m : Fields Value, mul (.object a) (.object b) = .ok (.object m) ∧
      Fields.keys m = ["k", "l", "m", "n"] ∧
      Fields.get? "m" m = some (.object []) ∧
      follow? (.object m) ["k", "j"] = some .null ∧
      follow? (.object m) ["k", "h", "g"] = some .null := by
  intro a b
  obtain ⟨m, hmul, hkeys, -, hreplaced, -, hright, hleft, -⟩ :=
    mul_loses_nothing a b (by decide) (by decide)
  refine ⟨m, hmul, hkeys.trans (by decide), hreplaced "m" (.object []) rfl ?_, ?_,
    hright ["k", "h", "g"] .null rfl rfl⟩
  · intro x hx
    obtain rfl := Option.some.inj hx
    decide
  · refine hleft ["k", "j"] .null rfl rfl fun front hfront hne w hw => ?_
    obtain rfl | rfl | rfl : front = [] ∨ front = ["k"] ∨ front = ["k", "j"] := by
      simpa using (List.mem_inits _ _).mpr hfront
    · obtain rfl := Option.some.inj hw
      rfl
    · obtain rfl := Option.some.inj hw
      rfl
    · exact absurd rfl hne

end

end Value

end JsonFilter
