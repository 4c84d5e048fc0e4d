import JsonFilter.Operation.Builtin
import JsonFilter.Proofs.Order.Alike

/-!
Addition as a monoid. With `null` as its neutral value, addition is associative wherever at most one
number takes part: both bracketings succeed on the same values, with the same sum. So the sum of an
array can be taken in two parts.
-/

namespace JsonFilter

namespace Fields

variable {α : Type} {j k : String} {v w : α}

theorem insert_insert (f : Fields α) : insert k v (insert k w f) = insert k v f := by
  induction f with
  | nil => simp [insert]
  | cons e f ih => grind [insert]

/-- Setting a key that is there and setting another one can be swapped. -/
theorem insert_comm {f : Fields α} (hne : j ≠ k) (hk : k ∈ keys f) :
    insert k v (insert j w f) = insert j w (insert k v f) := by
  induction f with
  | nil => cases hk
  | cons e f ih =>
    obtain ⟨i, u⟩ := e
    rw [keys, List.map_cons, List.mem_cons] at hk
    grind [insert, keys]

theorem mem_keys_insert_self (f : Fields α) : k ∈ keys (insert k v f) := by
  rw [keys_insert]
  split
  · assumption
  · exact List.mem_append_right _ (List.mem_singleton_self k)

theorem insertAll_cons (f : Fields α) (e : String × α) (g : Fields α) :
    f.insertAll (e :: g) = (f.insert e.1 e.2).insertAll g := rfl

/-- A key that is there already can be set before or after other keys. -/
theorem insert_insertAll_of_not_mem {f g : Fields α} (hf : k ∈ keys f) (hg : k ∉ keys g) :
    (f.insertAll g).insert k v = (f.insert k v).insertAll g := by
  induction g generalizing f with
  | nil => rfl
  | cons e g ih =>
    obtain ⟨j, w⟩ := e
    rw [keys, List.map_cons, List.mem_cons, not_or] at hg
    obtain ⟨hne, hg⟩ := hg
    have hmem : k ∈ keys (insert j w f) := by
      rw [keys_insert]
      split
      · exact hf
      · exact List.mem_append_left _ hf
    rw [insertAll_cons, insertAll_cons, ih hmem hg, insert_comm (Ne.symm hne) hf]

/-- Setting a key last is setting it last in the fields that are set. -/
theorem insert_insertAll {f g : Fields α} (hg : (keys g).Nodup) :
    (f.insertAll g).insert k v = f.insertAll (g.insert k v) := by
  induction g generalizing f with
  | nil => rfl
  | cons e g ih =>
    obtain ⟨j, w⟩ := e
    obtain ⟨hj, hnodup⟩ := List.nodup_cons.mp hg
    rw [insert]
    split
    · next heq =>
      subst heq
      rw [insertAll_cons, insertAll_cons, insert_insertAll_of_not_mem (mem_keys_insert_self f) hj,
        insert_insert]
    · rw [insertAll_cons, insertAll_cons, ih hnodup]

/-- Setting the fields of three objects is associative, down to the order of the keys. -/
theorem insertAll_assoc {f g : Fields α} (hg : (keys g).Nodup) (h : Fields α) :
    (f.insertAll g).insertAll h = f.insertAll (g.insertAll h) := by
  induction h generalizing g with
  | nil => rfl
  | cons e h ih =>
    rw [insertAll_cons, insertAll_cons, insert_insertAll hg, ih (nodup_insert e.1 e.2 g hg)]

end Fields

namespace Value

/-- The values that two values other than `null` add up to. -/
inductive Joins : Value → Value → Value → Prop where
  | numbers (m n : Number) : Joins (.number m) (.number n) (.number (m + n))
  | strings (s t : String) : Joins (.string s) (.string t) (.string (s ++ t))
  | arrays (xs ys : List Value) : Joins (.array xs) (.array ys) (.array (xs ++ ys))
  | objects (f g : Fields Value) : Joins (.object f) (.object g) (.object (f.insertAll g))

variable {a b c s v : Value}

theorem null_add (a : Value) : add .null a = .ok a := rfl

theorem add_null (a : Value) : add a .null = .ok a := by cases a <;> rfl

theorem Joins.add (h : Joins a b v) : add a b = .ok v := by cases h <;> rfl

/-- Addition by cases: one of the values is `null`, or the two are joined. -/
theorem add_eq_ok_iff : add a b = .ok v ↔ a = .null ∧ v = b ∨ b = .null ∧ v = a ∨ Joins a b v := by
  constructor
  · intro h
    unfold Value.add at h
    split at h
    · exact .inl ⟨rfl, (Except.ok.inj h).symm⟩
    · exact .inr (.inl ⟨rfl, (Except.ok.inj h).symm⟩)
    · exact .inr (.inr (Except.ok.inj h ▸ .numbers _ _))
    · exact .inr (.inr (Except.ok.inj h ▸ .strings _ _))
    · exact .inr (.inr (Except.ok.inj h ▸ .arrays _ _))
    · exact .inr (.inr (Except.ok.inj h ▸ .objects _ _))
    · cases h
  · rintro (⟨rfl, rfl⟩ | ⟨rfl, rfl⟩ | h)
    · exact null_add _
    · exact add_null _
    · exact h.add

/-! ## Associativity -/

/-- How many numbers there are among some values. -/
def numbers (values : List Value) : Nat := values.countP fun v => v.number?.isSome

theorem numbers_cons (v : Value) (vs : List Value) :
    numbers (v :: vs) = numbers [v] + numbers vs := by
  rw [numbers, List.countP_cons, numbers, numbers, List.countP_singleton, Nat.add_comm]

theorem numbers_null_cons (vs : List Value) : numbers (.null :: vs) = numbers vs :=
  List.countP_cons_of_neg (by decide)

theorem numbers_append (vs ws : List Value) : numbers (vs ++ ws) = numbers vs + numbers ws :=
  List.countP_append

/-- The fields of a value, if it is an object, have distinct keys. -/
def OwnKeysDistinct (v : Value) : Prop := (Fields.keys v.ownFields).Nodup

theorem DistinctKeys.own (h : v.DistinctKeys) : v.OwnKeysDistinct := h v (mem_walk v)

/-- The sum of two values is a number only if one of them is. -/
theorem numbers_add_le (h : add a b = .ok v) : numbers [v] ≤ numbers [a, b] := by
  rw [numbers_cons a]
  obtain ⟨rfl, rfl⟩ | ⟨rfl, rfl⟩ | hjoins := add_eq_ok_iff.mp h
  · exact Nat.le_add_left _ _
  · exact Nat.le_add_right _ _
  · cases hjoins with
    | numbers m n => exact Nat.le_succ 1
    | _ => exact Nat.zero_le _

/-- Three values other than `null` are joined alike in both bracketings. -/
theorem joins_assoc (hb : b.OwnKeysDistinct) (hnumbers : numbers [a, b, c] ≤ 1) :
    (∃ s, Joins a b s ∧ Joins s c v) ↔ ∃ s, Joins b c s ∧ Joins a s v := by
  constructor
  · rintro ⟨s, hab, hsc⟩
    cases hab with
    | numbers m n =>
      cases hsc
      exact absurd (show 3 ≤ 1 from hnumbers) (by decide)
    | strings s t =>
      cases hsc
      rw [String.append_assoc]
      exact ⟨_, .strings _ _, .strings _ _⟩
    | arrays xs ys =>
      cases hsc
      rw [List.append_assoc]
      exact ⟨_, .arrays _ _, .arrays _ _⟩
    | objects f g =>
      cases hsc
      have hg : (Fields.keys g).Nodup := hb
      rw [Fields.insertAll_assoc hg]
      exact ⟨_, .objects _ _, .objects _ _⟩
  · rintro ⟨s, hbc, has⟩
    cases hbc with
    | numbers m n =>
      cases has
      exact absurd (show 3 ≤ 1 from hnumbers) (by decide)
    | strings s t =>
      cases has
      rw [← String.append_assoc]
      exact ⟨_, .strings _ _, .strings _ _⟩
    | arrays xs ys =>
      cases has
      rw [← List.append_assoc]
      exact ⟨_, .arrays _ _, .arrays _ _⟩
    | objects f g =>
      cases has
      have hf : (Fields.keys f).Nodup := hb
      rw [← Fields.insertAll_assoc hf]
      exact ⟨_, .objects _ _, .objects _ _⟩

theorem Joins.ne_null (h : Joins a b v) : a ≠ .null ∧ b ≠ .null ∧ v ≠ .null := by
  cases h <;> simp

theorem joins_iff (ha : a ≠ .null) (hb : b ≠ .null) : add a b = .ok v ↔ Joins a b v := by
  simp [add_eq_ok_iff, ha, hb]

/-- Both bracketings of three values have the same sums. -/
theorem add_assoc_iff (hb : b.OwnKeysDistinct) (hnumbers : numbers [a, b, c] ≤ 1) :
    (∃ s, add a b = .ok s ∧ add s c = .ok v) ↔ ∃ s, add b c = .ok s ∧ add a s = .ok v := by
  by_cases hanull : a = .null
  · subst hanull
    simp [null_add]
  by_cases hbnull : b = .null
  · subst hbnull
    simp [null_add, add_null]
  by_cases hcnull : c = .null
  · subst hcnull
    simp [add_null]
  have hleft : (∃ s, add a b = .ok s ∧ add s c = .ok v) ↔ ∃ s, Joins a b s ∧ Joins s c v := by
    refine exists_congr fun s => ?_
    rw [joins_iff hanull hbnull]
    exact and_congr_right fun h => joins_iff h.ne_null.2.2 hcnull
  have hright : (∃ s, add b c = .ok s ∧ add a s = .ok v) ↔ ∃ s, Joins b c s ∧ Joins a s v := by
    refine exists_congr fun s => ?_
    rw [joins_iff hbnull hcnull]
    exact and_congr_right fun h => joins_iff hanull h.ne_null.2.2
  rw [hleft, hright]
  exact joins_assoc hb hnumbers

/-! ## Sums of arrays -/

theorem bind_eq_ok_iff {α β : Type} {x : Except Fault α} {f : α → Except Fault β} {r : β} :
    (x >>= f) = .ok r ↔ ∃ u, x = .ok u ∧ f u = .ok r := by
  constructor
  · intro h
    cases x with
    | error e => cases h
    | ok u => exact ⟨u, rfl, h⟩
  · rintro ⟨u, rfl, h⟩
    exact h

theorem foldlM_add_cons {w : Value} {vs : List Value} :
    (w :: vs).foldlM add s = .ok v ↔ ∃ u, add s w = .ok u ∧ vs.foldlM add u = .ok v := by
  rw [List.foldlM_cons, bind_eq_ok_iff]

/-- A sum has no more numbers in it than its parts. -/
theorem numbers_foldlM_add_le {vs : List Value} (h : vs.foldlM add s = .ok v) :
    numbers [v] ≤ numbers (s :: vs) := by
  induction vs generalizing s with
  | nil =>
    obtain rfl := Except.ok.inj h
    exact Nat.le_refl _
  | cons w vs ih =>
    obtain ⟨u, hadd, hrest⟩ := foldlM_add_cons.mp h
    have hstep := numbers_add_le hadd
    have hle := ih hrest
    rw [numbers_cons u] at hle
    rw [numbers_cons s] at hstep ⊢
    rw [numbers_cons w]
    omega

/-- Adding items one by one to a value is adding their sum to it. -/
theorem foldlM_add_iff {vs : List Value} (hvs : ∀ w ∈ vs, w.OwnKeysDistinct)
    (hnumbers : numbers (s :: vs) ≤ 1) :
    vs.foldlM add s = .ok v ↔ ∃ t, vs.foldlM add .null = .ok t ∧ add s t = .ok v := by
  induction vs generalizing s v with
  | nil =>
    constructor
    · intro h
      exact ⟨.null, rfl, (add_null s).trans h⟩
    · rintro ⟨t, ht, h⟩
      obtain rfl := Except.ok.inj ht
      exact (add_null s).symm.trans h
  | cons w vs ih =>
    have hw := hvs w List.mem_cons_self
    have hrest : ∀ u ∈ vs, u.OwnKeysDistinct := fun u hu => hvs u (List.mem_cons_of_mem w hu)
    rw [numbers_cons s, numbers_cons w] at hnumbers
    have hhead (u : Value) (hadd : add s w = .ok u) : numbers (u :: vs) ≤ 1 := by
      have hstep := numbers_add_le hadd
      rw [numbers_cons s] at hstep
      rw [numbers_cons u]
      omega
    have htail : numbers (w :: vs) ≤ 1 := by
      rw [numbers_cons w]
      omega
    have hassoc (t : Value) (ht : vs.foldlM add .null = .ok t) : numbers [s, w, t] ≤ 1 := by
      have hle := numbers_foldlM_add_le ht
      rw [numbers_null_cons] at hle
      rw [numbers_cons s, numbers_cons w]
      omega
    calc (w :: vs).foldlM add s = .ok v
      _ ↔ ∃ u, add s w = .ok u ∧ vs.foldlM add u = .ok v := foldlM_add_cons
      _ ↔ ∃ u, add s w = .ok u ∧ ∃ t, vs.foldlM add .null = .ok t ∧ add u t = .ok v :=
        exists_congr fun u => and_congr_right fun hadd => ih hrest (hhead u hadd)
      _ ↔ ∃ t, vs.foldlM add .null = .ok t ∧ ∃ u, add s w = .ok u ∧ add u t = .ok v := by
        constructor
        · rintro ⟨u, hu, t, ht, h⟩
          exact ⟨t, ht, u, hu, h⟩
        · rintro ⟨t, ht, u, hu, h⟩
          exact ⟨u, hu, t, ht, h⟩
      _ ↔ ∃ t, vs.foldlM add .null = .ok t ∧ ∃ u, add w t = .ok u ∧ add s u = .ok v :=
        exists_congr fun t => and_congr_right fun ht => add_assoc_iff hw (hassoc t ht)
      _ ↔ ∃ u, (∃ t, vs.foldlM add .null = .ok t ∧ add w t = .ok u) ∧ add s u = .ok v := by
        constructor
        · rintro ⟨t, ht, u, hu, h⟩
          exact ⟨u, ⟨t, ht, hu⟩, h⟩
        · rintro ⟨u, ⟨t, ht, hu⟩, h⟩
          exact ⟨t, ht, u, hu, h⟩
      _ ↔ ∃ u, (w :: vs).foldlM add .null = .ok u ∧ add s u = .ok v :=
        exists_congr fun u => and_congr_left fun _ => (ih hrest htail).symm

/-- Addition with at most one number is a monoid with `null` as its neutral value: both bracketings
of three values have the same sums, down to the order of keys, and fail together. An array with at
most one number in it is added up to the sum of the sums of its two parts. -/
theorem add_monoid (a b c : Value) (hb : b.DistinctKeys) (habc : numbers [a, b, c] ≤ 1)
    (xs ys : List Value) (hys : ∀ y ∈ ys, y.DistinctKeys) (hxys : numbers (xs ++ ys) ≤ 1) :
    (∀ v, (do let s ← add a b; add s c) = .ok v ↔ (do let s ← add b c; add a s) = .ok v) ∧
    (∀ u, add .null u = .ok u ∧ add u .null = .ok u) ∧
    ∀ v, sum (.array (xs ++ ys)) = .ok v ↔
      (do let s ← sum (.array xs); let t ← sum (.array ys); add s t) = .ok v := by
  refine ⟨fun v => ?_, fun u => ⟨null_add u, add_null u⟩, fun v => ?_⟩
  · rw [bind_eq_ok_iff, bind_eq_ok_iff]
    exact add_assoc_iff hb.own habc
  · show (xs ++ ys).foldlM add .null = .ok v ↔
      (xs.foldlM add .null >>= fun s => ys.foldlM add .null >>= fun t => add s t) = .ok v
    rw [List.foldlM_append, bind_eq_ok_iff, bind_eq_ok_iff]
    refine exists_congr fun s => and_congr_right fun hs => ?_
    have hnumbers : numbers (s :: ys) ≤ 1 := by
      have hle := numbers_foldlM_add_le hs
      rw [numbers_null_cons] at hle
      rw [numbers_append] at hxys
      rw [numbers_cons s]
      omega
    rw [foldlM_add_iff (fun y hy => (hys y hy).own) hnumbers, bind_eq_ok_iff]

/-- Objects that meet at two keys, and an array with one number in it. -/
theorem add_monoid_objects :
    let a : Value := .object [("j", .null)]
    let b : Value := .object [("k", .null), ("j", .bool true)]
    let c : Value := .object [("i", .null), ("k", .bool false)]
    (do let s ← add b c; add a s) =
        .ok (.object [("j", .bool true), ("k", .bool false), ("i", .null)]) ∧
      (do let s ← sum (.array [.null, .number 1]); let t ← sum (.array [.null]); add s t) =
        .ok (.number 1) := by
  intro a b c
  obtain ⟨hassoc, -, hsum⟩ := add_monoid a b c (by decide) (by decide) [.null, .number 1] [.null]
    (by decide) (by decide)
  exact ⟨(hassoc _).mp rfl, (hsum _).mp rfl⟩

end Value

end JsonFilter
