/-!
Fields of an object: pairs of a key and a value in the order in which the keys first came. Setting
a key that is there keeps its place and changes its value.
-/

namespace JsonFilter

/-- Keys with their values, first come first. -/
abbrev Fields (α : Type) := List (String × α)

namespace Fields

variable {α : Type}

def keys (fields : Fields α) : List String := fields.map Prod.fst

def values (fields : Fields α) : List α := fields.map Prod.snd

/-- The value of a key. -/
def get? (key : String) : Fields α → Option α
  | [] => none
  | (k, v) :: rest => if k = key then some v else get? key rest

def contains (fields : Fields α) (key : String) : Bool := (get? key fields).isSome

/-- Sets a key: in its place if it is there, else at the end. -/
def insert (key : String) (value : α) : Fields α → Fields α
  | [] => [(key, value)]
  | (k, v) :: rest => if k = key then (k, value) :: rest else (k, v) :: insert key value rest

/-- The fields without a key. -/
def erase (fields : Fields α) (key : String) : Fields α := fields.filter fun f => f.1 != key

/-- Sets every key of `more`, in order. -/
def insertAll (fields more : Fields α) : Fields α :=
  more.foldl (fun acc f => acc.insert f.1 f.2) fields

/-- The fields in ascending order of their keys. -/
def sorted (fields : Fields α) : Fields α := fields.mergeSort fun a b => decide (a.1 ≤ b.1)

theorem get?_insert (key other : String) (value : α) (fields : Fields α) :
    get? other (insert key value fields) = if key = other then some value else get? other fields := by
  induction fields with
  | nil => simp [insert, get?]
  | cons f rest ih => grind [insert, get?]

theorem get?_erase (key other : String) (fields : Fields α) :
    get? other (fields.erase key) = if key = other then none else get? other fields := by
  induction fields with
  | nil => simp [erase, get?]
  | cons f rest ih => grind [erase, get?]

theorem keys_insert (key : String) (value : α) (fields : Fields α) :
    keys (insert key value fields) = if key ∈ keys fields then keys fields else keys fields ++ [key] := by
  induction fields with
  | nil => simp [insert, keys]
  | cons f rest ih => grind [insert, keys]

/-- A new key is set at the end. -/
theorem insert_of_not_mem {key : String} {value : α} {fields : Fields α} (h : key ∉ keys fields) :
    insert key value fields = fields ++ [(key, value)] := by
  induction fields with
  | nil => rfl
  | cons f fields ih =>
    obtain ⟨k, v⟩ := f
    have hne : k ≠ key := by
      rintro rfl
      exact h List.mem_cons_self
    rw [insert, if_neg hne, ih fun hk => h (List.mem_cons_of_mem k hk)]
    rfl

/-- Setting a key makes no key occur twice. -/
theorem nodup_insert (key : String) (value : α) (fields : Fields α) (h : (keys fields).Nodup) :
    (keys (insert key value fields)).Nodup := by
  rw [keys_insert]
  split
  · exact h
  · rename_i hk
    exact List.nodup_append.2 ⟨h, by simp, by grind⟩

/-- Setting many keys adds the new ones at the end, in the order in which they first come. -/
theorem keys_insertAll (fields more : Fields α) : keys (fields.insertAll more) =
    keys fields ++ ((keys more).filter (· ∉ keys fields)).eraseDups := by
  induction more generalizing fields with
  | nil => exact (List.append_nil _).symm
  | cons f more ih =>
    obtain ⟨k, v⟩ := f
    show keys ((fields.insert k v).insertAll more) = _
    rw [ih, keys_insert]
    show _ = keys fields ++ ((k :: keys more).filter (· ∉ keys fields)).eraseDups
    by_cases hk : k ∈ keys fields
    · rw [if_pos hk, List.filter_cons_of_neg (by simpa using hk)]
    · rw [if_neg hk, List.filter_cons_of_pos (by simpa using hk), List.eraseDups_cons,
        List.filter_filter, List.append_assoc, List.singleton_append]
      congr 3
      refine List.filter_congr fun other _ => ?_
      rw [Bool.eq_iff_iff]
      simp [and_comm]

/-- Of many values for a key, the last one stays. -/
theorem get?_insertAll (key : String) (fields more : Fields α) :
    get? key (fields.insertAll more) = (more.reverse.lookup key).or (get? key fields) := by
  induction more generalizing fields with
  | nil => rfl
  | cons f more ih =>
    obtain ⟨k, v⟩ := f
    show get? key ((fields.insert k v).insertAll more) = _
    rw [ih, get?_insert, List.reverse_cons, List.lookup_append, Option.or_assoc]
    congr 1
    rw [List.lookup_cons, List.lookup_nil]
    by_cases hk : k = key
    · simp [hk]
    · simp [hk, beq_eq_false_iff_ne.mpr (Ne.symm hk)]

end Fields

end JsonFilter
