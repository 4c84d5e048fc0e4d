import JsonFilter.Number.Layout
import JsonFilter.Proofs.SortKeys
import JsonFilter.Text.Escape

/-!
Plain data, the values of the common JSON tools. An integer of 64 bits is kept apart from the other
numbers, and objects keep their fields in ascending order of the keys. A datum is what a text says
or a value holds, field by field; plain data are the data whose objects are in order.
-/

namespace JsonFilter

namespace Fields

variable {α : Type}

/-- Sets a key where it stands in ascending order; the value that was there is replaced. -/
def place (key : String) (value : α) : Fields α → Fields α
  | [] => [(key, value)]
  | (k, v) :: rest =>
    if key < k then (key, value) :: (k, v) :: rest
    else if key = k then (key, value) :: rest
    else (k, v) :: place key value rest

/-- Sets every key in order, each where it stands. -/
def placeAll (fields : Fields α) : Fields α := fields.foldl (fun acc f => acc.place f.1 f.2) []

/-- The keys ascend, so none occurs twice. -/
def Ascending (fields : Fields α) : Prop := (keys fields).Pairwise (· < ·)

theorem Ascending.nodup {fields : Fields α} (h : Ascending fields) : (keys fields).Nodup :=
  h.imp String.ne_of_lt

theorem get?_place (key other : String) (value : α) (fields : Fields α) :
    get? other (place key value fields) = if key = other then some value else get? other fields := by
  induction fields with
  | nil => rfl
  | cons f rest ih =>
    obtain ⟨k, v⟩ := f
    rw [place]
    split
    · rfl
    · split
      · next heq =>
        rw [get?, get?, heq]
        split
        · rfl
        · rfl
      · next hne =>
        rw [get?, get?, ih]
        split
        · next hk => rw [if_neg (fun heq => hne (heq.trans hk.symm))]
        · rfl

theorem mem_place {f : String × α} {key : String} {value : α} {fields : Fields α}
    (h : f ∈ place key value fields) : f = (key, value) ∨ f ∈ fields := by
  induction fields with
  | nil => exact .inl (List.mem_singleton.mp h)
  | cons g rest ih =>
    obtain ⟨k, v⟩ := g
    rw [place] at h
    split at h
    · exact List.mem_cons.mp h
    · split at h
      · exact (List.mem_cons.mp h).imp id (List.mem_cons_of_mem _)
      · rcases List.mem_cons.mp h with rfl | h
        · exact .inr List.mem_cons_self
        · exact (ih h).imp id (List.mem_cons_of_mem _)

theorem mem_keys_place {other key : String} {value : α} {fields : Fields α}
    (h : other ∈ keys (place key value fields)) : other = key ∨ other ∈ keys fields := by
  obtain ⟨f, hf, rfl⟩ := List.mem_map.mp h
  exact (mem_place hf).imp (congrArg Prod.fst) (List.mem_map_of_mem)

theorem Ascending.place {fields : Fields α} (h : Ascending fields) (key : String) (value : α) :
    Ascending (place key value fields) := by
  induction fields with
  | nil => exact List.pairwise_singleton _ _
  | cons f rest ih =>
    obtain ⟨k, v⟩ := f
    obtain ⟨hk, hrest⟩ := List.pairwise_cons.mp h
    rw [Fields.place]
    split
    · next hlt =>
      refine List.pairwise_cons.mpr ⟨fun other hother => ?_, h⟩
      rcases List.mem_cons.mp hother with rfl | hother
      · exact hlt
      · exact String.lt_trans hlt (hk other hother)
    · next hge =>
      split
      · next heq => exact List.pairwise_cons.mpr ⟨heq ▸ hk, hrest⟩
      · next hne =>
        refine List.pairwise_cons.mpr ⟨fun other hother => ?_, ih hrest⟩
        rcases mem_keys_place hother with rfl | hother
        · exact Std.lt_of_le_of_ne (String.not_lt.mp hge) (Ne.symm hne)
        · exact hk other hother

theorem ascending_placeAll (fields : Fields α) : Ascending (placeAll fields) := by
  have key (more acc : Fields α) (h : Ascending acc) :
      Ascending (more.foldl (fun acc f => acc.place f.1 f.2) acc) := by
    induction more generalizing acc with
    | nil => exact h
    | cons f more ih => exact ih _ (h.place f.1 f.2)
  exact key fields [] List.Pairwise.nil

theorem mem_placeAll {f : String × α} {fields : Fields α} (h : f ∈ placeAll fields) : f ∈ fields := by
  have key (more acc : Fields α) (h : f ∈ more.foldl (fun acc f => acc.place f.1 f.2) acc) :
      f ∈ acc ∨ f ∈ more := by
    induction more generalizing acc with
    | nil => exact .inl h
    | cons g more ih =>
      rcases ih _ h with h | h
      · exact (mem_place h).elim (fun h => .inr (h ▸ List.mem_cons_self)) .inl
      · exact .inr (List.mem_cons_of_mem g h)
  exact (key fields [] h).resolve_left List.not_mem_nil

end Fields

namespace Json

/-- A number in a text: an integer of 64 bits, signed only if it is negative, or a finite number. -/
inductive Figure where
  | natural (n : Nat) (h : n < Nat.pow 2 64)
  | negative (n : Int) (low : Number.minInt ≤ n) (h : n < 0)
  | float (x : Number) (h : x.isFinite)

namespace Figure

/-- An integer of 64 bits with a sign. -/
def ofInt (n : Int) (low : Number.minInt ≤ n) (high : n ≤ Number.maxInt) : Figure :=
  if h : n < 0 then .negative n low h
  else .natural n.toNat (by
    have hmax : Number.maxInt = Nat.pow 2 63 - 1 := rfl
    have hpow : Nat.pow 2 64 = 2 * Nat.pow 2 63 := rfl
    omega)

/-- The number nearest to it. -/
def toNumber : Figure → Number
  | .natural n _ => .ofNat n
  | .negative n _ _ => .ofInt n
  | .float x _ => x

/-- An integer by its digits, and another number by its shortest decimal, which has a fraction or a
power of ten. -/
def text : Figure → String
  | .natural n _ => toString (n : Int)
  | .negative n _ _ => toString n
  | .float x _ =>
    match x.dyadic? with
    | some d =>
      (if d.negative then "-" else "") ++ Number.Layout.json.decimal
        ((Decimal.Interval.ofBinary d.mantissa d.exponent).shortest Number.Layout.json.tie)
    | none => "null"

end Figure

/-- What stands in a text or is held by a value, with every field of an object in its place. -/
inductive Datum where
  | null
  | bool (b : Bool)
  | number (n : Figure)
  | string (s : String)
  | array (items : List Datum)
  | object (fields : List (String × Datum))

namespace Datum

mutual

/-- The value of a datum. Of several values for a key, the last one stays where the first came. -/
def toValue : Datum → Value
  | .null => .null
  | .bool b => .bool b
  | .number n => .number n.toNumber
  | .string s => .string s
  | .array items => .array (toValues items)
  | .object fields => .object (Fields.insertAll [] (toFields fields))

/-- `toValue` on every item. -/
def toValues : List Datum → List Value
  | [] => []
  | d :: ds => d.toValue :: toValues ds

/-- `toValue` on the value of every field. -/
def toFields : List (String × Datum) → List (String × Value)
  | [] => []
  | (k, d) :: fs => (k, d.toValue) :: toFields fs

end

mutual

/-- The datum with the fields of every object in ascending order, where the last one of a key
replaces those before. -/
def arrange : Datum → Datum
  | .null => .null
  | .bool b => .bool b
  | .number n => .number n
  | .string s => .string s
  | .array items => .array (arrangeList items)
  | .object fields => .object (Fields.placeAll (arrangeFields fields))

/-- `arrange` on every item. -/
def arrangeList : List Datum → List Datum
  | [] => []
  | d :: ds => d.arrange :: arrangeList ds

/-- `arrange` on the value of every field. -/
def arrangeFields : List (String × Datum) → List (String × Datum)
  | [] => []
  | (k, d) :: fs => (k, d.arrange) :: arrangeFields fs

end

mutual

/-- The fields of every object ascend. -/
def Ordered : Datum → Prop
  | .array items => OrderedList items
  | .object fields => Fields.Ascending fields ∧ OrderedFields fields
  | _ => True

/-- `Ordered` of every item. -/
def OrderedList : List Datum → Prop
  | [] => True
  | d :: ds => d.Ordered ∧ OrderedList ds

/-- `Ordered` of the value of every field. -/
def OrderedFields : List (String × Datum) → Prop
  | [] => True
  | (_, d) :: fs => d.Ordered ∧ OrderedFields fs

end

mutual

/-- The text of a datum on one line. -/
def chars : Datum → List Char
  | .null => "null".toList
  | .bool true => "true".toList
  | .bool false => "false".toList
  | .number n => n.text.toList
  | .string s => Text.escaped s
  | .array [] => ['[', ']']
  | .array (d :: ds) => '[' :: (chars d ++ itemChars ds ++ [']'])
  | .object [] => ['\x7b', '\x7d']
  | .object ((k, d) :: fs) =>
    '\x7b' :: (Text.escaped k ++ ':' :: chars d ++ fieldChars fs ++ ['\x7d'])

/-- The items after the first, each after its comma. -/
def itemChars : List Datum → List Char
  | [] => []
  | d :: ds => ',' :: (chars d ++ itemChars ds)

/-- The fields after the first, each after its comma. -/
def fieldChars : List (String × Datum) → List Char
  | [] => []
  | (k, d) :: fs => ',' :: (Text.escaped k ++ ':' :: chars d ++ fieldChars fs)

end

theorem toValues_eq_map (ds : List Datum) : toValues ds = ds.map toValue := by
  induction ds with
  | nil => rfl
  | cons d ds ih => rw [toValues, ih, List.map_cons]

theorem toFields_eq_map (fs : List (String × Datum)) :
    toFields fs = fs.map fun f => (f.1, f.2.toValue) := by
  induction fs with
  | nil => rfl
  | cons f fs ih => rw [toFields, ih, List.map_cons]

theorem orderedFields_iff {fs : List (String × Datum)} :
    OrderedFields fs ↔ ∀ f ∈ fs, f.2.Ordered := by
  induction fs with
  | nil => simp [OrderedFields]
  | cons f fs ih => simp [OrderedFields, ih]

mutual

theorem arrange_ordered : ∀ d : Datum, d.arrange.Ordered
  | .null => trivial
  | .bool _ => trivial
  | .number _ => trivial
  | .string _ => trivial
  | .array items => arrangeList_ordered items
  | .object fields =>
    ⟨Fields.ascending_placeAll _, orderedFields_iff.mpr fun f hf =>
      orderedFields_iff.mp (arrangeFields_ordered fields) f (Fields.mem_placeAll hf)⟩

theorem arrangeList_ordered : ∀ ds : List Datum, OrderedList (arrangeList ds)
  | [] => trivial
  | d :: ds => ⟨arrange_ordered d, arrangeList_ordered ds⟩

theorem arrangeFields_ordered : ∀ fs : List (String × Datum), OrderedFields (arrangeFields fs)
  | [] => trivial
  | (_, d) :: fs => ⟨arrange_ordered d, arrangeFields_ordered fs⟩

end

end Datum

end Json

open Json (Datum)

theorem Number.toInt_bounds (x : Number) : minInt ≤ x.toInt ∧ x.toInt ≤ maxInt := by
  have hle : minInt ≤ maxInt := by decide
  unfold toInt
  split
  · decide
  · exact ⟨Int.le_refl _, hle⟩
  · exact ⟨hle, Int.le_refl _⟩
  · omega

/-- A number of the language as a datum: a safe integer as an integer, another finite number as it is,
and `null` for what is not finite. -/
def Number.datum (n : Number) : Datum :=
  if n.isSafeInt then .number (.ofInt n.toInt n.toInt_bounds.1 n.toInt_bounds.2)
  else if h : n.isFinite then .number (.float n h)
  else .null

namespace Value

mutual

/-- What a value holds. -/
def datum : Value → Datum
  | .null => .null
  | .bool b => .bool b
  | .number n => n.datum
  | .string s => .string s
  | .array items => .array (datumList items)
  | .object fields => .object (datumFields fields)

/-- `datum` of every item. -/
def datumList : List Value → List Datum
  | [] => []
  | v :: vs => v.datum :: datumList vs

/-- `datum` of the value of every field. -/
def datumFields : List (String × Value) → List (String × Datum)
  | [] => []
  | (k, v) :: fs => (k, v.datum) :: datumFields fs

end

end Value

/-- Plain data: a datum whose objects are in order. -/
structure Plain where
  datum : Datum
  ordered : datum.Ordered

namespace Plain

/-- The plain data of a datum. -/
def ofDatum (d : Datum) : Plain := ⟨d.arrange, d.arrange_ordered⟩

/-- A value as plain data. -/
def ofValue (v : Value) : Plain := ofDatum v.datum

/-- Plain data as a value. -/
def toValue (p : Plain) : Value := p.datum.toValue

/-- The text of plain data on one line. -/
def text (p : Plain) : String := String.ofList p.datum.chars

end Plain

end JsonFilter
