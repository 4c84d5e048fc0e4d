import JsonFilter.Proofs.Order.Number
import JsonFilter.Proofs.SortKeys

/-!
The order of values is a total preorder. A value is written as a list of marks, no writing a
beginning of another one, and two values are compared as their writings are; the lists of marks
are ordered lexicographically, mark by mark. What the order does not tell apart are the values that
are alike: the same up to the order of keys, the sign of zeros and the NaN, which is alike itself.
-/

namespace JsonFilter.Value

/-! ## Writing values -/

/-- A mark of a writing: which kind of value stands here, or whether another item or key follows,
with the number, string or key itself. -/
structure Mark where
  rank : Nat
  number : Number := 0
  text : String := ""

namespace Mark

/-- Marks are compared by rank, number and text. -/
def cmp : Mark → Mark → Ordering :=
  compareLex (compareOn rank) (compareLex (compareOn number) (compareOn text))

instance : Ord Mark := ⟨cmp⟩

instance : Std.TransOrd Mark :=
  inferInstanceAs (Std.TransCmp
    (compareLex (compareOn rank) (compareLex (compareOn number) (compareOn text))))

/-- The mark after the last item or key. -/
def last : Mark := { rank := 0 }

/-- The mark before an item or a key. -/
def next (key : String) : Mark := { rank := 1, text := key }

variable {m n : Mark}

theorem compare_of_rank_ne (h : m.rank ≠ n.rank) (s t : List Mark) :
    compare (m :: s) (n :: t) = compare m.rank n.rank := by
  have hne : compare m.rank n.rank ≠ .eq := fun he => h (Nat.compare_eq_eq.mp he)
  rw [List.compare_cons_cons]
  show ((compare m.rank n.rank).then _).then _ = _
  cases hc : compare m.rank n.rank <;> first | rfl | contradiction

theorem compare_same (m : Mark) (s t : List Mark) : compare (m :: s) (m :: t) = compare s t := by
  rw [List.compare_cons_cons, Std.compare_self, Ordering.eq_then]

theorem compare_number (r : Nat) (x y : Number) (s t : List Mark) :
    compare ({ rank := r, number := x } :: s) ({ rank := r, number := y } :: t)
      = (x.cmp y).then (compare s t) := by
  rw [List.compare_cons_cons]
  show ((compare r r).then ((x.cmp y).then (compare "" ""))).then _ = _
  rw [Std.compare_self, Std.compare_self, Ordering.eq_then, Ordering.then_eq]

theorem compare_text (r : Nat) (a b : String) (s t : List Mark) :
    compare ({ rank := r, text := a } :: s) ({ rank := r, text := b } :: t)
      = (compare a b).then (compare s t) := by
  rw [List.compare_cons_cons]
  show ((compare r r).then ((compare (0 : Number) 0).then (compare a b))).then _ = _
  rw [Std.compare_self, Std.compare_self, Ordering.eq_then, Ordering.eq_then]

end Mark

/-- The writing of a list of keys. -/
def marksKeys : List String → List Mark
  | [] => [.last]
  | k :: ks => .next k :: marksKeys ks

mutual

/-- The writing of a value: its kind before its parts, the keys of an object before its values. -/
def marks : Value → List Mark
  | .null => [{ rank := rank .null }]
  | .bool b => [{ rank := rank (.bool b) }]
  | .number n => [{ rank := 3, number := n }]
  | .string s => [{ rank := 4, text := s }]
  | .array items => { rank := 5 } :: marksList items
  | .object fields => { rank := 6 } :: (marksKeys (Fields.keys fields) ++ marksFields fields)

def marksList : List Value → List Mark
  | [] => [.last]
  | v :: vs => .next "" :: (v.marks ++ marksList vs)

def marksFields : List (String × Value) → List Mark
  | [] => []
  | (_, v) :: fs => v.marks ++ marksFields fs

end

/-- A writing begins with a mark of the value's kind. -/
theorem marks_eq_cons (v : Value) : ∃ m rest, v.marks = m :: rest ∧ m.rank = v.rank := by
  cases v with
  | null => exact ⟨_, [], rfl, rfl⟩
  | bool b => exact ⟨_, [], rfl, rfl⟩
  | number n => exact ⟨_, [], rfl, rfl⟩
  | string s => exact ⟨_, [], rfl, rfl⟩
  | array items => exact ⟨_, _, rfl, rfl⟩
  | object fields => exact ⟨_, _, rfl, rfl⟩

/-! ## The order of values is the order of their writings -/

theorem rank_bool (b : Bool) : (Value.bool b).rank = if b then 2 else 1 := by cases b <;> rfl

theorem cmpSorted_of_rank_ne {a b : Value} (h : a.rank ≠ b.rank) :
    cmpSorted a b = compare a.rank b.rank := by
  unfold cmpSorted
  split <;> first | contradiction | rfl

theorem compare_marks_of_rank_ne {a b : Value} (h : a.rank ≠ b.rank) (s t : List Mark) :
    compare (a.marks ++ s) (b.marks ++ t) = (cmpSorted a b).then (compare s t) := by
  obtain ⟨m, as, ha, hm⟩ := a.marks_eq_cons
  obtain ⟨n, bs, hb, hn⟩ := b.marks_eq_cons
  have hne : compare a.rank b.rank ≠ .eq := fun he => h (Nat.compare_eq_eq.mp he)
  rw [ha, hb, List.cons_append, List.cons_append, Mark.compare_of_rank_ne (by rwa [hm, hn]), hm, hn,
    cmpSorted_of_rank_ne h]
  cases hc : compare a.rank b.rank <;> first | rfl | contradiction

theorem compare_marksKeys (as bs : List String) (s t : List Mark) :
    compare (marksKeys as ++ s) (marksKeys bs ++ t) = (cmpKeys as bs).then (compare s t) := by
  induction as generalizing bs with
  | nil =>
    cases bs with
    | nil => exact Mark.compare_same _ _ _
    | cons b bs => exact Mark.compare_of_rank_ne Nat.zero_ne_one _ _
  | cons a as ih =>
    cases bs with
    | nil => exact Mark.compare_of_rank_ne Nat.one_ne_zero _ _
    | cons b bs =>
      rw [marksKeys, marksKeys, List.cons_append, List.cons_append, Mark.next, Mark.next,
        Mark.compare_text, ih, cmpKeys, Ordering.then_assoc]

theorem cmpKeys_eq_iff {as bs : List String} : cmpKeys as bs = .eq ↔ as = bs := by
  induction as generalizing bs with
  | nil => cases bs <;> simp [cmpKeys]
  | cons a as ih =>
    cases bs with
    | nil => simp [cmpKeys]
    | cons b bs =>
      rw [cmpKeys, Ordering.then_eq_eq, Std.LawfulEqOrd.compare_eq_iff_eq, ih, List.cons.injEq]

mutual

theorem compare_marks : ∀ (a b : Value) (s t : List Mark),
    compare (a.marks ++ s) (b.marks ++ t) = (cmpSorted a b).then (compare s t)
  | .null, b, s, t => by
    cases b with
    | null => exact Mark.compare_same _ _ _
    | _ => exact compare_marks_of_rank_ne (by grind [rank, rank_bool]) s t
  | .bool a, b, s, t => by
    cases b with
    | bool b =>
      cases a <;> cases b <;>
        first | exact Mark.compare_same _ _ _ | exact compare_marks_of_rank_ne (by decide) s t
    | _ => exact compare_marks_of_rank_ne (by grind [rank, rank_bool]) s t
  | .number x, b, s, t => by
    cases b with
    | number y => exact Mark.compare_number 3 x y s t
    | _ => exact compare_marks_of_rank_ne (by grind [rank, rank_bool]) s t
  | .string x, b, s, t => by
    cases b with
    | string y => exact Mark.compare_text 4 x y s t
    | _ => exact compare_marks_of_rank_ne (by grind [rank, rank_bool]) s t
  | .array as, b, s, t => by
    cases b with
    | array bs => exact (Mark.compare_same _ _ _).trans (compare_marksList as bs s t)
    | _ => exact compare_marks_of_rank_ne (by grind [rank, rank_bool]) s t
  | .object as, b, s, t => by
    cases b with
    | object bs =>
      rw [marks, marks, List.cons_append, List.cons_append, Mark.compare_same, List.append_assoc,
        List.append_assoc, compare_marksKeys, cmpSorted, Ordering.then_assoc]
      -- the values are reached only where the keys agree
      cases hk : cmpKeys (Fields.keys as) (Fields.keys bs) with
      | eq =>
        rw [Ordering.eq_then, Ordering.eq_then, compare_marksFields as bs s t (cmpKeys_eq_iff.mp hk)]
      | lt => rfl
      | gt => rfl
    | _ => exact compare_marks_of_rank_ne (by grind [rank, rank_bool]) s t

theorem compare_marksList : ∀ (as bs : List Value) (s t : List Mark),
    compare (marksList as ++ s) (marksList bs ++ t) = (cmpSortedList as bs).then (compare s t)
  | [], [], _, _ => Mark.compare_same _ _ _
  | [], _ :: _, _, _ => Mark.compare_of_rank_ne (by decide) _ _
  | _ :: _, [], _, _ => Mark.compare_of_rank_ne (by decide) _ _
  | a :: as, b :: bs, s, t => by
    rw [marksList, marksList, List.cons_append, List.cons_append, Mark.compare_same,
      List.append_assoc, List.append_assoc, compare_marks a b, compare_marksList as bs,
      cmpSortedList, Ordering.then_assoc]

theorem compare_marksFields : ∀ (as bs : List (String × Value)) (s t : List Mark),
    Fields.keys as = Fields.keys bs →
    compare (marksFields as ++ s) (marksFields bs ++ t) = (cmpSortedFields as bs).then (compare s t)
  | [], [], _, _, _ => rfl
  | [], _ :: _, _, _, h => nomatch h
  | _ :: _, [], _, _, h => nomatch h
  | (_, a) :: as, (_, b) :: bs, s, t, h => by
    rw [marksFields, marksFields, List.append_assoc, List.append_assoc, compare_marks a b,
      compare_marksFields as bs s t (List.cons.inj h).2, cmpSortedFields, Ordering.then_assoc]

end

/-- Values are compared as the writings of their sorted forms. -/
theorem cmp_eq_marks (a b : Value) : cmp a b = compare a.sortKeys.marks b.sortKeys.marks := by
  have h := compare_marks a.sortKeys b.sortKeys [] []
  rwa [List.append_nil, List.append_nil, List.compare_nil_nil, Ordering.then_eq, eq_comm] at h

/-- The order of values is a total preorder, as the order of writings is. -/
instance : Std.TransCmp cmp where
  eq_swap := by
    intro a b
    rw [cmp_eq_marks, cmp_eq_marks]
    exact Std.OrientedOrd.eq_swap
  isLE_trans := by
    intro a b c hab hbc
    rw [cmp_eq_marks] at hab hbc ⊢
    exact Std.TransOrd.isLE_trans hab hbc

end JsonFilter.Value
