import JsonFilter.Proofs.Json.Decoding
import JsonFilter.Proofs.Number.Exact
import JsonFilter.Proofs.Order.Equality

/-!
JSON text with sorted keys as a canonical form. Equal values have the same text, since a finite
number is written by its value alone; and the text is read back as a value equal to the one that was
written, so values with the same text are equal.
-/

namespace JsonFilter

namespace Number

variable {x y : Number}

theorem json_of_toRat?_zero (h : x.toRat? = some 0) : x.json = "0" := by
  obtain ⟨d, hd, hvalue⟩ := Option.map_eq_some_iff.mp h
  rcases Nat.eq_zero_or_pos d.mantissa with hm | hm
  · exact json_of_zero hd hm
  · obtain ⟨hc, -⟩ := unpack_of_dyadic? hd hm
    rw [← value_of_sign] at hvalue
    exact absurd hvalue (Binary.value_ne_zero hc)

/-- Equal finite numbers are written alike. -/
theorem json_eq_of_beq (hx : x.isFinite = true) (hy : y.isFinite = true) (h : (x == y) = true) :
    x.json = y.json := by
  obtain ⟨p, hp⟩ := exists_toRat? hx
  obtain ⟨q, hq⟩ := exists_toRat? hy
  obtain rfl := (beq_iff hp hq).mp h
  by_cases hzero : p = 0
  · subst hzero
    rw [json_of_toRat?_zero hp, json_of_toRat?_zero hq]
  · rw [eq_of_toRat? hp hq hzero]

end Number

namespace Value

open Json

theorem DistinctKeys.of_allDecodable {v : Value} (h : AllDecodable v.walk) : v.DistinctKeys := by
  intro w hw
  have hw := h w hw
  cases w with
  | object fields => exact hw
  | _ => exact List.nodup_nil

theorem hasNaN_of_allDecodable {v : Value} (h : AllDecodable v.walk) : v.hasNaN = false := by
  refine List.any_eq_false.mpr fun w hw => ?_
  have hw := h w hw
  cases w with
  | number n =>
    obtain ⟨p, hp⟩ := Number.exists_toRat? hw
    exact ne_true_of_eq_false (Number.isNaN_of_toRat? hp)
  | _ => exact Bool.false_ne_true

/-! ## From equal values to equal texts -/

mutual

/-- Equal values with sorted keys have the same text. -/
theorem chars_eq_of_beqSorted (indent : Nat) : ∀ (a b : Value) (level : Nat), AllDecodable a.walk →
    AllDecodable b.walk → beqSorted a b = true → chars indent level a = chars indent level b
  | .null, b, level, ha, hb, h => by
    cases b with
    | null => rfl
    | _ => cases h
  | .bool c, b, level, ha, hb, h => by
    cases b with
    | bool d => rw [eq_of_beq (show (c == d) = true from h)]
    | _ => cases h
  | .number m, b, level, ha, hb, h => by
    cases b with
    | number n => exact congrArg String.toList (Number.json_eq_of_beq ha.self hb.self h)
    | _ => cases h
  | .string s, b, level, ha, hb, h => by
    cases b with
    | string t => rw [eq_of_beq (show (s == t) = true from h)]
    | _ => cases h
  | .array [], b, level, ha, hb, h => by
    cases b with
    | array bs =>
      cases bs with
      | nil => rfl
      | cons w ws => cases h
    | _ => cases h
  | .array (v :: vs), b, level, ha, hb, h => by
    cases b with
    | array bs =>
      cases bs with
      | nil => cases h
      | cons w ws =>
        obtain ⟨hv, hvs⟩ := Bool.and_eq_true_iff.mp h
        obtain ⟨hav, havs⟩ := ha.tail.split
        obtain ⟨hbw, hbws⟩ := hb.tail.split
        rw [chars, chars, chars_eq_of_beqSorted indent v w (level + 1) hav hbw hv,
          itemChars_eq_of_beqSorted indent vs ws (level + 1) havs hbws hvs]
    | _ => cases h
  | .object [], b, level, ha, hb, h => by
    cases b with
    | object bs =>
      cases bs with
      | nil => rfl
      | cons g gs => cases h
    | _ => cases h
  | .object ((j, v) :: fs), b, level, ha, hb, h => by
    cases b with
    | object bs =>
      cases bs with
      | nil => cases h
      | cons g gs =>
        obtain ⟨k, w⟩ := g
        obtain ⟨hhead, hfs⟩ := Bool.and_eq_true_iff.mp h
        obtain ⟨hkey, hv⟩ := Bool.and_eq_true_iff.mp hhead
        obtain rfl := eq_of_beq hkey
        obtain ⟨hav, hafs⟩ := ha.tail.split
        obtain ⟨hbw, hbgs⟩ := hb.tail.split
        rw [chars, chars, chars_eq_of_beqSorted indent v w (level + 1) hav hbw hv,
          fieldChars_eq_of_beqSorted indent fs gs (level + 1) hafs hbgs hfs]
    | _ => cases h

theorem itemChars_eq_of_beqSorted (indent : Nat) : ∀ (as bs : List Value) (level : Nat),
    AllDecodable (walkList as) → AllDecodable (walkList bs) → beqSortedList as bs = true →
    itemChars indent level as = itemChars indent level bs
  | [], [], _, _, _, _ => rfl
  | [], _ :: _, _, _, _, h => by cases h
  | _ :: _, [], _, _, _, h => by cases h
  | a :: as, b :: bs, level, ha, hb, h => by
    rw [beqSortedList, Bool.and_eq_true] at h
    rw [itemChars, itemChars, chars_eq_of_beqSorted indent a b level ha.split.1 hb.split.1 h.1,
      itemChars_eq_of_beqSorted indent as bs level ha.split.2 hb.split.2 h.2]

theorem fieldChars_eq_of_beqSorted (indent : Nat) : ∀ (as bs : List (String × Value)) (level : Nat),
    AllDecodable (walkFields as) → AllDecodable (walkFields bs) → beqSortedFields as bs = true →
    fieldChars indent level as = fieldChars indent level bs
  | [], [], _, _, _, _ => rfl
  | [], _ :: _, _, _, _, h => by cases h
  | _ :: _, [], _, _, _, h => by cases h
  | (j, a) :: as, (k, b) :: bs, level, ha, hb, h => by
    rw [beqSortedFields, Bool.and_eq_true, Bool.and_eq_true, beq_iff_eq] at h
    obtain ⟨⟨rfl, hhead⟩, htail⟩ := h
    rw [fieldChars, fieldChars,
      chars_eq_of_beqSorted indent a b level ha.split.1 hb.split.1 hhead,
      fieldChars_eq_of_beqSorted indent as bs level ha.split.2 hb.split.2 htail]

end

/-! ## From equal texts to equal values -/

/-- Values with the same text are read back as the same value. -/
theorem reread_eq_of_chars_eq {indent : Nat} {a b : Value} (ha : AllDecodable a.walk)
    (hb : AllDecodable b.walk) (h : chars indent 0 a = chars indent 0 b) : a.reread = b.reread := by
  have hread (v : Value) (hv : AllDecodable v.walk)
      (hnesting : v.nesting ≤ max a.nesting b.nesting) :
      Takes (readValue (max a.nesting b.nesting + 1) (chars indent 0 v)) v.reread [] := by
    obtain ⟨c, cs, hskip, hchars, -⟩ := skipBlanks_chars indent 0 hv.self []
    rw [hchars, List.append_nil] at hskip
    refine readable indent v 0 _ hv (by omega) _ [] Token.ends_nil ?_
    rw [hskip, List.append_nil]
  have hreadA := hread a ha (le_max_left _ _)
  rw [h] at hreadA
  obtain ⟨_, hreadA⟩ := hreadA
  obtain ⟨_, hreadB⟩ := hread b hb (le_max_right _ _)
  exact congrArg Front.value (Except.ok.inj (hreadA.symm.trans hreadB))

/-! ## Both -/

/-- Sorting keys makes no difference to the order. -/
theorem cmp_sortKeys_left (a b : Value) : cmp a.sortKeys b = cmp a b := by
  rw [cmp, cmp, sortKeys_sortKeys]

/-- Sorting keys leaves a value equal to what it was, unless there is a NaN in it. -/
theorem sortKeys_beq_iff (v : Value) : (v.sortKeys == v) = true ↔ v.hasNaN = false := by
  rw [beq_iff, cmp_sortKeys_left, hasNaN_sortKeys]
  exact and_iff_right Std.ReflCmp.compare_self

section
variable {a b : Value} (ha : AllDecodable a.walk) (hb : AllDecodable b.walk)
include ha hb

/-- Without a NaN in them, values are equal where they are alike. -/
theorem beq_iff_alike : (a == b) = true ↔ Alike a b := by
  rw [beq_iff, and_iff_left (hasNaN_of_allDecodable ha)]
  exact cmp_eq_iff_alike a b (.of_allDecodable ha) (.of_allDecodable hb)

theorem text_eq_of_beq (style : Style) (hsort : style.sortKeys = true) (h : (a == b) = true) :
    a.text style = b.text style := by
  rw [text, text, if_pos hsort, if_pos hsort]
  exact congrArg String.ofList (chars_eq_of_beqSorted style.indent a.sortKeys b.sortKeys 0
    ha.sortKeys hb.sortKeys h)

theorem beq_of_text_eq (style : Style) (h : a.text style = b.text style) : (a == b) = true := by
  have hchars := congrArg String.toList h
  rw [toList_text, toList_text] at hchars
  have hreread := reread_eq_of_chars_eq (ha.styled style) (hb.styled style) hchars
  have hbeqA := (beq_iff _ _).mp (reread_styled_beq style ha.regular)
  have hbeqB := (beq_iff _ _).mp (reread_styled_beq style hb.regular)
  rw [hreread] at hbeqA
  have hcmp : cmp a b = .eq :=
    Std.TransCmp.eq_trans (Std.OrientedCmp.eq_symm hbeqA.1) hbeqB.1
  exact (beq_iff a b).mpr ⟨hcmp, hasNaN_of_allDecodable ha⟩

end

/-- JSON text with sorted keys is a canonical form of values whose numbers are finite: values have
the same text exactly where they are equal, which is where they are alike up to the order of keys.
Sorting keys changes neither the value nor a value whose keys are sorted. -/
theorem text_eq_iff_beq (a b : Value) (ha : AllDecodable a.walk) (hb : AllDecodable b.walk) :
    ((a == b) = true ↔ a.text ⟨0, true⟩ = b.text ⟨0, true⟩) ∧ ((a == b) = true ↔ Alike a b) ∧
      (a.sortKeys == a) = true ∧ a.sortKeys.sortKeys = a.sortKeys :=
  ⟨⟨text_eq_of_beq ha hb _ rfl, beq_of_text_eq ha hb _⟩, beq_iff_alike ha hb,
    (sortKeys_beq_iff a).mpr (hasNaN_of_allDecodable ha), sortKeys_sortKeys a⟩

/-- Objects inside an array with their keys in different orders, and zeros of both signs. -/
theorem text_eq_iff_beq_nested :
    let a : Value := .array [.object [("b", .null), ("a", .number (.ofBits 0))]]
    let b : Value := .array [.object [("a", .number (.ofBits 0x8000000000000000)), ("b", .null)]]
    a.text ⟨0, true⟩ = b.text ⟨0, true⟩ ∧ Alike a b ∧ (a.sortKeys == a) = true := by
  intro a b
  have ha : ∀ w ∈ a.walk, w.Decodable := by decide +kernel
  have hb : ∀ w ∈ b.walk, w.Decodable := by decide +kernel
  have hbeq : (a == b) = true := by cbv
  obtain ⟨htext, halike, hsorted, -⟩ := text_eq_iff_beq a b ha hb
  exact ⟨htext.mp hbeq, halike.mp hbeq, hsorted⟩

end Value

end JsonFilter
