import JsonFilter.Proofs.Number.RoundTrip

/-!
Decoding the JSON text of a value. However the text is laid out, the reader takes from it the parts
of the value in the order in which they were written, and each bracket counts one level of nesting.
-/

namespace JsonFilter.Value

open Json
open Token (Ends)

mutual

/-- How many levels of brackets a value has. -/
def nesting : Value → Nat
  | .array items => nestingList items + 1
  | .object fields => nestingFields fields + 1
  | .null => 0
  | .bool _ => 0
  | .number _ => 0
  | .string _ => 0

/-- The most levels of the items. -/
def nestingList : List Value → Nat
  | [] => 0
  | v :: vs => max v.nesting (nestingList vs)

/-- The most levels of the values of the fields. -/
def nestingFields : List (String × Value) → Nat
  | [] => 0
  | (_, v) :: fs => max v.nesting (nestingFields fs)

end

/-- What is assumed of a part of a value: a number is finite, and an object has no key twice. -/
def Decodable : Value → Prop
  | .number n => n.isFinite
  | .object fields => (Fields.keys fields).Nodup
  | _ => True

instance : DecidablePred Decodable
  | .number n => inferInstanceAs (Decidable (n.isFinite = true))
  | .object fields => inferInstanceAs (Decidable (Fields.keys fields).Nodup)
  | .null => inferInstanceAs (Decidable True)
  | .bool _ => inferInstanceAs (Decidable True)
  | .string _ => inferInstanceAs (Decidable True)
  | .array _ => inferInstanceAs (Decidable True)

theorem Decodable.regular {v : Value} (h : v.Decodable) : v.Regular := by
  cases v with
  | number n => exact Number.readsBack_iff_isFinite.mpr h
  | object fields => exact h
  | _ => trivial

/-! ## Beginnings -/

/-- The text of a value begins with a character that is no white space and closes nothing. -/
theorem chars_head (indent level : Nat) {v : Value} (h : v.Decodable) :
    ∃ c cs, chars indent level v = c :: cs ∧ isBlank c = false ∧ c ≠ ']' := by
  cases v with
  | null => exact ⟨'n', _, rfl, rfl, by decide⟩
  | bool b =>
    cases b with
    | true => exact ⟨'t', _, rfl, rfl, by decide⟩
    | false => exact ⟨'f', _, rfl, rfl, by decide⟩
  | number n =>
    obtain ⟨c, cs, htext, rfl | hc⟩ := Number.head_of_decodes (Number.decodes_of_isFinite h)
    · exact ⟨'-', cs, htext, rfl, by decide⟩
    · have hdigit : ∀ d ∈ Numeral.digits, isBlank d = false ∧ d ≠ ']' :=
        List.all_iff_forall_prop.mp rfl
      obtain ⟨hblank, hne⟩ := hdigit c (Numeral.mem_digits hc)
      exact ⟨c, cs, htext, hblank, hne⟩
  | string s => exact ⟨'"', _, rfl, rfl, by decide⟩
  | array items =>
    cases items with
    | nil => exact ⟨'[', _, rfl, rfl, by decide⟩
    | cons v vs => exact ⟨'[', _, rfl, rfl, by decide⟩
  | object fields =>
    cases fields with
    | nil => exact ⟨'\x7b', _, rfl, rfl, by decide⟩
    | cons f fs => exact ⟨'\x7b', _, rfl, rfl, by decide⟩

/-- Where nothing is skipped, because a value begins there. -/
theorem skipBlanks_chars (indent level : Nat) {v : Value} (h : v.Decodable) (rest : List Char) :
    ∃ c cs, skipBlanks (chars indent level v ++ rest) = c :: cs ∧
      c :: cs = chars indent level v ++ rest ∧ c ≠ ']' := by
  obtain ⟨c, cs, hchars, hblank, hne⟩ := chars_head indent level h
  rw [hchars, List.cons_append, skipBlanks_cons hblank]
  exact ⟨c, cs ++ rest, rfl, rfl, hne⟩

end JsonFilter.Value

namespace JsonFilter.Json

open Token (Ends)

variable {s r t : List Char} {c : Char}

/-! ## Separators -/

theorem readListSeparator_close (h : skipBlanks s = ']' :: r) :
    Takes (readListSeparator s) false r := by
  unfold readListSeparator
  split
  · next heq => cases heq.symm.trans h
  · next heq =>
    obtain ⟨_, rfl⟩ := List.cons.inj (heq.symm.trans h)
    exact ⟨_, rfl⟩
  · next heq => cases heq.symm.trans h
  · next c' _ hclose _ heq =>
    obtain ⟨rfl, _⟩ := List.cons.inj (heq.symm.trans h)
    exact absurd rfl hclose

theorem readListSeparator_more (h : skipBlanks s = ',' :: r) (hr : skipBlanks r = c :: t)
    (hc : c ≠ ']') : Takes (readListSeparator s) true r := by
  unfold readListSeparator
  split
  · next heq => cases heq.symm.trans h
  · next heq => cases heq.symm.trans h
  · next heq =>
    obtain ⟨_, rfl⟩ := List.cons.inj (heq.symm.trans h)
    split
    · next hnil => cases hnil.symm.trans hr
    · next hclose =>
      obtain ⟨rfl, _⟩ := List.cons.inj (hclose.symm.trans hr)
      exact absurd rfl hc
    · exact ⟨_, rfl⟩
  · next hcomma heq =>
    obtain ⟨rfl, _⟩ := List.cons.inj (heq.symm.trans h)
    exact absurd rfl hcomma

theorem readFieldSeparator_close (h : skipBlanks s = '\x7d' :: r) :
    Takes (readFieldSeparator s) false r := by
  unfold readFieldSeparator
  split
  · next heq => cases heq.symm.trans h
  · next heq =>
    obtain ⟨_, rfl⟩ := List.cons.inj (heq.symm.trans h)
    exact ⟨_, rfl⟩
  · next heq => cases heq.symm.trans h
  · next c' _ hclose _ heq =>
    obtain ⟨rfl, _⟩ := List.cons.inj (heq.symm.trans h)
    exact absurd rfl hclose

theorem readFieldSeparator_more (h : skipBlanks s = ',' :: r) (hr : skipBlanks r = '"' :: t) :
    Takes (readFieldSeparator s) true r := by
  unfold readFieldSeparator
  split
  · next heq => cases heq.symm.trans h
  · next heq => cases heq.symm.trans h
  · next heq =>
    obtain ⟨_, rfl⟩ := List.cons.inj (heq.symm.trans h)
    split
    · next hnil => cases hnil.symm.trans hr
    · exact ⟨_, rfl⟩
    · next hclose => cases hclose.symm.trans hr
    · next hquote _ => exact absurd hr (hquote _)
  · next hcomma heq =>
    obtain ⟨rfl, _⟩ := List.cons.inj (heq.symm.trans h)
    exact absurd rfl hcomma

/-- A key is taken with the colon after it. -/
theorem readKey_takes {key : String} {u : List Char} (h : skipBlanks s = '"' :: r)
    (hstring : Takes (readString r) key u) (hcolon : skipBlanks u = ':' :: t) :
    Takes (readKey s) key t := by
  obtain ⟨hshort, hstring⟩ := hstring
  unfold readKey
  split
  · next heq =>
    obtain ⟨_, rfl⟩ := List.cons.inj (heq.symm.trans h)
    split
    · next herror => cases herror.symm.trans hstring
    · next front hok =>
      obtain rfl := Except.ok.inj (hok.symm.trans hstring)
      split
      · next hnil => cases hnil.symm.trans hcolon
      · next hcons =>
        obtain ⟨_, rfl⟩ := List.cons.inj (hcons.symm.trans hcolon)
        exact ⟨_, rfl⟩
      · next hcons => exact (hcons t hcolon).elim
  · next heq => cases heq.symm.trans h
  · next hquote _ => exact absurd h (hquote _)

/-- A key is read back with the colon after it. -/
theorem readKey_escaped {key : String} {indent : Nat}
    (h : skipBlanks s = Text.escaped key ++ (Value.colon indent ++ r)) :
    ∃ u, Takes (readKey s) key u ∧ skipBlanks u = skipBlanks r := by
  have hcolon : ∃ u, skipBlanks (Value.colon indent ++ r) = ':' :: u ∧
      skipBlanks u = skipBlanks r := by
    unfold Value.colon
    split
    · exact ⟨r, rfl, rfl⟩
    · exact ⟨' ' :: r, rfl, rfl⟩
  obtain ⟨u, hu, hrest⟩ := hcolon
  rw [Text.escaped, List.cons_append, List.append_assoc, List.singleton_append] at h
  exact ⟨u, readKey_takes h (readString_escaped key (Value.colon indent ++ r)) hu, hrest⟩

/-! ## Values -/

theorem readValue_null (depth : Nat) (h : skipBlanks s = 'n' :: (['u', 'l', 'l'] ++ r)) :
    Takes (readValue depth s) .null r := by
  obtain ⟨hle, hword⟩ := readWord_append ['u', 'l', 'l'] r
  unfold readValue
  split
  · next heq => cases heq.symm.trans h
  · next heq =>
    obtain ⟨rfl, rfl⟩ := List.cons.inj (heq.symm.trans h)
    simp only [if_true, hword]
    exact ⟨_, rfl⟩

theorem readValue_true (depth : Nat) (h : skipBlanks s = 't' :: (['r', 'u', 'e'] ++ r)) :
    Takes (readValue depth s) (.bool true) r := by
  obtain ⟨hle, hword⟩ := readWord_append ['r', 'u', 'e'] r
  unfold readValue
  split
  · next heq => cases heq.symm.trans h
  · next heq =>
    obtain ⟨rfl, rfl⟩ := List.cons.inj (heq.symm.trans h)
    simp only [if_true, hword]
    exact ⟨_, rfl⟩

theorem readValue_false (depth : Nat) (h : skipBlanks s = 'f' :: (['a', 'l', 's', 'e'] ++ r)) :
    Takes (readValue depth s) (.bool false) r := by
  obtain ⟨hle, hword⟩ := readWord_append ['a', 'l', 's', 'e'] r
  unfold readValue
  split
  · next heq => cases heq.symm.trans h
  · next heq =>
    obtain ⟨rfl, rfl⟩ := List.cons.inj (heq.symm.trans h)
    simp only [if_true, hword]
    exact ⟨_, rfl⟩

theorem readValue_ofNumber (depth : Nat) {x : Number} (h : skipBlanks s = c :: r)
    (hc : c = '-' ∨ c.isDigit) (hread : readNumber (c :: r) = .ok (x, t)) :
    Takes (readValue depth s) (.number x) t := by
  have hword : c ≠ 'n' ∧ c ≠ 't' ∧ c ≠ 'f' := by
    rcases hc with rfl | hc
    · decide
    · have hdigit : ∀ d ∈ Numeral.digits, d ≠ 'n' ∧ d ≠ 't' ∧ d ≠ 'f' :=
        List.all_iff_forall_prop.mp rfl
      exact hdigit c (Numeral.mem_digits hc)
  unfold readValue
  split
  · next heq => cases heq.symm.trans h
  · next heq =>
    obtain ⟨rfl, rfl⟩ := List.cons.inj (heq.symm.trans h)
    simp only [hword.1, hword.2.1, hword.2.2, hc, if_true, if_false]
    split
    · next herror => cases herror.symm.trans hread
    · next hok =>
      obtain ⟨rfl, rfl⟩ := Prod.mk.inj (Except.ok.inj (hok.symm.trans hread))
      exact ⟨_, rfl⟩

theorem readValue_number {n : Number} (depth : Nat) (hn : n.isFinite) (hr : Ends r)
    (h : skipBlanks s = n.json.toList ++ r) : Takes (readValue depth s) (.number n.reread) r := by
  obtain ⟨hread, _⟩ := Number.of_decodes (Number.decodes_of_isFinite hn)
  obtain ⟨c, cs, htext, hc⟩ := Number.head_of_decodes (Number.decodes_of_isFinite hn)
  have htaken : readNumber (c :: (cs ++ r)) = .ok (n.reread, r) := by
    rw [← List.cons_append, ← htext]
    exact readNumber_append hr hread
  rw [htext, List.cons_append] at h
  exact readValue_ofNumber depth h hc htaken

theorem readValue_ofString (depth : Nat) {text : String} (h : skipBlanks s = '"' :: r)
    (hstring : Takes (readString r) text t) : Takes (readValue depth s) (.string text) t := by
  obtain ⟨hshort, hstring⟩ := hstring
  unfold readValue
  split
  · next heq => cases heq.symm.trans h
  · next heq =>
    obtain ⟨rfl, rfl⟩ := List.cons.inj (heq.symm.trans h)
    simp only [hstring]
    exact ⟨_, rfl⟩

theorem readValue_string {text : String} (depth : Nat)
    (h : skipBlanks s = Text.escaped text ++ r) : Takes (readValue depth s) (.string text) r := by
  rw [Text.escaped, List.cons_append, List.append_assoc, List.singleton_append] at h
  exact readValue_ofString depth h (readString_escaped text r)

section
variable {depth : Nat} (hdepth : 1 < depth)
include hdepth

theorem readValue_openBracket (h : skipBlanks s = '[' :: t) : readValue depth s =
    (readEnclosed ']' .endInList (.array [])
      ((readItems (depth - 1) [] t (Front.whole_le t)).map (Front.map .array))).map
        (Front.widen (length_lt_of_skipBlanks h).le) := by
  unfold readValue
  split
  · next heq => cases heq.symm.trans h
  · next _ r heq =>
    obtain ⟨rfl, rfl⟩ := List.cons.inj (heq.symm.trans h)
    rw [if_neg (by decide), if_neg (by decide), if_neg (by decide), if_neg (by decide),
      if_neg (by decide), if_pos rfl, if_neg (Nat.not_le.mpr hdepth)]
    split
    · next hclose => rw [readEnclosed_of_close hclose]; rfl
    · next hend => rw [readEnclosed_of_nil hend]; rfl
    · next hclose hend =>
      rw [readEnclosed_of_inner hclose hend]
      cases (readItems (depth - 1) [] r (Front.whole_le r) : Reading (List Value) r) <;> rfl

theorem readValue_openBrace (h : skipBlanks s = '\x7b' :: t) : readValue depth s =
    (readEnclosed '\x7d' .endInObject (.object [])
      ((readFields (depth - 1) [] t (Front.whole_le t)).map (Front.map .object))).map
        (Front.widen (length_lt_of_skipBlanks h).le) := by
  unfold readValue
  split
  · next heq => cases heq.symm.trans h
  · next _ r heq =>
    obtain ⟨rfl, rfl⟩ := List.cons.inj (heq.symm.trans h)
    rw [if_neg (by decide), if_neg (by decide), if_neg (by decide), if_neg (by decide),
      if_neg (by decide), if_neg (by decide), if_pos rfl, if_neg (Nat.not_le.mpr hdepth)]
    split
    · next hclose => rw [readEnclosed_of_close hclose]; rfl
    · next hend => rw [readEnclosed_of_nil hend]; rfl
    · next hclose hend =>
      rw [readEnclosed_of_inner hclose hend]
      cases (readFields (depth - 1) [] r (Front.whole_le r) : Reading (Fields Value) r) <;> rfl

theorem readValue_emptyArray (h : skipBlanks s = '[' :: t) (ht : skipBlanks t = ']' :: r) :
    Takes (readValue depth s) (.array []) r := by
  rw [readValue_openBracket hdepth h, readEnclosed_of_close ht]
  exact ⟨_, rfl⟩

theorem readValue_array {items : List Value} {u : List Char} (h : skipBlanks s = '[' :: t)
    (ht : skipBlanks t = c :: u) (hc : c ≠ ']')
    (hitems : Takes (readItems (depth - 1) [] t (Front.whole_le _)) items r) :
    Takes (readValue depth s) (.array items) r := by
  obtain ⟨hshort, hitems⟩ := hitems
  rw [readValue_openBracket hdepth h, readEnclosed_of_cons ht hc, hitems]
  exact ⟨_, rfl⟩

theorem readValue_emptyObject (h : skipBlanks s = '\x7b' :: t) (ht : skipBlanks t = '\x7d' :: r) :
    Takes (readValue depth s) (.object []) r := by
  rw [readValue_openBrace hdepth h, readEnclosed_of_close ht]
  exact ⟨_, rfl⟩

theorem readValue_object {fields : Fields Value} {u : List Char} (h : skipBlanks s = '\x7b' :: t)
    (ht : skipBlanks t = c :: u) (hc : c ≠ '\x7d')
    (hfields : Takes (readFields (depth - 1) [] t (Front.whole_le _)) fields r) :
    Takes (readValue depth s) (.object fields) r := by
  obtain ⟨hshort, hfields⟩ := hfields
  rw [readValue_openBrace hdepth h, readEnclosed_of_cons ht hc, hfields]
  exact ⟨_, rfl⟩

end

/-! ## Items and fields -/

section
variable {whole : List Char} {depth : Nat} {v : Value}

theorem readItems_last {taken : List Value} (hle : s.length ≤ whole.length)
    (hv : Takes (readValue depth s) v t) (ht : skipBlanks t = ']' :: r) :
    Takes (readItems depth taken s hle : Reading (List Value) whole) (taken.reverse ++ [v]) r := by
  obtain ⟨hshort, hv⟩ := hv
  obtain ⟨hrest, hseparator⟩ := readListSeparator_close ht
  refine ⟨by omega, ?_⟩
  rw [readItems, hv]
  simp only [hseparator, Bool.false_eq_true, if_false, List.reverse_cons]

theorem readItems_more {taken vs : List Value} {u cs : List Char} (hle : s.length ≤ whole.length)
    (hv : Takes (readValue depth s) v t) (ht : skipBlanks t = ',' :: u)
    (hu : skipBlanks u = c :: cs) (hc : c ≠ ']')
    (hvs : ∀ hle, Takes (readItems depth (v :: taken) u hle : Reading (List Value) whole) vs r) :
    Takes (readItems depth taken s hle : Reading (List Value) whole) vs r := by
  obtain ⟨hshort, hv⟩ := hv
  obtain ⟨hrest, hseparator⟩ := readListSeparator_more ht hu hc
  obtain ⟨hend, hvs⟩ := hvs (by omega)
  refine ⟨hend, ?_⟩
  rw [readItems, hv]
  simp only [hseparator, if_true, hvs]

theorem readFields_last {taken : Fields Value} {key : String} {u : List Char}
    (hle : s.length ≤ whole.length) (hkey : Takes (readKey s) key u)
    (hv : Takes (readValue depth u) v t) (ht : skipBlanks t = '\x7d' :: r) :
    Takes (readFields depth taken s hle : Reading (Fields Value) whole)
      (taken.insert key v) r := by
  obtain ⟨hcolon, hkey⟩ := hkey
  obtain ⟨hshort, hv⟩ := hv
  obtain ⟨hrest, hseparator⟩ := readFieldSeparator_close ht
  refine ⟨by omega, ?_⟩
  rw [readFields, hkey]
  simp only [hv, hseparator, Bool.false_eq_true, if_false]

theorem readFields_more {taken fields : Fields Value} {key : String} {u w cs : List Char}
    (hle : s.length ≤ whole.length) (hkey : Takes (readKey s) key u)
    (hv : Takes (readValue depth u) v t) (ht : skipBlanks t = ',' :: w)
    (hw : skipBlanks w = '"' :: cs)
    (hfields : ∀ hle, Takes (readFields depth (taken.insert key v) w hle :
      Reading (Fields Value) whole) fields r) :
    Takes (readFields depth taken s hle : Reading (Fields Value) whole) fields r := by
  obtain ⟨hcolon, hkey⟩ := hkey
  obtain ⟨hshort, hv⟩ := hv
  obtain ⟨hrest, hseparator⟩ := readFieldSeparator_more ht hw
  obtain ⟨hend, hfields⟩ := hfields (by omega)
  refine ⟨hend, ?_⟩
  rw [readFields, hkey]
  simp only [hv, hseparator, if_true, hfields]

end

end JsonFilter.Json

namespace JsonFilter.Value

open Json
open Token (Ends closers)

/-- All parts of some values are decodable. -/
def AllDecodable (values : List Value) : Prop := ∀ v ∈ values, v.Decodable

/-- The parts of a value whose numbers are finite and whose objects have no key twice. -/
theorem allDecodable_of_finite {v : Value} (hfinite : ∀ n, .number n ∈ v.walk → n.isFinite)
    (hkeys : ∀ fields, .object fields ∈ v.walk → (Fields.keys fields).Nodup) :
    AllDecodable v.walk := by
  intro w hw
  cases w with
  | number n => exact hfinite n hw
  | object fields => exact hkeys fields hw
  | _ => trivial

theorem AllDecodable.split {vs ws : List Value} (h : AllDecodable (vs ++ ws)) :
    AllDecodable vs ∧ AllDecodable ws := List.forall_mem_append.mp h

theorem AllDecodable.tail {v : Value} {vs : List Value} (h : AllDecodable (v :: vs)) :
    AllDecodable vs := (List.forall_mem_cons.mp h).2

theorem AllDecodable.self {v : Value} (h : AllDecodable v.walk) : v.Decodable := h v (mem_walk v)

theorem AllDecodable.regular {vs : List Value} (h : AllDecodable vs) : AllRegular vs :=
  fun v hv => (h v hv).regular

/-! ## Sorted keys -/

theorem nestingFields_le {n : Nat} {fs : List (String × Value)} :
    nestingFields fs ≤ n ↔ ∀ f ∈ fs, f.2.nesting ≤ n := by
  induction fs with
  | nil => simp [nestingFields]
  | cons f fs ih => rw [nestingFields, Nat.max_le, ih, List.forall_mem_cons]

theorem nestingFields_sorted (fs : List (String × Value)) :
    nestingFields (Fields.sorted fs) = nestingFields fs :=
  Nat.le_antisymm
    (nestingFields_le.mpr fun f hf =>
      nestingFields_le.mp (Nat.le_refl _) f (Fields.mem_sorted.mp hf))
    (nestingFields_le.mpr fun f hf =>
      nestingFields_le.mp (Nat.le_refl _) f (Fields.mem_sorted.mpr hf))

mutual

/-- Sorting keys does not change how deeply a value nests. -/
theorem nesting_sortKeys : ∀ v : Value, v.sortKeys.nesting = v.nesting
  | .null => rfl
  | .bool _ => rfl
  | .number _ => rfl
  | .string _ => rfl
  | .array items => by rw [sortKeys, nesting, nesting, nestingList_sortKeysList items]
  | .object fields => by
    rw [sortKeys, nesting, nesting, nestingFields_sorted, nestingFields_sortKeysFields fields]

theorem nestingList_sortKeysList : ∀ vs : List Value,
    nestingList (sortKeysList vs) = nestingList vs
  | [] => rfl
  | v :: vs => by
    rw [sortKeysList, nestingList, nestingList, nesting_sortKeys v, nestingList_sortKeysList vs]

theorem nestingFields_sortKeysFields : ∀ fs : List (String × Value),
    nestingFields (sortKeysFields fs) = nestingFields fs
  | [] => rfl
  | (_, v) :: fs => by
    rw [sortKeysFields, nestingFields, nestingFields, nesting_sortKeys v,
      nestingFields_sortKeysFields fs]

end

/-- Sorting keys keeps every part decodable. -/
theorem AllDecodable.sortKeys {v : Value} (h : AllDecodable v.walk) :
    AllDecodable v.sortKeys.walk := by
  intro w hw
  obtain ⟨u, hu, rfl⟩ := mem_walk_sortKeys v hw
  cases u with
  | object fields =>
    show (Value.object fields).sortKeys.Regular
    exact (h.regular _ hu).sortKeys
  | array items => trivial
  | _ => exact h _ hu

theorem AllDecodable.styled {v : Value} (style : Style) (h : AllDecodable v.walk) :
    AllDecodable (v.styled style).walk := by
  unfold Value.styled
  split
  · exact h.sortKeys
  · exact h

theorem nesting_styled (style : Style) (v : Value) : (v.styled style).nesting = v.nesting := by
  unfold styled
  split
  · exact nesting_sortKeys v
  · rfl

/-! ## Texts -/

/-- The text of a value is read as the value, with white space before it and anything after it where
a value can end. -/
def Readable (indent level depth : Nat) (v : Value) : Prop :=
  ∀ s rest, Ends rest → skipBlanks s = chars indent level v ++ rest →
    Takes (readValue depth s) v.reread rest

/-- Only a value with its line break goes before what is read as the value. -/
theorem skipBlanks_break (indent level : Nat) {v : Value} (h : v.Decodable) (rest : List Char) :
    skipBlanks (lineBreak indent level ++ (chars indent level v ++ rest)) =
      chars indent level v ++ rest := by
  obtain ⟨c, cs, hskip, hchars, _⟩ := skipBlanks_chars indent level h rest
  rw [skipBlanks_lineBreak, hskip, hchars]

theorem skipBlanks_key (indent level : Nat) (k : String) (rest : List Char) :
    skipBlanks (lineBreak indent level ++ (Text.escaped k ++ rest)) = Text.escaped k ++ rest := by
  rw [skipBlanks_lineBreak]
  exact skipBlanks_cons rfl _

/-- A key that comes later is not among those before. -/
theorem not_mem_of_nodup {k : String} {v : Value} {taken fs : List (String × Value)}
    (h : (Fields.keys (taken ++ (k, v) :: fs)).Nodup) : k ∉ Fields.keys taken := by
  intro hk
  rw [Fields.keys, List.map_append] at h
  exact (List.nodup_append.mp h).2.2 k hk k List.mem_cons_self rfl

mutual

/-- A value that nests less deeply than the limit is read from its text. -/
theorem readable (indent : Nat) : ∀ (v : Value) (level depth : Nat), AllDecodable v.walk →
    v.nesting < depth → v.Readable indent level depth
  | .null, _, depth, _, _ => fun _ _ _ hs => readValue_null depth hs
  | .bool true, _, depth, _, _ => fun _ _ _ hs => readValue_true depth hs
  | .bool false, _, depth, _, _ => fun _ _ _ hs => readValue_false depth hs
  | .number _, _, depth, h, _ => fun _ _ hrest hs => readValue_number depth h.self hrest hs
  | .string _, _, depth, _, _ => fun _ _ _ hs => readValue_string depth hs
  | .array [], _, depth, _, hdepth => by
    intro s rest _ hs
    have hlimit : 1 < depth := hdepth
    exact readValue_emptyArray hlimit hs (skipBlanks_cons rfl rest)
  | .array (v :: vs), level, depth, h, hdepth => by
    intro s rest _ hs
    simp only [nesting, nestingList] at hdepth
    obtain ⟨hv, hvs⟩ := h.tail.split
    simp only [chars, List.cons_append, List.append_assoc, List.nil_append] at hs
    have hskip := skipBlanks_break indent (level + 1) hv.self
      (itemChars indent (level + 1) vs ++ (lineBreak indent level ++ ']' :: rest))
    obtain ⟨c, cs, _, hchars, hc⟩ := skipBlanks_chars indent (level + 1) hv.self
      (itemChars indent (level + 1) vs ++ (lineBreak indent level ++ ']' :: rest))
    refine readValue_array (by omega) hs (hskip.trans hchars.symm) hc ?_
    exact readItems_chars indent vs (level + 1) (depth - 1) level [] _
      (readable indent v (level + 1) (depth - 1) hv (by omega)) hvs (by omega) hskip
  | .object [], _, depth, _, hdepth => by
    intro s rest _ hs
    have hlimit : 1 < depth := hdepth
    exact readValue_emptyObject hlimit hs (skipBlanks_cons rfl rest)
  | .object ((k, v) :: fs), level, depth, h, hdepth => by
    intro s rest _ hs
    simp only [nesting, nestingFields] at hdepth
    have hkeys : (Fields.keys ((k, v) :: fs)).Nodup := h.self
    obtain ⟨hv, hfs⟩ := h.tail.split
    simp only [chars, List.cons_append, List.append_assoc, List.nil_append] at hs
    have hskip := skipBlanks_key indent (level + 1) k
    refine readValue_object (by omega) hs (hskip _) (by decide) ?_
    exact readFields_chars indent fs (level + 1) (depth - 1) level [] _
      (readable indent v (level + 1) (depth - 1) hv (by omega)) hv.self hfs (by omega) hkeys
      (hskip _)

/-- Items are read one by one, the first by what is known of it. -/
theorem readItems_chars (indent : Nat) : ∀ (vs : List Value) (level depth outer : Nat) {v : Value}
    {whole s rest : List Char} (taken : List Value) (hle : s.length ≤ whole.length),
    v.Readable indent level depth → AllDecodable (walkList vs) → nestingList vs < depth →
    skipBlanks s = chars indent level v ++
      (itemChars indent level vs ++ (lineBreak indent outer ++ ']' :: rest)) →
    Takes (readItems depth taken s hle : Reading (List Value) whole)
      (taken.reverse ++ rereadList (v :: vs)) rest
  | [], level, _, outer, _, _, _, rest, _, hle, hv, _, _, hs => by
    have hends := ends_lineBreak indent outer (show ']' ∈ closers by decide) rest
    refine readItems_last hle (hv _ _ hends hs) ?_
    rw [skipBlanks_lineBreak]
    exact skipBlanks_cons rfl rest
  | w :: ws, level, depth, outer, v, _, _, rest, taken, hle, hv, h, hdepth, hs => by
    simp only [nestingList] at hdepth
    obtain ⟨hw, hws⟩ := h.split
    have hends := ends_itemChars indent level (w :: ws)
      (ends_lineBreak indent outer (show ']' ∈ closers by decide) rest)
    have htail := hv _ _ hends hs
    simp only [itemChars, List.cons_append, List.append_assoc] at htail
    have hskip := skipBlanks_break indent level hw.self
      (itemChars indent level ws ++ (lineBreak indent outer ++ ']' :: rest))
    obtain ⟨c, cs, _, hchars, hc⟩ := skipBlanks_chars indent level hw.self
      (itemChars indent level ws ++ (lineBreak indent outer ++ ']' :: rest))
    refine readItems_more hle htail (skipBlanks_cons rfl _) (hskip.trans hchars.symm) hc ?_
    intro hle
    have hrest := readItems_chars indent ws level depth outer (v.reread :: taken) hle
      (readable indent w level depth hw (by omega)) hws (by omega) hskip
    rwa [List.reverse_cons, List.append_assoc] at hrest

/-- Fields are read one by one, the value of the first by what is known of it. -/
theorem readFields_chars (indent : Nat) : ∀ (fs : List (String × Value)) (level depth outer : Nat)
    {k : String} {v : Value} {whole s rest : List Char} (taken : Fields Value)
    (hle : s.length ≤ whole.length), v.Readable indent level depth → v.Decodable →
    AllDecodable (walkFields fs) → nestingFields fs < depth →
    (Fields.keys (taken ++ (k, v) :: fs)).Nodup →
    skipBlanks s = Text.escaped k ++ (colon indent ++ (chars indent level v ++
      (fieldChars indent level fs ++ (lineBreak indent outer ++ '\x7d' :: rest)))) →
    Takes (readFields depth taken s hle : Reading (Fields Value) whole)
      (taken ++ rereadFields ((k, v) :: fs)) rest
  | [], level, _, outer, k, v, _, _, rest, taken, hle, hv, hhead, _, _, hkeys, hs => by
    obtain ⟨u, hkey, hu⟩ := readKey_escaped hs
    obtain ⟨c, cs, hskip, hchars, _⟩ := skipBlanks_chars indent level hhead
      (fieldChars indent level [] ++ (lineBreak indent outer ++ '\x7d' :: rest))
    have hends := ends_lineBreak indent outer (show '\x7d' ∈ closers by decide) rest
    have hvalue := hv u _ hends (hu.trans (hskip.trans hchars))
    have hclose : skipBlanks (lineBreak indent outer ++ '\x7d' :: rest) = '\x7d' :: rest := by
      rw [skipBlanks_lineBreak]
      exact skipBlanks_cons rfl rest
    have hinsert : taken.insert k v.reread = taken ++ rereadFields [(k, v)] :=
      Fields.insert_of_not_mem (not_mem_of_nodup hkeys)
    rw [← hinsert]
    exact readFields_last hle hkey hvalue hclose
  | (j, w) :: fs, level, depth, outer, k, v, _, _, rest, taken, hle, hv, hhead, h, hdepth, hkeys,
    hs => by
    simp only [nestingFields] at hdepth
    obtain ⟨hw, hfs⟩ := h.split
    obtain ⟨u, hkey, hu⟩ := readKey_escaped hs
    obtain ⟨c, cs, hskip, hchars, _⟩ := skipBlanks_chars indent level hhead
      (fieldChars indent level ((j, w) :: fs) ++ (lineBreak indent outer ++ '\x7d' :: rest))
    have hends := ends_fieldChars indent level ((j, w) :: fs)
      (ends_lineBreak indent outer (show '\x7d' ∈ closers by decide) rest)
    have hvalue := hv u _ hends (hu.trans (hskip.trans hchars))
    simp only [fieldChars, List.cons_append, List.append_assoc] at hvalue
    refine readFields_more hle hkey hvalue (skipBlanks_cons rfl _) (skipBlanks_key _ _ _ _) ?_
    intro hle
    have hkeys' : (Fields.keys ((taken ++ [(k, v.reread)]) ++ (j, w) :: fs)).Nodup := by
      rw [List.append_assoc]
      simpa only [Fields.keys, List.map_append, List.singleton_append, List.map_cons] using hkeys
    have hrest := readFields_chars indent fs level depth outer (taken ++ [(k, v.reread)]) hle
      (readable indent w level depth hw (by omega)) hw.self hfs (by omega) hkeys'
      (skipBlanks_key _ _ _ _)
    rw [Fields.insert_of_not_mem (not_mem_of_nodup hkeys)]
    rwa [List.append_assoc] at hrest

end

end JsonFilter.Value
