import JsonFilter.Proofs.Json.Numeral
import JsonFilter.Proofs.SortKeys

/-!
The tokens of the JSON text of a value. However the text is laid out, its tokens are those of the
value: the layout puts only white space between them. A number is read back as the number that its
digits denote.
-/

namespace JsonFilter.Value

open Token

mutual

/-- The kinds of the tokens in the JSON text of a value. -/
def kinds : Value → List Kind
  | .null => [.keyword .nullWord]
  | .bool true => [.keyword .trueWord]
  | .bool false => [.keyword .falseWord]
  | .number n => n.kinds
  | .string s => [.string s]
  | .array [] => [.symbol .openBracket, .symbol .closeBracket]
  | .array (v :: vs) =>
    .symbol .openBracket :: (v.kinds ++ (itemKinds vs ++ [.symbol .closeBracket]))
  | .object [] => [.symbol .openBrace, .symbol .closeBrace]
  | .object ((k, v) :: fs) =>
    .symbol .openBrace :: .string k :: .symbol .colon ::
      (v.kinds ++ (fieldKinds fs ++ [.symbol .closeBrace]))

/-- The tokens of the items after the first. -/
def itemKinds : List Value → List Kind
  | [] => []
  | v :: vs => .symbol .comma :: (v.kinds ++ itemKinds vs)

/-- The tokens of the fields after the first. -/
def fieldKinds : List (String × Value) → List Kind
  | [] => []
  | (k, v) :: fs =>
    .symbol .comma :: .string k :: .symbol .colon :: (v.kinds ++ fieldKinds fs)

end

mutual

/-- The value that the JSON text of a value denotes, with the same keys in the same order. -/
def reread : Value → Value
  | .null => .null
  | .bool b => .bool b
  | .number n => .number n.reread
  | .string s => .string s
  | .array items => .array (rereadList items)
  | .object fields => .object (rereadFields fields)

/-- `reread` on every item. -/
def rereadList : List Value → List Value
  | [] => []
  | v :: vs => v.reread :: rereadList vs

/-- `reread` on the value of every field. -/
def rereadFields : List (String × Value) → List (String × Value)
  | [] => []
  | (k, v) :: fs => (k, v.reread) :: rereadFields fs

end

mutual

/-- The parts of a value that is read back are its parts, each read back. -/
theorem walk_reread : ∀ v : Value, v.reread.walk = v.walk.map reread
  | .null => rfl
  | .bool _ => rfl
  | .number _ => rfl
  | .string _ => rfl
  | .array items => congrArg _ (walkList_rereadList items)
  | .object fields => congrArg _ (walkFields_rereadFields fields)

theorem walkList_rereadList : ∀ vs : List Value,
    walkList (rereadList vs) = (walkList vs).map reread
  | [] => rfl
  | v :: vs => by
    rw [rereadList, walkList, walkList, List.map_append, walk_reread v, walkList_rereadList vs]

theorem walkFields_rereadFields : ∀ fs : List (String × Value),
    walkFields (rereadFields fs) = (walkFields fs).map reread
  | [] => rfl
  | (_, v) :: fs => by
    rw [rereadFields, walkFields, walkFields, List.map_append, walk_reread v,
      walkFields_rereadFields fs]

end

/-- What is assumed of a part of a value: the digits of a number denote it, and an object has no key
twice. -/
def Regular : Value → Prop
  | .number n => n.readsBack
  | .object fields => (Fields.keys fields).Nodup
  | _ => True

/-- All parts of some values are regular. -/
def AllRegular (values : List Value) : Prop := ∀ v ∈ values, v.Regular

theorem AllRegular.left {vs ws : List Value} (h : AllRegular (vs ++ ws)) : AllRegular vs :=
  fun v hv => h v (List.mem_append_left ws hv)

theorem AllRegular.right {vs ws : List Value} (h : AllRegular (vs ++ ws)) : AllRegular ws :=
  fun v hv => h v (List.mem_append_right vs hv)

theorem AllRegular.head {v : Value} {vs : List Value} (h : AllRegular (v :: vs)) : v.Regular :=
  h v List.mem_cons_self

theorem AllRegular.tail {v : Value} {vs : List Value} (h : AllRegular (v :: vs)) : AllRegular vs :=
  fun w hw => h w (List.mem_cons_of_mem v hw)

theorem AllRegular.cons {v : Value} {vs : List Value} (hv : v.Regular) (hvs : AllRegular vs) :
    AllRegular (v :: vs) := List.forall_mem_cons.mpr ⟨hv, hvs⟩

/-! ## Reading -/

theorem reads_lineBreak (indent level : Nat) (rest : List Char) :
    Reads (lineBreak indent level ++ rest) rest [] := by
  have hspaces : ∀ n, Reads (List.replicate n ' ' ++ rest) rest [] := by
    intro n
    induction n with
    | zero => exact .refl rest
    | succ n ih => exact Reads.trans (.space rfl) ih
  unfold lineBreak
  split
  · exact .refl rest
  · exact Reads.trans (.space rfl) (hspaces _)

theorem reads_colonSpace (indent : Nat) (rest : List Char) :
    Reads (colon indent ++ rest) rest [.symbol .colon] := by
  unfold colon
  split
  · exact reads_colon rest
  · exact (reads_colon _).trans (.space rfl)

/-- A closing bracket ends a value, with or without a break before it. -/
theorem ends_lineBreak (indent level : Nat) {c : Char} (hc : c ∈ closers) (rest : List Char) :
    Ends (lineBreak indent level ++ c :: rest) := by
  intro d ds h
  unfold lineBreak at h
  split at h
  · obtain ⟨rfl, _⟩ := List.cons.inj h
    exact hc
  · obtain ⟨rfl, _⟩ := List.cons.inj h
    decide

theorem ends_itemChars (indent level : Nat) (vs : List Value) {rest : List Char} (h : Ends rest) :
    Ends (itemChars indent level vs ++ rest) := by
  cases vs with
  | nil => exact h
  | cons v vs =>
    intro d ds heq
    obtain ⟨rfl, _⟩ := List.cons.inj heq
    decide

theorem ends_fieldChars (indent level : Nat) (fs : List (String × Value)) {rest : List Char}
    (h : Ends rest) : Ends (fieldChars indent level fs ++ rest) := by
  cases fs with
  | nil => exact h
  | cons f fs =>
    intro d ds heq
    obtain ⟨rfl, _⟩ := List.cons.inj heq
    decide

mutual

/-- The JSON text of a value is read as the tokens of the value. -/
theorem reads_chars (indent : Nat) : ∀ (v : Value) (level : Nat) {rest : List Char},
    AllRegular v.walk → Ends rest → Reads (chars indent level v ++ rest) rest v.kinds
  | .null, _, _, _, hends => reads_null hends
  | .bool true, _, _, _, hends => reads_true hends
  | .bool false, _, _, _, hends => reads_false hends
  | .number n, _, _, h, hends => by
    obtain ⟨hn, _⟩ := Number.of_readsBack h.head
    exact Number.reads_json hn hends
  | .string s, _, rest, _, _ => reads_string s rest
  | .array [], _, rest, _, _ => (reads_openBracket _).trans (reads_closeBracket rest)
  | .array (v :: vs), level, rest, h, _ => by
    have hends := ends_lineBreak indent level (show ']' ∈ closers by decide) rest
    have hv := reads_chars indent v (level + 1) h.tail.left
      (ends_itemChars indent (level + 1) vs hends)
    have hvs := reads_itemChars indent vs (level + 1) h.tail.right hends
    have hclose := (reads_lineBreak indent level (']' :: rest)).trans (reads_closeBracket rest)
    have hall := ((reads_openBracket _).trans (reads_lineBreak indent (level + 1) _)).trans
      (hv.trans (hvs.trans hclose))
    simpa only [chars, kinds, List.cons_append, List.append_assoc, List.nil_append] using hall
  | .object [], _, rest, _, _ => (reads_openBrace _).trans (reads_closeBrace rest)
  | .object ((k, v) :: fs), level, rest, h, _ => by
    have hends := ends_lineBreak indent level (show '\x7d' ∈ closers by decide) rest
    have hv := reads_chars indent v (level + 1) h.tail.left
      (ends_fieldChars indent (level + 1) fs hends)
    have hfs := reads_fieldChars indent fs (level + 1) h.tail.right hends
    have hclose := (reads_lineBreak indent level ('\x7d' :: rest)).trans (reads_closeBrace rest)
    have hall := ((reads_openBrace _).trans (reads_lineBreak indent (level + 1) _)).trans
      (((reads_string k _).trans (reads_colonSpace indent _)).trans (hv.trans (hfs.trans hclose)))
    simpa only [chars, kinds, List.cons_append, List.append_assoc, List.nil_append] using hall

theorem reads_itemChars (indent : Nat) : ∀ (vs : List Value) (level : Nat) {rest : List Char},
    AllRegular (walkList vs) → Ends rest →
      Reads (itemChars indent level vs ++ rest) rest (itemKinds vs)
  | [], _, rest, _, _ => .refl rest
  | v :: vs, level, rest, h, hends => by
    have hv := reads_chars indent v level h.left (ends_itemChars indent level vs hends)
    have hvs := reads_itemChars indent vs level h.right hends
    have hall := ((reads_comma _).trans (reads_lineBreak indent level _)).trans (hv.trans hvs)
    simpa only [itemChars, itemKinds, List.cons_append, List.append_assoc, List.nil_append]
      using hall

theorem reads_fieldChars (indent : Nat) :
    ∀ (fs : List (String × Value)) (level : Nat) {rest : List Char},
      AllRegular (walkFields fs) → Ends rest →
        Reads (fieldChars indent level fs ++ rest) rest (fieldKinds fs)
  | [], _, rest, _, _ => .refl rest
  | (k, v) :: fs, level, rest, h, hends => by
    have hv := reads_chars indent v level h.left (ends_fieldChars indent level fs hends)
    have hfs := reads_fieldChars indent fs level h.right hends
    have hall := ((reads_comma _).trans (reads_lineBreak indent level _)).trans
      (((reads_string k _).trans (reads_colonSpace indent _)).trans (hv.trans hfs))
    simpa only [fieldChars, fieldKinds, List.cons_append, List.append_assoc, List.nil_append]
      using hall

end

/-! ## Sorted keys -/

theorem keys_sortKeysFields (fs : List (String × Value)) :
    Fields.keys (sortKeysFields fs) = Fields.keys fs := by
  rw [sortKeysFields_eq_map, Fields.keys, Fields.keys, List.map_map]
  rfl

theorem Regular.sortKeys {v : Value} (h : v.Regular) : v.sortKeys.Regular := by
  cases v with
  | object fields =>
    have hkeys : (Fields.keys (sortKeysFields fields)).Nodup := by
      rw [keys_sortKeysFields]
      exact h
    exact Fields.nodup_keys_sorted hkeys
  | _ => exact h

/-- Sorting keys keeps every part regular. -/
theorem AllRegular.sortKeys (v : Value) (h : AllRegular v.walk) : AllRegular v.sortKeys.walk := by
  intro w hw
  obtain ⟨u, hu, rfl⟩ := mem_walk_sortKeys v hw
  exact (h u hu).sortKeys

/-! ## Equality -/

theorem rereadFields_eq_map (fs : List (String × Value)) :
    rereadFields fs = fs.map fun f => (f.1, f.2.reread) := by
  induction fs with
  | nil => rfl
  | cons f fs ih => rw [rereadFields, ih, List.map_cons]

theorem keys_rereadFields (fs : List (String × Value)) :
    Fields.keys (rereadFields fs) = Fields.keys fs := by
  rw [rereadFields_eq_map, Fields.keys, Fields.keys, List.map_map]
  rfl

theorem rereadFields_sorted (fs : List (String × Value)) :
    rereadFields (Fields.sorted fs) = Fields.sorted (rereadFields fs) := by
  rw [rereadFields_eq_map, rereadFields_eq_map]
  exact Fields.map_sorted reread fs

mutual

/-- Numbers are read back one by one, so the order of the keys does not matter. -/
theorem sortKeys_reread : ∀ v : Value, v.reread.sortKeys = v.sortKeys.reread
  | .null => rfl
  | .bool _ => rfl
  | .number _ => rfl
  | .string _ => rfl
  | .array items => by
    rw [reread, sortKeys, sortKeys, reread, sortKeysList_rereadList items]
  | .object fields => by
    rw [reread, sortKeys, sortKeys, reread, rereadFields_sorted, sortKeysFields_rereadFields fields]

theorem sortKeysList_rereadList : ∀ vs : List Value,
    sortKeysList (rereadList vs) = rereadList (sortKeysList vs)
  | [] => rfl
  | v :: vs => by
    rw [rereadList, sortKeysList, sortKeysList, rereadList, sortKeys_reread v,
      sortKeysList_rereadList vs]

theorem sortKeysFields_rereadFields : ∀ fs : List (String × Value),
    sortKeysFields (rereadFields fs) = rereadFields (sortKeysFields fs)
  | [] => rfl
  | (k, v) :: fs => by
    rw [rereadFields, sortKeysFields, sortKeysFields, rereadFields, sortKeys_reread v,
      sortKeysFields_rereadFields fs]

end

mutual

theorem beqSorted_reread : ∀ v : Value, AllRegular v.walk → beqSorted v.reread v = true
  | .null, _ => rfl
  | .bool b, _ => beq_self_eq_true b
  | .number n, h => by
    obtain ⟨_, hn⟩ := Number.of_readsBack h.head
    exact hn
  | .string s, _ => beq_self_eq_true s
  | .array items, h => beqSortedList_reread items h.tail
  | .object fields, h => beqSortedFields_reread fields h.tail

theorem beqSortedList_reread : ∀ vs : List Value, AllRegular (walkList vs) →
    beqSortedList (rereadList vs) vs = true
  | [], _ => rfl
  | v :: vs, h => by
    rw [rereadList, beqSortedList, beqSorted_reread v h.left, beqSortedList_reread vs h.right]
    rfl

theorem beqSortedFields_reread : ∀ fs : List (String × Value), AllRegular (walkFields fs) →
    beqSortedFields (rereadFields fs) fs = true
  | [], _ => rfl
  | (k, v) :: fs, h => by
    rw [rereadFields, beqSortedFields, beqSorted_reread v h.left,
      beqSortedFields_reread fs h.right, beq_self_eq_true]
    rfl

end

/-! ## Styles -/

/-- The value as a style writes it, with its keys in the order of the text. -/
def styled (style : Style) (v : Value) : Value := if style.sortKeys then v.sortKeys else v

theorem toList_text (style : Style) (v : Value) :
    (v.text style).toList = chars style.indent 0 (v.styled style) := String.toList_ofList

/-- The tokens of JSON text. -/
theorem list_text (style : Style) {v : Value} (h : AllRegular (v.styled style).walk) :
    ∃ ts loc, Token.list (v.text style) = .ok (ts ++ [⟨.finish, loc⟩]) ∧
      ts.map Token.kind = (v.styled style).kinds := by
  have hreads := reads_chars style.indent (v.styled style) 0 h Token.ends_nil
  rw [List.append_nil, ← toList_text] at hreads
  obtain ⟨ts, ⟨kind, loc⟩, hlist, hts, hfinish⟩ := Token.list_of_reads hreads
  obtain rfl : kind = .finish := by simpa [Token.isFinish] using hfinish
  exact ⟨ts, loc, hlist, hts⟩

theorem AllRegular.styled {v : Value} (style : Style) (h : AllRegular v.walk) :
    AllRegular (v.styled style).walk := by
  unfold Value.styled
  split
  · exact AllRegular.sortKeys v h
  · exact h

/-- What is read back equals the value that was written. -/
theorem reread_styled_beq {v : Value} (style : Style) (h : AllRegular v.walk) :
    ((v.styled style).reread == v) = true := by
  have hsorted := beqSorted_reread v.sortKeys (AllRegular.sortKeys v h)
  show beqSorted (v.styled style).reread.sortKeys v.sortKeys = true
  unfold Value.styled
  split
  · rw [sortKeys_reread, sortKeys_sortKeys]
    exact hsorted
  · rw [sortKeys_reread]
    exact hsorted

end JsonFilter.Value
