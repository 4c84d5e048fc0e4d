import JsonFilter.Proofs.Json.Decoding
import JsonFilter.Results

/-!
Lines of JSON text as documents. A line feed ends a value and is skipped before the next, so values
on lines of their own come back one by one, each with the keys that its text has.
-/

namespace JsonFilter

namespace Fields

variable {α : Type}

theorem keys_sorted_ascending {fields : Fields α} (h : (keys fields).Nodup) :
    (keys (sorted fields)).Pairwise (· < ·) := by
  have hle : (keys (sorted fields)).Pairwise (· ≤ ·) :=
    List.pairwise_map.mpr (pairwise_sorted fields)
  refine (hle.and (nodup_keys_sorted h)).imp ?_
  rintro j k ⟨hjk, hne⟩
  exact String.not_le.mp fun hkj => hne (String.le_antisymm hjk hkj)

end Fields

namespace Value

/-! ## Keys -/

/-- The keys of an object. -/
def keys? : Value → Option (List String)
  | .object fields => some (Fields.keys fields)
  | _ => none

/-- The keys of every object in a value, as they come in its text. -/
def keyLists (v : Value) : List (List String) := v.walk.filterMap keys?

theorem keys?_reread (v : Value) : v.reread.keys? = v.keys? := by
  cases v with
  | object fields => exact congrArg some (keys_rereadFields fields)
  | _ => rfl

/-- A value that is read back has the same keys. -/
theorem keyLists_reread (v : Value) : v.reread.keyLists = v.keyLists := by
  have hkeys : keys? ∘ reread = keys? := funext keys?_reread
  rw [keyLists, walk_reread, List.filterMap_map, hkeys, keyLists]

/-- The keys that sorting gives. -/
theorem ascending_of_mem_keyLists {v : Value} (h : AllRegular v.walk) {keys : List String}
    (hkeys : keys ∈ v.sortKeys.keyLists) : keys.Pairwise (· < ·) := by
  obtain ⟨w, hw, hkeys⟩ := List.mem_filterMap.mp hkeys
  obtain ⟨u, hu, rfl⟩ := mem_walk_sortKeys v hw
  cases u with
  | object fields =>
    obtain rfl := Option.some.inj hkeys
    refine Fields.keys_sorted_ascending ?_
    rw [keys_sortKeysFields]
    exact h (.object fields) hu
  | _ => cases hkeys

end Value

namespace Document

open Json
open Token (Ends)

/-! ## One document -/

/-- A line ends here. -/
def LineEnds (rest : List Char) : Prop := ∀ c cs, rest = c :: cs → c = '\n'

theorem LineEnds.ends {rest : List Char} (h : LineEnds rest) : Ends rest := by
  intro c cs hrest
  rw [h c cs hrest]
  decide

/-- The text of a value is taken as one document, up to the end of its line. -/
theorem next?_chars {indent : Nat} {v : Value} (h : Value.AllDecodable v.walk)
    (hdepth : v.nesting < depthLimit) {s rest : List Char} (hrest : LineEnds rest)
    (hs : skipBlanks s = Value.chars indent 0 v ++ rest) :
    ∃ hshort, next? s = some (.ok ⟨v.reread, rest, hshort⟩) := by
  obtain ⟨c, cs, hchars, _, _⟩ := Value.chars_head indent 0 h.self
  obtain ⟨hshort, hread⟩ := Value.readable indent v 0 depthLimit h hdepth s rest hrest.ends hs
  have hskip : skipBlanks s = c :: (cs ++ rest) := by rw [hs, hchars, List.cons_append]
  refine ⟨hshort, ?_⟩
  rw [next?, hskip, hread]
  cases rest with
  | nil => rfl
  | cons d ds =>
    obtain rfl := hrest d ds rfl
    have hd : isDelimiter '\n' = true := rfl
    simp only [hd, Bool.or_true, if_true]

/-! ## Lines -/

/-- The texts of some values, each on lines of its own. -/
def lineChars (indent : Nat) (values : List Value) : List Char :=
  ['\n'].intercalate (values.map (Value.chars indent 0))

/-- After the first value, only the line feed comes before the others. -/
theorem lineChars_cons (indent : Nat) (v : Value) (vs : List Value) :
    ∃ rest, lineChars indent (v :: vs) = Value.chars indent 0 v ++ rest ∧ LineEnds rest ∧
      skipBlanks rest = skipBlanks (lineChars indent vs) := by
  cases vs with
  | nil =>
    refine ⟨[], ?_, ?_, rfl⟩
    · rw [lineChars, List.map_singleton, List.intercalate_singleton, List.append_nil]
    · intro c cs h
      cases h
  | cons w vs =>
    refine ⟨'\n' :: lineChars indent (w :: vs), ?_, ?_, rfl⟩
    · rw [lineChars, List.map_cons, List.map_cons, List.intercalate_cons_cons, List.append_assoc]
      rfl
    · intro c cs h
      exact (List.cons.inj h).1.symm

/-- Values on lines of their own are read one by one. -/
theorem listFrom_lineChars (indent : Nat) (whole : List Char) {vs : List Value}
    (h : ∀ v ∈ vs, Value.AllDecodable v.walk) (hdepth : ∀ v ∈ vs, v.nesting < depthLimit)
    {s : List Char} (hs : skipBlanks s = skipBlanks (lineChars indent vs)) :
    listFrom whole s = vs.map fun v => .ok v.reread := by
  induction vs generalizing s with
  | nil =>
    have hnone : next? s = none := by
      rw [next?, hs]
      rfl
    rw [listFrom, hnone]
    rfl
  | cons v vs ih =>
    obtain ⟨hv, hvs⟩ := List.forall_mem_cons.mp h
    obtain ⟨hdv, hdvs⟩ := List.forall_mem_cons.mp hdepth
    obtain ⟨rest, hline, hends, hrest⟩ := lineChars_cons indent v vs
    obtain ⟨c, cs, hskip, hchars, _⟩ := Value.skipBlanks_chars indent 0 hv.self rest
    rw [hline, hskip, hchars] at hs
    obtain ⟨hshort, hnext⟩ := next?_chars hv hdv hends hs
    rw [listFrom, hnext, List.map_cons]
    exact congrArg _ (ih hvs hdvs hrest)

theorem toList_lines (style : Style) (values : List Value) :
    (Results.lines style values).toList =
      lineChars style.indent (values.map (Value.styled style)) := by
  rw [Results.lines, String.toList_intercalate, List.map_map, lineChars, List.map_map]
  refine congrArg _ (List.map_congr_left fun v _ => ?_)
  exact Value.toList_text style v

/-- The documents of lines of JSON text are the values that were written. -/
theorem list_lines (style : Style) {values : List Value}
    (h : ∀ v ∈ values, Value.AllDecodable v.walk) (hdepth : ∀ v ∈ values, v.nesting < depthLimit) :
    list (Results.lines style values) = values.map fun v => .ok (v.styled style).reread := by
  have hstyled : ∀ v ∈ values.map (Value.styled style), Value.AllDecodable v.walk :=
    List.forall_mem_map.mpr fun v hv => (h v hv).styled style
  have hnesting : ∀ v ∈ values.map (Value.styled style), v.nesting < depthLimit :=
    List.forall_mem_map.mpr fun v hv => by
      rw [Value.nesting_styled]
      exact hdepth v hv
  have hlist := listFrom_lineChars style.indent (Results.lines style values).toList hstyled hnesting
    (congrArg skipBlanks (toList_lines style values))
  rw [list, hlist, List.map_map]
  rfl

end Document

namespace Results

/-- Text output can be read back. Let every number in the outputs of a handle be finite, and let no
object have a key twice. Then the outputs, written in any style on lines of their own, are read back
as one document for each output, in order, each equal to the output. The keys stand as they came, or
in ascending order where the style sorts them. -/
theorem documents_of_text (style : Style) {r : Results} {store : Pattern.Store}
    {values : List Value} (hall : (r.all store).1 = .value values)
    (hfinite : ∀ v ∈ values, ∀ n, .number n ∈ v.walk → n.isFinite)
    (hkeys : ∀ v ∈ values, ∀ fields, .object fields ∈ v.walk → (Fields.keys fields).Nodup)
    (hnesting : ∀ v ∈ values, v.nesting ≤ 127) :
    ∃ text, (r.text style store).1 = .value text ∧
      Document.list text = values.map (fun v => .ok (v.styled style).reread) ∧
      ∀ v ∈ values, ((v.styled style).reread == v) = true ∧
        (style.sortKeys = false → (v.styled style).reread.keyLists = v.keyLists) ∧
        (style.sortKeys = true →
          ∀ keys ∈ (v.styled style).reread.keyLists, keys.Pairwise (· < ·)) := by
  have hdecodable : ∀ v ∈ values, Value.AllDecodable v.walk := fun v hv =>
    Value.allDecodable_of_finite (hfinite v hv) (hkeys v hv)
  refine ⟨lines style values, ?_, ?_, fun v hv => ⟨?_, ?_, ?_⟩⟩
  · show (r.all store).1.map (lines style) = _
    rw [hall]
    rfl
  · exact Document.list_lines style hdecodable fun v hv => Nat.lt_succ_of_le (hnesting v hv)
  · exact Value.reread_styled_beq style (hdecodable v hv).regular
  · intro hsort
    rw [Value.keyLists_reread, Value.styled, if_neg (Bool.eq_false_iff.mp hsort)]
  · intro hsort keys hmem
    rw [Value.keyLists_reread, Value.styled, if_pos hsort] at hmem
    exact Value.ascending_of_mem_keyLists (hdecodable v hv).regular hmem

/-- Two outputs on several lines, with keys that are sorted. -/
theorem documents_of_text_sorted :
    let values : List Value := [.array [.number (.ofInt (-3)), .number (.ofBits 0x3fb999999999999a),
      .object [("b", .string "\"\n"), ("a", .null)]], .null]
    ∃ text, ((start fun _ => .ofList values).text ⟨2, true⟩ .empty).1 = .value text ∧
      Document.list text = values.map (fun v => .ok (v.styled ⟨2, true⟩).reread) ∧
      ∀ v ∈ values, ((v.styled ⟨2, true⟩).reread == v) = true ∧
        (true = false → (v.styled ⟨2, true⟩).reread.keyLists = v.keyLists) ∧
        (true = true →
          ∀ keys ∈ (v.styled ⟨2, true⟩).reread.keyLists, keys.Pairwise (· < ·)) := by
  intro values
  have hparts : ∀ v ∈ values, ∀ w ∈ v.walk, w.Decodable := by decide +kernel
  exact documents_of_text ⟨2, true⟩ rfl (fun v hv n hn => hparts v hv (.number n) hn)
    (fun v hv fields hfields => hparts v hv (.object fields) hfields) (by decide)

end Results

end JsonFilter
