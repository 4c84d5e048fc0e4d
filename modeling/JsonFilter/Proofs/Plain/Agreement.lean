import JsonFilter.Proofs.Json.Refusal
import JsonFilter.Proofs.Plain.Values

/-!
The two routes from a text to a value. Whether a text is read as plain data first makes no difference
but for the order of the keys; and a value whose numbers are finite comes back from plain data, and
from the text of plain data as far as the reader follows its brackets.
-/

namespace JsonFilter.Plain

open Value (AllDecodable)

/-- Reading plain data and taking the value is reading the value and sorting its keys. -/
theorem map_parse (text : String) :
    (parse text).map toValue = (Json.parse text).map Value.ofPlain := by
  rw [Json.parse_eq, parse]
  cases Json.parseDatum text with
  | error e => rfl
  | ok d => exact congrArg Except.ok d.toValue_arrange

/-- The numbers of a value that was read are finite, and no object in it has a key twice. -/
theorem allDecodable_of_parse {text : String} {v : Value} (h : Json.parse text = .ok v) :
    AllDecodable v.walk := by
  rw [Json.parse_eq] at h
  cases hd : Json.parseDatum text with
  | error e =>
    rw [hd] at h
    cases h
  | ok d =>
    rw [hd] at h
    obtain rfl := Except.ok.inj h
    exact d.allDecodable_toValue

theorem exists_parse {text : String} {v : Value} (h : Json.parse text = .ok v) :
    ∃ p, parse text = .ok p ∧ p.toValue = v.ofPlain := by
  have hmap := map_parse text
  rw [h] at hmap
  cases hp : parse text with
  | error e =>
    rw [hp] at hmap
    cases hmap
  | ok p =>
    rw [hp] at hmap
    exact ⟨p, rfl, Except.ok.inj hmap⟩

theorem toValue_ofValue_beq {v : Value} (h : AllDecodable v.walk) :
    ((ofValue v).toValue == v) = true := by
  rw [toValue_ofValue h]
  exact Value.reread_styled_beq ⟨0, true⟩ h.regular

/-- Both routes from a text to a value agree: a text that is read as a value is also read as plain
data, and their value is the same with sorted keys, which equals it. A value whose numbers are finite
equals the value of its plain data; their text is read as that value if the value nests at most 127
levels deep, and is refused for its brackets otherwise. -/
theorem routes_agree :
    (∀ (text : String) (v : Value), Json.parse text = .ok v →
      ∃ p, parse text = .ok p ∧ p.toValue = v.ofPlain ∧ (p.toValue == v) = true) ∧
    ∀ v : Value, AllDecodable v.walk → ((ofValue v).toValue == v) = true ∧
      (v.nesting < Json.depthLimit →
        Json.parse (ofValue v).text = .ok (ofValue v).toValue) ∧
      (Json.depthLimit ≤ v.nesting →
        ∃ e, Json.parse (ofValue v).text = .error e ∧ e.cause = .tooDeep) := by
  constructor
  · intro text v h
    obtain ⟨p, hp, hvalue⟩ := exists_parse h
    have hnan := Value.hasNaN_of_allDecodable (allDecodable_of_parse h)
    refine ⟨p, hp, hvalue, ?_⟩
    rw [hvalue]
    exact (Value.sortKeys_beq_iff v).mpr hnan
  · intro v h
    refine ⟨toValue_ofValue_beq h, fun hdepth => ?_, fun hdepth => ?_⟩
    · rw [text_ofValue h, toValue_ofValue h]
      exact Json.parse_text ⟨0, true⟩ h hdepth
    · rw [text_ofValue h]
      exact Json.parse_tooDeep ⟨0, true⟩ h hdepth

/-- A text with a key twice, a value with keys out of order and a zero, and brackets at the limit. -/
theorem routes_agree_repeated_key :
    let text := "\x7b\"b\":null,\"a\":[],\"b\":[]\x7d"
    let read : Value := .object [("b", .array []), ("a", .array [])]
    let v : Value := .array [.object [("b", .null), ("a", .number (.ofBits 0))]]
    let deep : Value := (fun v => Value.array [v])^[128] .null
    (∃ p, parse text = .ok p ∧ p.toValue = read.ofPlain ∧ (p.toValue == read) = true) ∧
      ((ofValue v).toValue == v) = true ∧
      Json.parse (ofValue v).text = .ok (ofValue v).toValue ∧
      ∃ e, Json.parse (ofValue deep).text = .error e ∧ e.cause = .tooDeep := by
  intro text read v deep
  have hchars : text.toList = ['\x7b', '"', 'b', '"', ':', 'n', 'u', 'l', 'l', ',', '"', 'a', '"',
      ':', '[', ']', ',', '"', 'b', '"', ':', '[', ']', '\x7d'] := by decide
  have htakes : Json.Takes (Json.readValue Json.depthLimit text.toList) read [] := by
    rw [hchars]
    exact ⟨by decide, by cbv⟩
  have hread : Json.parse text = .ok read := Document.parse_of_takes htakes
  have hv : ∀ w ∈ v.walk, w.Decodable := by decide +kernel
  have hdeep : ∀ w ∈ deep.walk, w.Decodable := by decide +kernel
  have hshallow : v.nesting < Json.depthLimit := by decide
  have hlimit : Json.depthLimit ≤ deep.nesting := by decide +kernel
  obtain ⟨htext, hvalue⟩ := routes_agree
  exact ⟨htext text read hread, (hvalue v hv).1, (hvalue v hv).2.1 hshallow,
    (hvalue deep hdeep).2.2 hlimit⟩

/-- The text of the plain data of a value that nests 128 levels deep is not read as a value at all. -/
theorem text_of_deep_value_refused :
    let v : Value := (fun v => Value.array [v])^[128] .null
    (∀ w ∈ v.walk, w.Decodable) ∧
      ¬∃ w, Json.parse (ofValue v).text = .ok w ∧ (w == v) = true := by
  intro v
  have hv : ∀ w ∈ v.walk, w.Decodable := by decide +kernel
  have hlimit : Json.depthLimit ≤ v.nesting := by decide +kernel
  refine ⟨hv, ?_⟩
  rintro ⟨w, hread, -⟩
  obtain ⟨e, herror, -⟩ := Json.parse_tooDeep ⟨0, true⟩ hv hlimit
  rw [text_ofValue hv, herror] at hread
  cases hread

end JsonFilter.Plain
