import JsonFilter.Proofs.Json.Cursor

/-!
The limit on nesting. The text of a value that nests as many levels as the reader has left, or more,
is refused for that alone: what comes before the first bracket too many is read, and nothing after
it is looked at. The text of a value that nests less deeply is read as the value.
-/

namespace JsonFilter.Json

/-- A reader stops because there are too many brackets inside each other. -/
def TooDeep {α : Type} {s : List Char} (x : Reading α s) : Prop :=
  ∃ f, x = .error f ∧ f.cause = .tooDeep

variable {s t u w cs whole : List Char} {c : Char} {depth : Nat}

/-! ## Brackets -/

theorem readValue_tooDeep (hdepth : depth ≤ 1) (h : skipBlanks s = c :: t)
    (hc : c = '[' ∨ c = '\x7b') : TooDeep (readValue depth s) := by
  unfold readValue
  split
  · next heq => cases heq.symm.trans h
  · next heq =>
    obtain ⟨rfl, rfl⟩ := List.cons.inj (heq.symm.trans h)
    rcases hc with rfl | rfl
    · rw [if_neg (by decide), if_neg (by decide), if_neg (by decide), if_neg (by decide),
        if_neg (by decide), if_pos rfl, if_pos hdepth]
      exact ⟨_, rfl, rfl⟩
    · rw [if_neg (by decide), if_neg (by decide), if_neg (by decide), if_neg (by decide),
        if_neg (by decide), if_neg (by decide), if_pos rfl, if_pos hdepth]
      exact ⟨_, rfl, rfl⟩

section
variable (hdepth : 1 < depth)
include hdepth

theorem readValue_array_tooDeep (h : skipBlanks s = '[' :: t) (ht : skipBlanks t = c :: u)
    (hc : c ≠ ']') (hitems : TooDeep (readItems (depth - 1) [] t (Front.whole_le _))) :
    TooDeep (readValue depth s) := by
  obtain ⟨f, hitems, hcause⟩ := hitems
  rw [readValue_openBracket hdepth h, readEnclosed_of_cons ht hc, hitems]
  exact ⟨f, rfl, hcause⟩

theorem readValue_object_tooDeep (h : skipBlanks s = '\x7b' :: t) (ht : skipBlanks t = c :: u)
    (hc : c ≠ '\x7d') (hfields : TooDeep (readFields (depth - 1) [] t (Front.whole_le _))) :
    TooDeep (readValue depth s) := by
  obtain ⟨f, hfields, hcause⟩ := hfields
  rw [readValue_openBrace hdepth h, readEnclosed_of_cons ht hc, hfields]
  exact ⟨f, rfl, hcause⟩

end

/-! ## Items and fields -/

section
variable {v : Value} {key : String}

theorem readItems_tooDeep_head {taken : List Value} (hle : s.length ≤ whole.length)
    (hv : TooDeep (readValue depth s)) :
    TooDeep (readItems depth taken s hle : Reading (List Value) whole) := by
  obtain ⟨f, hv, hcause⟩ := hv
  rw [readItems, hv]
  exact ⟨f, rfl, hcause⟩

theorem readItems_tooDeep_tail {taken : List Value} (hle : s.length ≤ whole.length)
    (hv : Takes (readValue depth s) v t) (ht : skipBlanks t = ',' :: u)
    (hu : skipBlanks u = c :: cs) (hc : c ≠ ']')
    (hvs : ∀ hle, TooDeep (readItems depth (v :: taken) u hle : Reading (List Value) whole)) :
    TooDeep (readItems depth taken s hle : Reading (List Value) whole) := by
  obtain ⟨hshort, hv⟩ := hv
  obtain ⟨hrest, hseparator⟩ := readListSeparator_more ht hu hc
  obtain ⟨f, hvs, hcause⟩ := hvs (by omega)
  refine ⟨f, ?_, hcause⟩
  rw [readItems, hv]
  simp only [hseparator, if_true, hvs]

theorem readFields_tooDeep_head {taken : Fields Value} (hle : s.length ≤ whole.length)
    (hkey : Takes (readKey s) key u) (hv : TooDeep (readValue depth u)) :
    TooDeep (readFields depth taken s hle : Reading (Fields Value) whole) := by
  obtain ⟨hcolon, hkey⟩ := hkey
  obtain ⟨f, hv, hcause⟩ := hv
  refine ⟨f, ?_, hcause⟩
  rw [readFields, hkey]
  simp only [hv]

theorem readFields_tooDeep_tail {taken : Fields Value} (hle : s.length ≤ whole.length)
    (hkey : Takes (readKey s) key u) (hv : Takes (readValue depth u) v t)
    (ht : skipBlanks t = ',' :: w) (hw : skipBlanks w = '"' :: cs)
    (hfields : ∀ hle, TooDeep (readFields depth (taken.insert key v) w hle :
      Reading (Fields Value) whole)) :
    TooDeep (readFields depth taken s hle : Reading (Fields Value) whole) := by
  obtain ⟨hcolon, hkey⟩ := hkey
  obtain ⟨hshort, hv⟩ := hv
  obtain ⟨hrest, hseparator⟩ := readFieldSeparator_more ht hw
  obtain ⟨f, hfields, hcause⟩ := hfields (by omega)
  refine ⟨f, ?_, hcause⟩
  rw [readFields, hkey]
  simp only [hv, hseparator, if_true, hfields]

end

end JsonFilter.Json

namespace JsonFilter.Value

open Json
open Token (Ends closers)

/-! ## Texts -/

/-- The text of a value is refused, with white space before it and anything after it where a value
can end. -/
def Refused (indent level depth : Nat) (v : Value) : Prop :=
  ∀ s rest, Ends rest → skipBlanks s = chars indent level v ++ rest → TooDeep (readValue depth s)

mutual

/-- A value that nests as deeply as the limit is refused. -/
theorem refused (indent : Nat) : ∀ (v : Value) (level depth : Nat), AllDecodable v.walk →
    0 < depth → depth ≤ v.nesting → v.Refused indent level depth
  | .null, _, _, _, hpos, hdepth => absurd hdepth (Nat.not_le.mpr hpos)
  | .bool _, _, _, _, hpos, hdepth => absurd hdepth (Nat.not_le.mpr hpos)
  | .number _, _, _, _, hpos, hdepth => absurd hdepth (Nat.not_le.mpr hpos)
  | .string _, _, _, _, hpos, hdepth => absurd hdepth (Nat.not_le.mpr hpos)
  | .array [], _, _, _, _, hdepth => fun _ _ _ hs => readValue_tooDeep hdepth hs (.inl rfl)
  | .array (v :: vs), level, depth, h, _, hdepth => by
    intro s rest _ hs
    simp only [nesting, nestingList] at hdepth
    obtain ⟨hv, hvs⟩ := h.tail.split
    simp only [chars, List.cons_append, List.append_assoc, List.nil_append] at hs
    rcases Nat.lt_or_ge 1 depth with hlt | hge
    · have hskip := skipBlanks_break indent (level + 1) hv.self
        (itemChars indent (level + 1) vs ++ (lineBreak indent level ++ ']' :: rest))
      obtain ⟨c, cs, _, hchars, hc⟩ := skipBlanks_chars indent (level + 1) hv.self
        (itemChars indent (level + 1) vs ++ (lineBreak indent level ++ ']' :: rest))
      refine readValue_array_tooDeep hlt hs (hskip.trans hchars.symm) hc ?_
      exact readItems_refused indent vs (level + 1) (depth - 1) level [] _ hv
        (refused indent v (level + 1) (depth - 1) hv (by omega)) hvs (by omega) (by omega) hskip
    · exact readValue_tooDeep hge hs (.inl rfl)
  | .object [], _, _, _, _, hdepth => fun _ _ _ hs => readValue_tooDeep hdepth hs (.inr rfl)
  | .object ((k, v) :: fs), level, depth, h, _, hdepth => by
    intro s rest _ hs
    simp only [nesting, nestingFields] at hdepth
    obtain ⟨hv, hfs⟩ := h.tail.split
    simp only [chars, List.cons_append, List.append_assoc, List.nil_append] at hs
    rcases Nat.lt_or_ge 1 depth with hlt | hge
    · have hskip := skipBlanks_key indent (level + 1) k
      refine readValue_object_tooDeep hlt hs (hskip _) (by decide) ?_
      exact readFields_refused indent fs (level + 1) (depth - 1) level [] _ hv
        (refused indent v (level + 1) (depth - 1) hv (by omega)) hfs (by omega) (by omega)
        (hskip _)
    · exact readValue_tooDeep hge hs (.inr rfl)

/-- Of items one of which nests too deeply, those before are read; the first is told by what is
known of it. -/
theorem readItems_refused (indent : Nat) : ∀ (vs : List Value) (level depth outer : Nat)
    {v : Value} {whole s rest : List Char} (taken : List Value) (hle : s.length ≤ whole.length),
    AllDecodable v.walk → (depth ≤ v.nesting → v.Refused indent level depth) →
    AllDecodable (walkList vs) → 0 < depth → depth ≤ max v.nesting (nestingList vs) →
    skipBlanks s = chars indent level v ++
      (itemChars indent level vs ++ (lineBreak indent outer ++ ']' :: rest)) →
    TooDeep (readItems depth taken s hle : Reading (List Value) whole)
  | [], level, depth, outer, _, _, s, rest, _, hle, _, hrefused, _, _, hdepth, hs => by
    have hends := ends_lineBreak indent outer (show ']' ∈ closers by decide) rest
    rw [nestingList, Nat.max_zero] at hdepth
    exact readItems_tooDeep_head hle (hrefused hdepth s _ hends hs)
  | w :: ws, level, depth, outer, v, _, s, rest, _, hle, hv, hrefused, hvs, hpos, hdepth, hs => by
    rw [nestingList] at hdepth
    obtain ⟨hw, hws⟩ := hvs.split
    have hends := ends_itemChars indent level (w :: ws)
      (ends_lineBreak indent outer (show ']' ∈ closers by decide) rest)
    rcases Nat.lt_or_ge v.nesting depth with hlt | hge
    · have htail := readable indent v level depth hv hlt s _ hends hs
      simp only [itemChars, List.cons_append, List.append_assoc] at htail
      have hskip := skipBlanks_break indent level hw.self
        (itemChars indent level ws ++ (lineBreak indent outer ++ ']' :: rest))
      obtain ⟨c, cs, _, hchars, hc⟩ := skipBlanks_chars indent level hw.self
        (itemChars indent level ws ++ (lineBreak indent outer ++ ']' :: rest))
      refine readItems_tooDeep_tail hle htail (skipBlanks_cons rfl _)
        (hskip.trans hchars.symm) hc fun hle => ?_
      exact readItems_refused indent ws level depth outer _ hle hw
        (refused indent w level depth hw hpos) hws hpos (by omega) hskip
    · exact readItems_tooDeep_head hle (hrefused hge s _ hends hs)

/-- The same for fields. -/
theorem readFields_refused (indent : Nat) : ∀ (fs : List (String × Value))
    (level depth outer : Nat) {k : String} {v : Value} {whole s rest : List Char}
    (taken : Fields Value) (hle : s.length ≤ whole.length),
    AllDecodable v.walk → (depth ≤ v.nesting → v.Refused indent level depth) →
    AllDecodable (walkFields fs) → 0 < depth → depth ≤ max v.nesting (nestingFields fs) →
    skipBlanks s = Text.escaped k ++ (colon indent ++ (chars indent level v ++
      (fieldChars indent level fs ++ (lineBreak indent outer ++ '\x7d' :: rest)))) →
    TooDeep (readFields depth taken s hle : Reading (Fields Value) whole)
  | [], level, depth, outer, _, _, _, s, rest, _, hle, hv, hrefused, _, _, hdepth, hs => by
    obtain ⟨u, hkey, hu⟩ := readKey_escaped hs
    obtain ⟨c, cs, hskip, hchars, _⟩ := skipBlanks_chars indent level hv.self
      (fieldChars indent level [] ++ (lineBreak indent outer ++ '\x7d' :: rest))
    have hends := ends_lineBreak indent outer (show '\x7d' ∈ closers by decide) rest
    rw [nestingFields, Nat.max_zero] at hdepth
    exact readFields_tooDeep_head hle hkey
      (hrefused hdepth u _ hends (hu.trans (hskip.trans hchars)))
  | (j, w) :: fs, level, depth, outer, _, v, _, s, rest, _, hle, hv, hrefused, hfs, hpos, hdepth,
    hs => by
    rw [nestingFields] at hdepth
    obtain ⟨hw, hfs⟩ := hfs.split
    obtain ⟨u, hkey, hu⟩ := readKey_escaped hs
    obtain ⟨c, cs, hskip, hchars, _⟩ := skipBlanks_chars indent level hv.self
      (fieldChars indent level ((j, w) :: fs) ++ (lineBreak indent outer ++ '\x7d' :: rest))
    have hends := ends_fieldChars indent level ((j, w) :: fs)
      (ends_lineBreak indent outer (show '\x7d' ∈ closers by decide) rest)
    have htext := hu.trans (hskip.trans hchars)
    rcases Nat.lt_or_ge v.nesting depth with hlt | hge
    · have htail := readable indent v level depth hv hlt u _ hends htext
      simp only [fieldChars, List.cons_append, List.append_assoc] at htail
      refine readFields_tooDeep_tail hle hkey htail (skipBlanks_cons rfl _)
        (skipBlanks_key _ _ _ _) fun hle => ?_
      exact readFields_refused indent fs level depth outer _ hle hw
        (refused indent w level depth hw hpos) hfs hpos (by omega) (skipBlanks_key _ _ _ _)
    · exact readFields_tooDeep_head hle hkey (hrefused hge u _ hends htext)

end

/-- Nothing goes before the text of a value. -/
theorem skipBlanks_text (style : Style) {v : Value} (h : AllDecodable v.walk) :
    skipBlanks (v.text style).toList = chars style.indent 0 (v.styled style) ++ [] := by
  obtain ⟨c, cs, hskip, hchars, -⟩ := skipBlanks_chars style.indent 0 (h.styled style).self []
  rw [toList_text, ← hchars, ← hskip, List.append_nil]

end JsonFilter.Value

namespace JsonFilter.Json

open Token (ends_nil)

variable {v : Value} (style : Style) (h : Value.AllDecodable v.walk)
include h

/-- The text of a value that nests less deeply than the limit is read as the value. -/
theorem parse_text (hdepth : v.nesting < depthLimit) :
    parse (v.text style) = .ok (v.styled style).reread := by
  rw [← Value.nesting_styled style] at hdepth
  exact Document.parse_of_takes (Value.readable style.indent (v.styled style) 0 depthLimit
    (h.styled style) hdepth _ [] ends_nil (Value.skipBlanks_text style h))

/-- The text of any other value is refused. -/
theorem parse_tooDeep (hdepth : depthLimit ≤ v.nesting) :
    ∃ e, parse (v.text style) = .error e ∧ e.cause = .tooDeep := by
  rw [← Value.nesting_styled style] at hdepth
  obtain ⟨f, hread, hcause⟩ := Value.refused style.indent (v.styled style) 0 depthLimit
    (h.styled style) (by decide) hdepth _ [] ends_nil (Value.skipBlanks_text style h)
  refine ⟨f.toError (v.text style).toList, ?_, hcause⟩
  simp only [parse, hread]

end JsonFilter.Json
