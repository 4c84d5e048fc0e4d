import JsonFilter.Proofs.Json.Decoding

/-!
Where a reader of JSON looks. What it takes is told by the characters that it takes and by the first
one behind them at most. So a value is read in the same way from a longer text, as long as a number
or a word could end where the text went on, and the characters that were taken for a value are read
as this value when they stand alone.
-/

namespace JsonFilter.Json

open Token (Ends)

variable {s r : List Char}

/-! ## White space -/

theorem skipBlanks_local (s : List Char) :
    Local (fun t r => skipBlanks t = skipBlanks r) s (skipBlanks s) :=
  ⟨s.takeWhile isBlank, List.takeWhile_append_dropWhile.symm, fun r _ =>
    skipBlanks_append (fun _ hc => List.mem_takeWhile_imp hc) r⟩

theorem isBlank_of_skipBlanks {c : Char} (h : skipBlanks s = c :: r) : isBlank c = false :=
  Halts.dropWhile isBlank s c r h

theorem skipBlanks_cons_local {c : Char} (h : skipBlanks s = c :: r) :
    Local (fun t r => skipBlanks t = c :: r) s r := by
  refine ((h ▸ skipBlanks_local s).comp (Local.front [c] r)).imp ?_
  rintro t u ⟨_, hskip, rfl⟩
  exact hskip.trans (skipBlanks_cons (isBlank_of_skipBlanks h) u)

theorem skipBlanks_append_of_cons {c : Char} (h : skipBlanks s = c :: r) (rest : List Char) :
    skipBlanks (s ++ rest) = c :: (r ++ rest) := by
  rw [skipBlanks] at h ⊢
  rw [List.dropWhile_append, h]
  rfl

theorem isBlank_of_number {c : Char} (h : c = '-' ∨ c.isDigit) : isBlank c = false := by
  rcases h with rfl | h
  · rfl
  · have hdigit : ∀ d ∈ Numeral.digits, isBlank d = false := List.all_iff_forall_prop.mp rfl
    exact hdigit c (Numeral.mem_digits h)

/-! ## Words -/

theorem readWord_local {word : List Char} {t : { r : List Char // r.length ≤ s.length }}
    (h : readWord word s = .ok t) : Local (fun u r => u = word ++ r) s t.1 := by
  have heq : s = word ++ t.1 := by
    induction word generalizing s with
    | nil =>
      cases h
      rfl
    | cons w ws ih =>
      cases s with
      | nil => cases h
      | cons c cs =>
        rw [readWord] at h
        split at h
        · next hc =>
          split at h
          · next hws =>
            obtain rfl := Except.ok.inj h
            rw [hc, List.cons_append, ← ih hws]
          · cases h
        · cases h
  exact ⟨word, heq, fun _ _ => rfl⟩

/-! ## Strings -/

theorem readUnit_local {n : Front Nat s} (h : readUnit s = .ok n) :
    Local (fun t r => Takes (readUnit t) n.value r) s n.rest := by
  unfold readUnit at h
  split at h
  · next a b c d r =>
    split at h
    · next hunit =>
      obtain rfl := Except.ok.inj h
      refine ⟨[a, b, c, d], rfl, fun u _ => ?_⟩
      simp only [List.cons_append, List.nil_append, readUnit, hunit]
      exact ⟨_, rfl⟩
    · cases h
  · split at h <;> cases h

theorem readSecondUnit_local {n : Front Nat s} (h : readSecondUnit s = .ok n) :
    Local (fun t r => Takes (readSecondUnit t) n.value r) s n.rest := by
  unfold readSecondUnit at h
  split at h
  · cases h
  · cases h
  · next r =>
    split at h
    · next m hunit =>
      obtain rfl := Except.ok.inj h
      refine (((readUnit_local hunit).cons 'u').cons '\\').imp ?_
      rintro _ u ⟨_, rfl, t, rfl, hshort, hread⟩
      simp only [readSecondUnit, hread]
      exact ⟨_, rfl⟩
    · cases h
  · cases h
  · cases h

theorem readEscape_short {c d : Char} (hc : c ≠ 'u') (h : Text.shortEscape? c = some d)
    (r : List Char) : Takes (readEscape (c :: r)) d r := by
  rw [readEscape]
  · split
    · next hescape =>
      obtain rfl := Option.some.inj (hescape.symm.trans h)
      exact ⟨_, rfl⟩
    · next hescape => cases hescape.symm.trans h
  · exact hc

theorem readEscape_local {c : Front Char s} (h : readEscape s = .ok c) :
    Local (fun t r => Takes (readEscape t) c.value r) s c.rest := by
  unfold readEscape at h
  split at h
  · cases h
  · next r =>
    split at h
    · cases h
    · next first hfirst =>
      split at h
      · cases h
      · next hlow =>
        split at h
        · next hhigh =>
          split at h
          · cases h
          · next second hsecond =>
            split at h
            · next hpair =>
              obtain rfl := Except.ok.inj h
              have hunits := (readUnit_local hfirst).comp (readSecondUnit_local hsecond)
              refine (hunits.cons 'u').imp ?_
              rintro _ u ⟨_, rfl, t, ⟨_, hfirst'⟩, ⟨_, hsecond'⟩⟩
              simp only [readEscape, hfirst', hlow, hhigh, hsecond', hpair, if_true,
                Bool.false_eq_true, if_false]
              exact ⟨_, rfl⟩
            · cases h
        · next hhigh =>
          obtain rfl := Except.ok.inj h
          refine ((readUnit_local hfirst).cons 'u').imp ?_
          rintro _ u ⟨_, rfl, ⟨_, hfirst'⟩⟩
          simp only [readEscape, hfirst', hlow, hhigh, Bool.false_eq_true, if_false]
          exact ⟨_, rfl⟩
  · next c r hu =>
    split at h
    · next d hescape =>
      obtain rfl := Except.ok.inj h
      exact ⟨[c], rfl, fun u _ => readEscape_short hu hescape u⟩
    · cases h

theorem readChars_local {whole : List Char} (taken s : List Char)
    {hle : s.length ≤ whole.length} {cs : Front (List Char) whole}
    (h : readChars taken s hle = .ok cs) :
    Local (fun t r => ∀ (whole' : List Char) (hle' : t.length ≤ whole'.length),
      Takes (readChars taken t hle' : Reading (List Char) whole') cs.value r) s cs.rest := by
  unfold readChars at h
  split at h
  · cases h
  · next r _ =>
    obtain rfl := Except.ok.inj h
    refine ⟨['"'], rfl, fun u _ whole' hle' => ?_⟩
    rw [List.singleton_append] at hle'
    show Takes (readChars taken ('"' :: u) hle') _ _
    rw [readChars]
    exact ⟨_, rfl⟩
  · next r _ =>
    split at h
    · cases h
    · next c hescape =>
      have := c.shorter
      have hrest := (readEscape_local hescape).comp (readChars_local (c.value :: taken) c.rest h)
      refine (hrest.cons '\\').imp ?_
      rintro _ u ⟨t, rfl, t', hchar, hchars⟩ whole' hle'
      obtain ⟨ht, heq⟩ : ∃ ht, readChars taken ('\\' :: t) hle' = readChars (c.value :: taken) t' ht :=
        readChars_escape hchar hle'
      rw [heq]
      exact hchars whole' ht
  · next c r _ hquote hslash =>
    split at h
    · cases h
    · next hcontrol =>
      refine ((readChars_local (c :: taken) r h).cons c).imp ?_
      rintro _ u ⟨t, rfl, hchars⟩ whole' hle'
      obtain ⟨ht, heq⟩ : ∃ ht, readChars taken (c :: t) hle' = readChars (c :: taken) t ht :=
        readChars_plain hquote hslash hcontrol hle'
      rw [heq]
      exact hchars whole' ht
termination_by s.length
decreasing_by
  all_goals
    subst_vars
    simp only [List.length_cons]
    omega

theorem readString_local {text : Front String s} (h : readString s = .ok text) :
    Local (fun t r => Takes (readString t) text.value r) s text.rest := by
  unfold readString at h
  split at h
  · cases h
  · next cs hchars =>
    obtain rfl := Except.ok.inj h
    refine (readChars_local [] s hchars).imp fun t u hu => ?_
    obtain ⟨hshort, hread⟩ := hu t (Front.whole_le t)
    rw [readString, hread]
    exact ⟨_, rfl⟩

/-! ## Separators and keys -/

/-- A separator is a bracket, or a comma. -/
theorem readListSeparator_cases {more : Front Bool s} (h : readListSeparator s = .ok more) :
    more.value = false ∧ skipBlanks s = ']' :: more.rest ∨
      more.value = true ∧ skipBlanks s = ',' :: more.rest := by
  unfold readListSeparator at h
  split at h
  · cases h
  · next heq =>
    obtain rfl := Except.ok.inj h
    exact .inl ⟨rfl, heq⟩
  · next heq =>
    split at h
    · cases h
    · cases h
    · obtain rfl := Except.ok.inj h
      exact .inr ⟨rfl, heq⟩
  · cases h

theorem readFieldSeparator_cases {more : Front Bool s} (h : readFieldSeparator s = .ok more) :
    more.value = false ∧ skipBlanks s = '\x7d' :: more.rest ∨
      more.value = true ∧ skipBlanks s = ',' :: more.rest := by
  unfold readFieldSeparator at h
  split at h
  · cases h
  · next heq =>
    obtain rfl := Except.ok.inj h
    exact .inl ⟨rfl, heq⟩
  · next heq =>
    split at h
    · cases h
    · obtain rfl := Except.ok.inj h
      exact .inr ⟨rfl, heq⟩
    · cases h
    · cases h
  · cases h

/-- A key begins with a quote. -/
theorem begins_of_readKey {key : Front String s} (h : readKey s = .ok key) :
    ∃ cs, skipBlanks s = '"' :: cs := by
  unfold readKey at h
  split at h
  · next r heq => exact ⟨r, heq⟩
  · cases h
  · cases h

theorem readKey_local {key : Front String s} (h : readKey s = .ok key) :
    Local (fun t r => Takes (readKey t) key.value r) s key.rest := by
  unfold readKey at h
  split at h
  · next r heq =>
    split at h
    · cases h
    · next text hstring =>
      split at h
      · cases h
      · next hcolon =>
        obtain rfl := Except.ok.inj h
        have hparts := (skipBlanks_cons_local heq).comp
          ((readString_local hstring).comp (skipBlanks_cons_local hcolon))
        refine hparts.imp ?_
        rintro t u ⟨_, hquote, _, htext, hcolon⟩
        exact readKey_takes hquote htext hcolon
      · cases h
  · cases h
  · cases h

/-! ## Values -/

theorem ok_of_map {α β : Type} {f : α → β} {x : Except Failure α} {b : β}
    (h : x.map f = .ok b) : ∃ a, x = .ok a ∧ b = f a := by
  cases x with
  | error e => cases h
  | ok a => exact ⟨a, rfl, (Except.ok.inj h).symm⟩

/-- A value does not begin with a closing bracket. -/
theorem begins_of_readValue {depth : Nat} {v : Front Value s} (h : readValue depth s = .ok v) :
    ∃ c cs, skipBlanks s = c :: cs ∧ c ≠ ']' := by
  unfold readValue at h
  split at h
  · cases h
  · next c r heq =>
    refine ⟨c, r, heq, ?_⟩
    rintro rfl
    cases h

theorem begins_of_readItems {whole : List Char} {depth : Nat} {taken : List Value}
    {hle : s.length ≤ whole.length} {items : Front (List Value) whole}
    (h : readItems depth taken s hle = .ok items) : ∃ c cs, skipBlanks s = c :: cs ∧ c ≠ ']' := by
  unfold readItems at h
  split at h
  · cases h
  · next hvalue => exact begins_of_readValue hvalue

theorem begins_of_readFields {whole : List Char} {depth : Nat} {taken : Fields Value}
    {hle : s.length ≤ whole.length} {fields : Front (Fields Value) whole}
    (h : readFields depth taken s hle = .ok fields) : ∃ cs, skipBlanks s = '"' :: cs := by
  unfold readFields at h
  split at h
  · cases h
  · next hkey => exact begins_of_readKey hkey

mutual

/-- What is taken for a value is told by its characters and the first one behind them. -/
theorem readValue_local (depth : Nat) (s : List Char) {v : Front Value s}
    (h : readValue depth s = .ok v) :
    Local (fun t r => Takes (readValue depth t) v.value r) s v.rest := by
  unfold readValue at h
  split at h
  · cases h
  · next c r heq =>
    have hskip := skipBlanks_cons_local heq
    have hlength : r.length < s.length := length_lt_of_skipBlanks heq
    split at h
    · next hc =>
      obtain ⟨t, hword, rfl⟩ := ok_of_map h
      refine (hskip.comp (readWord_local hword)).imp ?_
      rintro t u ⟨_, hs, rfl⟩
      exact readValue_null depth (hc ▸ hs)
    split at h
    · next hc =>
      obtain ⟨t, hword, rfl⟩ := ok_of_map h
      refine (hskip.comp (readWord_local hword)).imp ?_
      rintro t u ⟨_, hs, rfl⟩
      exact readValue_true depth (hc ▸ hs)
    split at h
    · next hc =>
      obtain ⟨t, hword, rfl⟩ := ok_of_map h
      refine (hskip.comp (readWord_local hword)).imp ?_
      rintro t u ⟨_, hs, rfl⟩
      exact readValue_false depth (hc ▸ hs)
    split at h
    · split at h
      · cases h
      · next x t hnumber =>
        obtain rfl := Except.ok.inj h
        refine ((heq ▸ skipBlanks_local s).comp (readNumber_local hnumber)).imp ?_
        rintro t u ⟨_, hs, hread⟩
        obtain ⟨d, ds, rfl, hd⟩ := begins_of_readNumber hread
        have hskip := hs.trans (skipBlanks_cons (isBlank_of_number hd) ds)
        exact readValue_ofNumber depth hskip hd hread
    split at h
    · next hc =>
      split at h
      · cases h
      · next text hstring =>
        obtain rfl := Except.ok.inj h
        refine (hskip.comp (readString_local hstring)).imp ?_
        rintro t u ⟨_, hs, htext⟩
        exact readValue_ofString depth (hc ▸ hs) htext
    split at h
    · next hc =>
      split at h
      · cases h
      · next hdepth =>
        have hdepth : 1 < depth := Nat.not_le.mp hdepth
        split at h
        · next hclose =>
          obtain rfl := Except.ok.inj h
          refine (hskip.comp (skipBlanks_cons_local hclose)).imp ?_
          rintro t u ⟨_, hs, hu⟩
          exact readValue_emptyArray hdepth (hc ▸ hs) hu
        · cases h
        · split at h
          · cases h
          · next items hitems =>
            obtain rfl := Except.ok.inj h
            refine (hskip.comp (readItems_local (depth - 1) [] r hitems)).imp ?_
            rintro t u ⟨t', hs, hu⟩
            have htakes := hu t' (Front.whole_le t')
            obtain ⟨d, ds, ht', hd⟩ := begins_of_readItems htakes.2
            exact readValue_array hdepth (hc ▸ hs) ht' hd htakes
    split at h
    · next hc =>
      split at h
      · cases h
      · next hdepth =>
        have hdepth : 1 < depth := Nat.not_le.mp hdepth
        split at h
        · next hclose =>
          obtain rfl := Except.ok.inj h
          refine (hskip.comp (skipBlanks_cons_local hclose)).imp ?_
          rintro t u ⟨_, hs, hu⟩
          exact readValue_emptyObject hdepth (hc ▸ hs) hu
        · cases h
        · split at h
          · cases h
          · next fields hfields =>
            obtain rfl := Except.ok.inj h
            refine (hskip.comp (readFields_local (depth - 1) [] r hfields)).imp ?_
            rintro t u ⟨t', hs, hu⟩
            have htakes := hu t' (Front.whole_le t')
            obtain ⟨ds, ht'⟩ := begins_of_readFields htakes.2
            exact readValue_object hdepth (hc ▸ hs) ht' (by decide) htakes
    · cases h
termination_by (s.length, 0)

theorem readItems_local {whole : List Char} (depth : Nat) (taken : List Value) (s : List Char)
    {hle : s.length ≤ whole.length} {items : Front (List Value) whole}
    (h : readItems depth taken s hle = .ok items) :
    Local (fun t r => ∀ (whole' : List Char) (hle' : t.length ≤ whole'.length),
      Takes (readItems depth taken t hle' : Reading (List Value) whole') items.value r)
      s items.rest := by
  unfold readItems at h
  split at h
  · cases h
  · next v hvalue =>
    have := v.shorter
    have hv := readValue_local depth s hvalue
    dsimp only at h
    split at h
    · cases h
    · next more hseparator =>
      have := more.shorter
      rcases readListSeparator_cases hseparator with ⟨hmore, hclose⟩ | ⟨hmore, hcomma⟩
      · rw [if_neg (by rw [hmore]; decide)] at h
        obtain rfl := Except.ok.inj h
        refine (hv.comp (skipBlanks_cons_local hclose)).imp ?_
        rintro t u ⟨_, hv, hclose⟩ whole' hle'
        rw [List.reverse_cons]
        exact readItems_last hle' hv hclose
      · rw [if_pos hmore] at h
        have hitems := readItems_local depth (v.value :: taken) more.rest h
        refine (hv.comp ((skipBlanks_cons_local hcomma).comp hitems)).imp ?_
        rintro t u ⟨_, hv, t', hcomma, hitems⟩ whole' hle'
        obtain ⟨d, ds, ht', hd⟩ := begins_of_readItems (hitems t' (Front.whole_le t')).2
        exact readItems_more hle' hv hcomma ht' hd fun hle => hitems whole' hle
termination_by (s.length, 1)

theorem readFields_local {whole : List Char} (depth : Nat) (taken : Fields Value) (s : List Char)
    {hle : s.length ≤ whole.length} {fields : Front (Fields Value) whole}
    (h : readFields depth taken s hle = .ok fields) :
    Local (fun t r => ∀ (whole' : List Char) (hle' : t.length ≤ whole'.length),
      Takes (readFields depth taken t hle' : Reading (Fields Value) whole') fields.value r)
      s fields.rest := by
  unfold readFields at h
  split at h
  · cases h
  · next key hkey =>
    have := key.shorter
    dsimp only at h
    split at h
    · cases h
    · next v hvalue =>
      have := v.shorter
      have hfield := (readKey_local hkey).comp (readValue_local depth key.rest hvalue)
      split at h
      · cases h
      · next more hseparator =>
        have := more.shorter
        rcases readFieldSeparator_cases hseparator with ⟨hmore, hclose⟩ | ⟨hmore, hcomma⟩
        · rw [if_neg (by rw [hmore]; decide)] at h
          obtain rfl := Except.ok.inj h
          refine (hfield.comp (skipBlanks_cons_local hclose)).imp ?_
          rintro t u ⟨_, ⟨_, hkey, hv⟩, hclose⟩ whole' hle'
          exact readFields_last hle' hkey hv hclose
        · rw [if_pos hmore] at h
          have hfields := readFields_local depth (taken.insert key.value v.value) more.rest h
          refine (hfield.comp ((skipBlanks_cons_local hcomma).comp hfields)).imp ?_
          rintro t u ⟨_, ⟨_, hkey, hv⟩, t', hcomma, hfields⟩ whole' hle'
          obtain ⟨ds, ht'⟩ := begins_of_readFields (hfields t' (Front.whole_le t')).2
          exact readFields_more hle' hkey hv hcomma ht' fun hle => hfields whole' hle
termination_by (s.length, 1)

end

/-- A value is taken from a longer text as it is from a shorter one. -/
theorem readValue_append {rest : List Char} (hrest : Ends rest) (depth : Nat) (s : List Char)
    {v : Front Value s} (h : readValue depth s = .ok v) :
    Takes (readValue depth (s ++ rest)) v.value (v.rest ++ rest) := by
  obtain ⟨front, hfront, htakes⟩ := readValue_local depth s h
  have heq : s ++ rest = front ++ (v.rest ++ rest) := by
    rw [← List.append_assoc, ← hfront]
  rw [heq]
  exact htakes _ (.of_ends hrest v.rest)

/-- What was taken for a value is that value by itself. -/
theorem readValue_alone {depth : Nat} {v : Front Value s} (h : readValue depth s = .ok v) :
    ∃ front, s = front ++ v.rest ∧ Takes (readValue depth front) v.value [] := by
  obtain ⟨front, hfront, htakes⟩ := readValue_local depth s h
  have halone := htakes [] (.nil v.rest)
  rw [List.append_nil] at halone
  exact ⟨front, hfront, halone⟩

end JsonFilter.Json
