import JsonFilter.Proofs.Json.Reading
import JsonFilter.Proofs.Number.Exact
import JsonFilter.Proofs.Number.Special
import JsonFilter.Proofs.Number.Unsigned
import JsonFilter.Proofs.Plain.Basic

/-!
Reading a text as plain data. The reader hands on what it finds piece by piece, integers of 64 bits as
such and every field of an object, and it is for the one who asks to make a value or plain data of
them. Reading a text as a value is reading its datum and taking the value of that.
-/

namespace JsonFilter.Number

open Float.Model

theorem isFinite_of_toRat? {x : Number} {p : ℚ} (h : x.toRat? = some p) : x.isFinite = true := by
  show x.toFloat.toModel.unpack.isFinite = true
  obtain ⟨⟨s, hu⟩, -⟩ | ⟨s, m, e, hc, hu, -⟩ := unpack_of_toRat? h
  · rw [hu]
    rfl
  · rw [hu]
    rfl

theorem isFinite_neg {x : Number} (h : x.isFinite = true) : (-x).isFinite = true := by
  obtain ⟨p, hp⟩ := exists_toRat? h
  show (Float.Model.pack x.toFloat.toModel.unpack.neg).unpack.isFinite = true
  obtain ⟨⟨s, hu⟩, -⟩ | ⟨s, m, e, hc, hu, -⟩ := unpack_of_toRat? hp
  · rw [hu]
    cases s <;> rfl
  · rw [hu]
    cases s with
    | positive => exact congrArg UnpackedFloat.isFinite (Binary.unpack_pack .negative hc)
    | negative => exact congrArg UnpackedFloat.isFinite (Binary.unpack_pack .positive hc)

/-- The integers of 64 bits are rounded to finite numbers. -/
theorem isFinite_ofInt {n : Int} (h : |n| ≤ 2 ^ 64) : (ofInt n).isFinite = true := by
  have hrat : |(n : ℚ)| ≤ 2 ^ (64 : Int) := by exact_mod_cast h
  have hmost := hrat.trans (Binary.two_zpow_le_greatest (by norm_num))
  obtain ⟨r, hr, -⟩ := exists_toRat?_of_rounds (rounds_ofInt hmost)
  exact isFinite_of_toRat? hr

theorem isInfinite_of_isFinite {x : Number} (h : x.isFinite = true) : x.isInfinite = false := by
  obtain ⟨d, hd⟩ := exists_dyadic h
  exact isInfinite_of_dyadic? hd

/-- The value of a numeral is no NaN. -/
theorem isFinite_value {n : Numeral} (h : n.value.isInfinite = false) : n.value.isFinite = true := by
  obtain hu | ⟨d, hd, -⟩ := eq_infinity_or_dyadic
    (isUnsigned_value (n := { n with negative := false }) rfl)
  · have hinf : n.value.isInfinite = true := by
      have hvalue : n.value = if n.negative then -infinity else infinity := by
        rw [← hu]
        rfl
      rw [hvalue]
      split
      · show (-infinity).toFloat.toModel.unpack.isInf = true
        rw [unpack_neg_infinity]; rfl
      · rfl
    rw [hinf] at h
    cases h
  · have hfinite := isFinite_of_toRat? (toRat?_of_dyadic? hd)
    have hvalue : n.value = if n.negative then -(Numeral.value { n with negative := false })
        else Numeral.value { n with negative := false } := rfl
    rw [hvalue]
    split
    · exact isFinite_neg hfinite
    · exact hfinite

end JsonFilter.Number

namespace JsonFilter.Json

/-! ## Numbers -/

/-- An integer of 64 bits by its size and its sign. A zero with a sign is none. -/
def Figure.ofDigits? (negative : Bool) (n : Nat) : Option Figure :=
  if negative then
    if h : 0 < n ∧ n ≤ Nat.pow 2 63 then
      some (.negative (-n) (by
        have hmin : Number.minInt = -Nat.pow 2 63 := rfl
        omega) (by omega))
    else none
  else if h : n < Nat.pow 2 64 then some (.natural n h)
  else none

/-- The figure of a numeral: an integer of 64 bits if it is written as one, and otherwise the number
nearest to it, unless that is infinite. -/
def Figure.ofNumeral? (n : Numeral) (integral : Bool) : Option Figure :=
  match if integral then ofDigits? n.negative (Numeral.digitsValue n.whole) else none with
  | some i => some i
  | none => if h : n.value.isFinite then some (.float n.value h) else none

/-- Takes a numeral after its sign: as an integer if it has neither a fraction nor a power of ten. -/
def readFigureOf (negative : Bool) (s : List Char) : Except Failure (Figure × List Char) := do
  let (whole, s) ← readWhole s
  let (fraction, s) ← readFraction s
  let isZero := (whole ++ fraction).all (· == '0')
  let (exponent, r) ← readExponent isZero s
  let integral := fraction.isEmpty && r.length == s.length
  match Figure.ofNumeral? ⟨negative, whole, fraction, exponent⟩ integral with
  | some n => return (n, r)
  | none => stop .numberOutOfRange r

/-- Takes a number. -/
def readFigure : List Char → Except Failure (Figure × List Char)
  | '-' :: cs => readFigureOf true cs
  | s => readFigureOf false s

theorem Figure.isFinite_toNumber : ∀ n : Figure, n.toNumber.isFinite = true
  | .natural n h => Number.isFinite_ofInt (n := n) (by
      rw [abs_of_nonneg (Int.natCast_nonneg n)]
      exact_mod_cast h.le)
  | .negative n low h => Number.isFinite_ofInt (by
      rw [abs_of_neg h]
      rw [Number.minInt_eq] at low
      omega)
  | .float x h => h

/-- The figure of some digits is the number nearest to them. -/
theorem Figure.toNumber_of_ofDigits? {negative : Bool} {digits : List Char} {n : Figure}
    (h : ofDigits? negative (Numeral.digitsValue digits) = some n) :
    n.toNumber = Numeral.value ⟨negative, digits, [], 0⟩ := by
  have hvalue : Numeral.value ⟨negative, digits, [], 0⟩ =
      if negative then -Number.ofNat (Numeral.digitsValue digits)
      else Number.ofNat (Numeral.digitsValue digits) := by
    unfold Numeral.value
    dsimp only
    rw [List.append_nil]
    rfl
  rw [hvalue]
  unfold ofDigits? at h
  split at h
  · next hneg =>
    split at h
    · next hrange =>
      obtain rfl := Option.some.inj h
      rw [if_pos hneg]
      obtain ⟨k, hk⟩ := Nat.exists_eq_succ_of_ne_zero hrange.1.ne'
      show Number.ofInt (-(Numeral.digitsValue digits : Int)) = _
      rw [hk]
      rfl
    · cases h
  · next hpos =>
    split at h
    · obtain rfl := Option.some.inj h
      rw [if_neg hpos]
      rfl
    · cases h

/-- The figure of a numeral is the number nearest to it, and there is none if that is infinite. -/
theorem Figure.map_ofNumeral? {n : Numeral} {integral : Bool}
    (h : integral = true → n.fraction = [] ∧ n.exponent = 0) :
    (ofNumeral? n integral).map toNumber = if n.value.isInfinite then none else some n.value := by
  have hfloat : (if h : n.value.isFinite then some (Figure.float n.value h) else none).map toNumber =
      if n.value.isInfinite then none else some n.value := by
    split
    · next hfinite => rw [Number.isInfinite_of_isFinite hfinite]; rfl
    · next hfinite =>
      rw [if_pos (by_contra fun hinf => hfinite (Number.isFinite_value (by simpa using hinf)))]
      rfl
  unfold ofNumeral?
  split
  · next i hi =>
    split at hi
    · next hintegral =>
      obtain ⟨negative, whole, fraction, exponent⟩ := n
      obtain ⟨rfl, rfl⟩ := h hintegral
      have hvalue := toNumber_of_ofDigits? hi
      rw [Option.map_some, ← hvalue, Number.isInfinite_of_isFinite i.isFinite_toNumber]
      rfl
    · cases hi
  · exact hfloat

/-- Where no character is taken there is no power of ten. -/
theorem exponent_eq_zero_of_length {isZero : Bool} {s r : List Char} {e : Int}
    (h : readExponent isZero s = .ok (e, r)) (hlength : r.length = s.length) : e = 0 := by
  unfold readExponent at h
  split at h
  · exact (Prod.mk.inj (Except.ok.inj h)).1.symm
  · next c cs =>
    have h₁ := length_scanSign_le cs
    have h₂ := length_dropWhile_le Char.isDigit (Numeral.scanSign cs).2
    rw [List.length_cons] at hlength
    split at h
    · dsimp only at h
      repeat' split at h
      all_goals simp_all [unexpected, stop]
      all_goals omega
    · exact (Prod.mk.inj (Except.ok.inj h)).1.symm

theorem readNumeral_eq (negative : Bool) (s : List Char) : readNumeral negative s =
    (readFigureOf negative s).map fun n => (n.1.toNumber, n.2) := by
  unfold readNumeral readFigureOf
  cases readWhole s with
  | error e => rfl
  | ok w =>
    obtain ⟨whole, s₁⟩ := w
    simp only [bind, Except.bind]
    cases readFraction s₁ with
    | error e => rfl
    | ok f =>
      obtain ⟨fraction, s₂⟩ := f
      dsimp only
      cases hexponent : readExponent ((whole ++ fraction).all (· == '0')) s₂ with
      | error e => rfl
      | ok x =>
        obtain ⟨exponent, r⟩ := x
        dsimp only
        have hintegral (h : (fraction.isEmpty && r.length == s₂.length) = true) :
            fraction = [] ∧ exponent = 0 := by
          obtain ⟨hempty, hlength⟩ := Bool.and_eq_true_iff.mp h
          exact ⟨List.isEmpty_iff.mp hempty,
            exponent_eq_zero_of_length hexponent (eq_of_beq hlength)⟩
        have hfigure :=
          Figure.map_ofNumeral? (n := ⟨negative, whole, fraction, exponent⟩) hintegral
        cases hn : Figure.ofNumeral? ⟨negative, whole, fraction, exponent⟩
            (fraction.isEmpty && r.length == s₂.length) with
        | none =>
          rw [hn] at hfigure
          split at hfigure
          · next hinf => rw [if_pos hinf]; rfl
          · cases hfigure
        | some n =>
          rw [hn] at hfigure
          split at hfigure
          · cases hfigure
          · next hinf =>
            rw [if_neg hinf, ← Option.some.inj hfigure]
            rfl

/-- What is read as a figure is the number that is read, as it is written. -/
theorem readNumber_eq (s : List Char) :
    readNumber s = (readFigure s).map fun n => (n.1.toNumber, n.2) := by
  unfold readNumber
  split
  · exact readNumeral_eq true _
  · next hsign =>
    have hfigure : readFigure s = readFigureOf false s := by
      unfold readFigure
      split
      · next cs => exact (hsign cs rfl).elim
      · rfl
    rw [hfigure]
    exact readNumeral_eq false s

theorem readFigure_shorter {s r : List Char} {n : Figure} (h : readFigure s = .ok (n, r)) :
    r.length < s.length := by
  have hnumber := readNumber_eq s
  rw [h] at hnumber
  exact readNumber_shorter hnumber

/-! ## Data -/

theorem lt_of_word {s r : List Char} (hr : r.length < s.length)
    (t : { u : List Char // u.length ≤ r.length }) : t.1.length < s.length :=
  Nat.lt_of_le_of_lt t.2 hr

theorem length_le_of_lt {s r : List Char} (hr : r.length < s.length) : r.length ≤ s.length :=
  Nat.le_of_lt hr

mutual

/-- Takes a datum with at most `depth - 1` levels of brackets. -/
def readDatum (depth : Nat) (s : List Char) : Reading Datum s :=
  match h : skipBlanks s with
  | [] => stop .endInValue []
  | c :: r =>
    have hr : r.length < s.length := length_lt_of_skipBlanks h
    if c = 'n' then (readWord ['u', 'l', 'l'] r).map fun t => ⟨.null, t.1, lt_of_word hr t⟩
    else if c = 't' then
      (readWord ['r', 'u', 'e'] r).map fun t => ⟨.bool true, t.1, lt_of_word hr t⟩
    else if c = 'f' then
      (readWord ['a', 'l', 's', 'e'] r).map fun t => ⟨.bool false, t.1, lt_of_word hr t⟩
    else if c = '-' ∨ c.isDigit then
      match hn : readFigure (c :: r) with
      | .error e => .error e
      | .ok (n, t) => .ok ⟨.number n, t, by
          have := readFigure_shorter hn
          simp only [List.length_cons] at this
          omega⟩
    else if c = '"' then
      match readString r with
      | .error e => .error e
      | .ok text => .ok ((text.map Datum.string).widen (length_le_of_lt hr))
    else if c = '[' then
      if depth ≤ 1 then unexpected .tooDeep (c :: r)
      else
        (readEnclosed ']' .endInList (.array [])
          ((readData (depth - 1) [] r (Front.whole_le _)).map (Front.map .array))).map
            (Front.widen (length_le_of_lt hr))
    else if c = '\x7b' then
      if depth ≤ 1 then unexpected .tooDeep (c :: r)
      else
        (readEnclosed '\x7d' .endInObject (.object [])
          ((readEntries (depth - 1) [] r (Front.whole_le _)).map (Front.map .object))).map
            (Front.widen (length_le_of_lt hr))
    else unexpected .valueExpected (c :: r)
termination_by (s.length, 0)

/-- Takes the items up to the closing bracket; `taken` holds those before, last first. -/
def readData {whole : List Char} (depth : Nat) (taken : List Datum) (s : List Char)
    (h : s.length ≤ whole.length) : Reading (List Datum) whole :=
  match readDatum depth s with
  | .error e => .error e
  | .ok d =>
    have := d.shorter
    match readListSeparator d.rest with
    | .error e => .error e
    | .ok more =>
      have := more.shorter
      if more.value then readData depth (d.value :: taken) more.rest (by omega)
      else .ok ⟨(d.value :: taken).reverse, more.rest, by omega⟩
termination_by (s.length, 1)

/-- Takes the fields up to the closing brace; `taken` holds those before, last first. -/
def readEntries {whole : List Char} (depth : Nat) (taken : List (String × Datum)) (s : List Char)
    (h : s.length ≤ whole.length) : Reading (List (String × Datum)) whole :=
  match readKey s with
  | .error e => .error e
  | .ok key =>
    have := key.shorter
    match readDatum depth key.rest with
    | .error e => .error e
    | .ok d =>
      have := d.shorter
      match readFieldSeparator d.rest with
      | .error e => .error e
      | .ok more =>
        have := more.shorter
        if more.value then readEntries depth ((key.value, d.value) :: taken) more.rest (by omega)
        else .ok ⟨((key.value, d.value) :: taken).reverse, more.rest, by omega⟩
termination_by (s.length, 1)

end

/-- Reads a text that is one datum. -/
def parseDatum (text : String) : Except Error Datum :=
  let s := text.toList
  match readDatum depthLimit s with
  | .error f => .error (f.toError s)
  | .ok d =>
    match atEnd d.rest with
    | .error f => .error (f.toError s)
    | .ok () => .ok d.value

/-! ## Values -/

section

open Datum

/-- The fields of an object that have been read, last first, as they are set one after the other. -/
def fieldsOf (taken : List (String × Datum)) : Fields Value :=
  Fields.insertAll [] (toFields taken.reverse)

theorem fieldsOf_cons (key : String) (d : Datum) (taken : List (String × Datum)) :
    fieldsOf ((key, d) :: taken) = (fieldsOf taken).insert key d.toValue := by
  rw [fieldsOf, fieldsOf, toFields_eq_map, toFields_eq_map, List.reverse_cons, List.map_append,
    Fields.insertAll, List.foldl_append]
  rfl

mutual

/-- The reader of values takes what the reader of data takes, as a value. -/
theorem readValue_eq (depth : Nat) (s : List Char) :
    readValue depth s = (readDatum depth s).map (Front.map toValue) := by
  unfold readValue
  split
  · next hskip =>
    unfold readDatum
    split
    · rfl
    · next hskip' => cases hskip.symm.trans hskip'
  · next c r hskip =>
    have hr : r.length < s.length := length_lt_of_skipBlanks hskip
    symm
    unfold readDatum
    split
    · next hskip' => cases hskip.symm.trans hskip'
    next hskip' =>
    obtain ⟨rfl, rfl⟩ := List.cons.inj (hskip.symm.trans hskip')
    dsimp only
    split
    · cases readWord ['u', 'l', 'l'] r <;> rfl
    split
    · cases readWord ['r', 'u', 'e'] r <;> rfl
    split
    · cases readWord ['a', 'l', 's', 'e'] r <;> rfl
    split
    · have hnumber := readNumber_eq (c :: r)
      split
      · next e hfigure =>
        rw [hfigure] at hnumber
        split
        · next e' hnumber' => rw [Except.error.inj (hnumber'.symm.trans hnumber)]; rfl
        · next hnumber' => cases hnumber'.symm.trans hnumber
      · next n t hfigure =>
        rw [hfigure] at hnumber
        split
        · next hnumber' => cases hnumber'.symm.trans hnumber
        · next x t' hnumber' =>
          obtain ⟨rfl, rfl⟩ := Prod.mk.inj (Except.ok.inj (hnumber'.symm.trans hnumber))
          rfl
    split
    · cases readString r <;> rfl
    split
    · split
      · rfl
      split
      · next t hclose => rw [readEnclosed_of_close hclose]; rfl
      · next hend => rw [readEnclosed_of_nil hend]; rfl
      · next hclose hend =>
        have hread : (readItems (depth - 1) [] r (Front.whole_le r) : Reading _ r) = _ :=
          readItems_eq (depth - 1) [] r (Front.whole_le r)
        rw [readEnclosed_of_inner hclose hend, hread]
        cases (readData (depth - 1) [] r (Front.whole_le r) : Reading (List Datum) r) <;> rfl
    split
    · split
      · rfl
      split
      · next t hclose => rw [readEnclosed_of_close hclose]; rfl
      · next hend => rw [readEnclosed_of_nil hend]; rfl
      · next hclose hend =>
        have hread : (readFields (depth - 1) [] r (Front.whole_le r) : Reading _ r) = _ :=
          readFields_eq (depth - 1) [] r (Front.whole_le r)
        rw [readEnclosed_of_inner hclose hend, hread]
        cases (readEntries (depth - 1) [] r (Front.whole_le r) :
          Reading (List (String × Datum)) r) <;> rfl
    · rfl
termination_by (s.length, 0)

/-- The same for the items of a list, after those that were taken. -/
theorem readItems_eq {whole : List Char} (depth : Nat) (taken : List Datum) (s : List Char)
    (h : s.length ≤ whole.length) : (readItems depth (toValues taken) s h : Reading _ whole) =
      (readData depth taken s h).map (Front.map toValues) := by
  rw [readItems, readData, readValue_eq depth s]
  cases readDatum depth s with
  | error e => rfl
  | ok d =>
    have := d.shorter
    simp only [Except.map, Front.map]
    cases readListSeparator d.rest with
    | error e => rfl
    | ok more =>
      have := more.shorter
      dsimp only
      split
      · exact readItems_eq depth (d.value :: taken) more.rest _
      · simp only [toValues_eq_map, ← List.map_cons, ← List.map_reverse]
termination_by (s.length, 1)

/-- The same for the fields of an object, after those that were taken. -/
theorem readFields_eq {whole : List Char} (depth : Nat) (taken : List (String × Datum)) (s : List Char)
    (h : s.length ≤ whole.length) : (readFields depth (fieldsOf taken) s h : Reading _ whole) =
      (readEntries depth taken s h).map (Front.map fun fs => Fields.insertAll [] (toFields fs)) := by
  rw [readFields, readEntries]
  cases readKey s with
  | error e => rfl
  | ok key =>
    have := key.shorter
    dsimp only
    rw [readValue_eq depth key.rest]
    cases readDatum depth key.rest with
    | error e => rfl
    | ok d =>
      have := d.shorter
      simp only [Except.map, Front.map]
      cases readFieldSeparator d.rest with
      | error e => rfl
      | ok more =>
        have := more.shorter
        dsimp only
        rw [← fieldsOf_cons]
        split
        · exact readFields_eq depth ((key.value, d.value) :: taken) more.rest _
        · rfl
termination_by (s.length, 1)

end

/-- A text is read as the value of the datum that it is read as, or refused for the same reason. -/
theorem parse_eq (text : String) : parse text = (parseDatum text).map toValue := by
  unfold parse parseDatum
  dsimp only
  rw [readValue_eq]
  cases readDatum depthLimit text.toList with
  | error f => rfl
  | ok d =>
    dsimp only [Except.map, Front.map]
    cases atEnd d.rest <;> rfl

end

end JsonFilter.Json

/-- Reads a text as plain data. -/
def JsonFilter.Plain.parse (text : String) : Except JsonFilter.Json.Error JsonFilter.Plain :=
  (JsonFilter.Json.parseDatum text).map JsonFilter.Plain.ofDatum
