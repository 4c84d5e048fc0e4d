import JsonFilter.Proofs.Json.Locality
import JsonFilter.Proofs.Json.Splitting

/-!
Documents one at a time. A cursor holds how far a text is read, in bytes, and whether a malformed
document was met. Asked again and again, it cuts the text where it stands and begins anew on what is
left, and so it comes by the documents of the text. Nothing of the text is read twice or left out.
-/

namespace JsonFilter.Document

open Json

/-! ## Bytes -/

/-- What is left of a text from a byte on. There is no such text if the byte is not the first one of
a character and not the end. -/
def restAt? : Nat → List Char → Option (List Char)
  | 0, s => some s
  | _ + 1, [] => none
  | n + 1, c :: cs => if c.utf8Size ≤ n + 1 then restAt? (n + 1 - c.utf8Size) cs else none

theorem restAt?_append (before rest : List Char) :
    restAt? (byteLength before) (before ++ rest) = some rest := by
  induction before with
  | nil =>
    show restAt? 0 rest = _
    rw [restAt?]
  | cons c cs ih =>
    have hpos := c.utf8Size_pos
    obtain ⟨n, hn⟩ : ∃ n, byteLength (c :: cs) = n + 1 :=
      Nat.exists_eq_succ_of_ne_zero (by rw [byteLength_cons]; omega)
    have hle : c.utf8Size ≤ n + 1 := by rw [← hn, byteLength_cons]; omega
    have hrest : n + 1 - c.utf8Size = byteLength cs := by rw [← hn, byteLength_cons]; omega
    rw [hn, List.cons_append, restAt?, if_pos hle, hrest, ih]

theorem byteLength_toList (s : String) : byteLength s.toList = s.utf8ByteSize := by
  have hlist (cs : List Char) : byteLength cs = (String.ofList cs).utf8ByteSize := by
    induction cs with
    | nil => rfl
    | cons c cs ih =>
      rw [byteLength_cons, String.ofList_cons, String.utf8ByteSize_append,
        String.utf8ByteSize_singleton, ih]
  rw [hlist, String.ofList_toList]

/-- A character begins behind the characters of a beginning of the text, or the text ends there. -/
theorem isValid_byteLength {text : String} {before rest : List Char}
    (h : text.toList = before ++ rest) : String.Pos.Raw.IsValid text ⟨byteLength before⟩ := by
  refine String.Pos.Raw.isValid_iff_exists_append.mpr
    ⟨String.ofList before, String.ofList rest, ?_, ?_⟩
  · rw [← String.ofList_append, ← h, String.ofList_toList]
  · rw [← String.toList_ofList (l := before), byteLength_toList, String.ofList_toList]
    rfl

theorem byteLength_pos {s : List Char} (h : s ≠ []) : 0 < byteLength s := by
  obtain ⟨c, cs, rfl⟩ := List.exists_cons_of_ne_nil h
  have hpos := c.utf8Size_pos
  rw [byteLength_cons]
  omega

/-! ## Cursors -/

/-- How many bytes of a text are read, and whether a malformed document was met. -/
structure Cursor where
  offset : Nat
  failed : Bool
  deriving DecidableEq

namespace Cursor

/-- Before anything is read. -/
def start : Cursor := ⟨0, false⟩

/-- The answer of a cursor that is asked for the next document, and the cursor afterwards. Nothing
comes of it if the text cannot be cut where the cursor stands. -/
def next? (text : String) (c : Cursor) : Option (Option (Except Error Value) × Cursor) :=
  if c.failed then some (none, c)
  else
    (restAt? c.offset text.toList).map fun rest =>
      match Document.next? rest with
      | none => (none, c)
      | some (.ok v) =>
        (some (.ok v.value), ⟨c.offset + (byteLength rest - byteLength v.rest), false⟩)
      | some (.error f) => (some (.error (.ofFailure text.toList rest f)), ⟨c.offset, true⟩)

/-- The cursor after it was asked. -/
def advance (text : String) (c : Cursor) : Cursor := ((c.next? text).map Prod.snd).getD c

/-- The cursor after it was asked so many times from the beginning on. -/
def after (text : String) (n : Nat) : Cursor := (advance text)^[n] start

end Cursor

/-! ## One document -/

/-- A document in a text, with the white space before it. -/
structure Piece where
  blanks : List Char
  chars : List Char

namespace Piece

/-- The characters of a piece. -/
def text (p : Piece) : List Char := p.blanks ++ p.chars

/-- The document in a piece is a text of this value, with nothing but white space before it. -/
structure Holds (p : Piece) (v : Value) : Prop where
  blank : ∀ c ∈ p.blanks, isBlank c
  begins : ∃ c cs, p.chars = c :: cs ∧ isBlank c = false
  parses : parse (String.ofList p.chars) = .ok v

theorem Holds.text_pos {p : Piece} {v : Value} (h : p.Holds v) : 0 < byteLength p.text := by
  obtain ⟨c, cs, hchars, -⟩ := h.begins
  refine byteLength_pos ?_
  rw [text, hchars]
  exact List.append_ne_nil_of_right_ne_nil _ (List.cons_ne_nil c cs)

end Piece

section
variable {s : List Char} {v : Front Value s}

theorem isBlank_of_next? (h : next? s = none) : ∀ c ∈ s, isBlank c := by
  unfold next? at h
  split at h
  · next hnil => exact List.dropWhile_eq_nil_iff.mp hnil
  · cases h

theorem readValue_of_next? (h : next? s = some (.ok v)) : readValue depthLimit s = .ok v := by
  unfold next? at h
  split at h
  · cases h
  · have h := Option.some.inj h
    split at h
    · cases h
    · next w hread =>
      rw [hread]
      split at h
      · exact h
      · split at h
        · exact h
        · cases h

theorem parse_of_takes {text : String} {w : Value}
    (h : Takes (readValue depthLimit text.toList) w []) : parse text = .ok w := by
  obtain ⟨_, h⟩ := h
  simp only [parse, h]
  rfl

/-- A document is a value by itself, with white space before it. -/
theorem exists_piece (h : next? s = some (.ok v)) :
    ∃ p : Piece, s = p.text ++ v.rest ∧ p.Holds v.value := by
  obtain ⟨front, hfront, halone⟩ := readValue_alone (readValue_of_next? h)
  obtain ⟨c, cs, hskip, -⟩ := begins_of_readValue halone.2
  refine ⟨⟨front.takeWhile isBlank, skipBlanks front⟩, ?_, ?_, ?_, ?_⟩
  · rw [Piece.text, skipBlanks, List.takeWhile_append_dropWhile]
    exact hfront
  · exact fun _ hc => List.mem_takeWhile_imp hc
  · exact ⟨c, cs, hskip, isBlank_of_skipBlanks hskip⟩
  · refine parse_of_takes (takes_of_taken ?_)
    rw [String.toList_ofList]
    have hsame : skipBlanks (skipBlanks front) = skipBlanks front := by
      rw [hskip, skipBlanks_cons (isBlank_of_skipBlanks hskip)]
    rw [readValue_congr depthLimit hsame, halone.2]
    rfl

end

namespace Cursor

/-! ## Steps -/

section
variable {text : String} {before rest : List Char} (htext : text.toList = before ++ rest)
include htext

theorem next?_none (h : Document.next? rest = none) :
    next? text ⟨byteLength before, false⟩ = some (none, ⟨byteLength before, false⟩) := by
  simp only [next?, htext, restAt?_append, h, Bool.false_eq_true, if_false, Option.map_some]

theorem next?_ok {read : List Char} {v : Front Value rest} (h : Document.next? rest = some (.ok v))
    (hread : rest = read ++ v.rest) :
    next? text ⟨byteLength before, false⟩ =
      some (some (.ok v.value), ⟨byteLength (before ++ read), false⟩) := by
  have hoffset : byteLength before + (byteLength rest - byteLength v.rest) =
      byteLength (before ++ read) := by
    have hrest := congrArg byteLength hread
    rw [byteLength_append] at hrest ⊢
    omega
  simp only [next?, htext, restAt?_append, h, hoffset, Bool.false_eq_true, if_false,
    Option.map_some]

theorem next?_error {f : Json.Failure} (h : Document.next? rest = some (.error f)) :
    next? text ⟨byteLength before, false⟩ =
      some (some (.error (.ofFailure text.toList rest f)), ⟨byteLength before, true⟩) := by
  simp only [next?, htext, restAt?_append, h, Bool.false_eq_true, if_false, Option.map_some]

end

theorem advance_of_next? {text : String} {c c' : Cursor} {answer : Option (Except Error Value)}
    (h : c.next? text = some (answer, c')) : c.advance text = c' := by
  rw [advance, h]
  rfl

/-- What is still to come at a cursor. -/
inductive Awaits (text : String) : Cursor → List (Except Error Value) → Prop
  | failed {offset : Nat} : Awaits text ⟨offset, true⟩ []
  | ready {before rest : List Char} : text.toList = before ++ rest →
      Awaits text ⟨byteLength before, false⟩ (listFrom text.toList rest)

/-- What a cursor does that is asked: it gives the first of what is to come, and then the rest is to
come. For a document it moves on, to where a character begins. -/
theorem Awaits.step {text : String} {c : Cursor} {items : List (Except Error Value)}
    (h : Awaits text c items) :
    ∃ c', c.next? text = some (items.head?, c') ∧ Awaits text c' items.tail ∧
      (items = [] → c' = c) ∧
      ∀ v, items.head? = some (.ok v) →
        c.offset < c'.offset ∧ String.Pos.Raw.IsValid text ⟨c'.offset⟩ := by
  cases h with
  | failed =>
    refine ⟨_, rfl, .failed, fun _ => rfl, fun v hv => ?_⟩
    cases hv
  | @ready before rest htext =>
    rcases hnext : Document.next? rest with _ | (f | v)
    · have hready := Awaits.ready htext
      rw [listFrom_none text.toList hnext] at hready ⊢
      refine ⟨_, next?_none htext hnext, hready, fun _ => rfl, fun v hv => ?_⟩
      cases hv
    · rw [listFrom_error text.toList hnext]
      refine ⟨_, next?_error htext hnext, .failed, fun hnil => ?_, fun v hv => ?_⟩
      · cases hnil
      · cases hv
    · obtain ⟨p, hread, hholds⟩ := exists_piece hnext
      have hsplit : text.toList = before ++ p.text ++ v.rest := by
        rw [htext, List.append_assoc, ← hread]
      rw [listFrom_ok text.toList hnext]
      refine ⟨_, next?_ok htext hnext hread, .ready hsplit, fun hnil => ?_, fun _ _ => ⟨?_, ?_⟩⟩
      · cases hnil
      · show byteLength before < byteLength (before ++ p.text)
        rw [byteLength_append]
        exact Nat.lt_add_of_pos_right hholds.text_pos
      · exact isValid_byteLength hsplit

/-! ## Runs -/

theorem after_succ (text : String) (n : Nat) : after text (n + 1) = (after text n).advance text :=
  Function.iterate_succ_apply' ..

theorem awaits_after (text : String) (n : Nat) :
    Awaits text (after text n) ((list text).drop n) := by
  induction n with
  | zero => exact Awaits.ready (List.nil_append text.toList).symm
  | succ n ih =>
    obtain ⟨c', hnext, hrest, -⟩ := ih.step
    rw [after_succ, advance_of_next? hnext, ← List.tail_drop]
    exact hrest

theorem advance_failed (text : String) (offset : Nat) :
    advance text ⟨offset, true⟩ = ⟨offset, true⟩ := rfl

/-- The pieces of what is left of a text, and where a cursor stands behind each of them. -/
theorem exists_pieces {text : String} {before rest : List Char}
    (htext : text.toList = before ++ rest) :
    ∃ pieces values last, List.Forall₂ Piece.Holds pieces values ∧
      rest = pieces.flatMap Piece.text ++ last ∧
      (∀ n, ((advance text)^[n] ⟨byteLength before, false⟩).offset =
        byteLength (before ++ (pieces.take n).flatMap Piece.text)) ∧
      (listFrom text.toList rest = values.map .ok ∧ (∀ c ∈ last, isBlank c) ∨
        ∃ e, listFrom text.toList rest = values.map .ok ++ [.error e]) := by
  rcases hnext : Document.next? rest with _ | (f | v)
  · refine ⟨[], [], rest, .nil, rfl, fun n => ?_,
      .inl ⟨listFrom_none _ hnext, isBlank_of_next? hnext⟩⟩
    rw [Function.iterate_fixed (advance_of_next? (next?_none htext hnext)), List.take_nil,
      List.flatMap_nil, List.append_nil]
  · refine ⟨[], [], rest, .nil, rfl, fun n => ?_, .inr ⟨_, listFrom_error _ hnext⟩⟩
    rw [List.take_nil, List.flatMap_nil, List.append_nil]
    cases n with
    | zero => rfl
    | succ n =>
      rw [Function.iterate_succ_apply, advance_of_next? (next?_error htext hnext),
        Function.iterate_fixed (advance_failed text _)]
  · have := v.shorter
    obtain ⟨p, hread, hholds⟩ := exists_piece hnext
    have hsplit : text.toList = before ++ p.text ++ v.rest := by
      rw [htext, List.append_assoc, ← hread]
    obtain ⟨pieces, values, last, hpieces, hrest, hoffset, hlist⟩ := exists_pieces hsplit
    refine ⟨p :: pieces, v.value :: values, last, .cons hholds hpieces, ?_, fun n => ?_, ?_⟩
    · rw [List.flatMap_cons, List.append_assoc, ← hrest]
      exact hread
    · cases n with
      | zero => rw [List.take_zero, List.flatMap_nil, List.append_nil]; rfl
      | succ n =>
        rw [Function.iterate_succ_apply, advance_of_next? (next?_ok htext hnext hread), hoffset,
          List.take_succ_cons, List.flatMap_cons, List.append_assoc]
    · rw [listFrom_ok _ hnext]
      rcases hlist with ⟨hvalues, hlast⟩ | ⟨e, hvalues⟩
      · exact .inl ⟨congrArg (_ :: ·) hvalues, hlast⟩
      · exact .inr ⟨e, congrArg (_ :: ·) hvalues⟩
termination_by rest.length

end Cursor

/-! ## All documents -/

theorem length_listFrom_le (text rest : List Char) :
    (listFrom text rest).length ≤ byteLength rest := by
  rcases hnext : next? rest with _ | (f | v)
  · rw [listFrom_none _ hnext]
    exact Nat.zero_le _
  · rw [listFrom_error _ hnext]
    refine byteLength_pos ?_
    rintro rfl
    cases hnext
  · have := v.shorter
    obtain ⟨p, hread, hholds⟩ := exists_piece hnext
    have hrest := length_listFrom_le text v.rest
    have hpos := hholds.text_pos
    have hbytes := congrArg byteLength hread
    rw [byteLength_append] at hbytes
    rw [listFrom_ok _ hnext, List.length_cons]
    omega
termination_by rest.length

namespace Cursor

/-- Documents that are taken one at a time use up the text. A cursor that is asked again and again
gives the documents of the text in their order and then nothing more, and never has to cut the text
inside a character. With each document it moves on by at least one byte, to where a character begins
or the text ends. So there are no more documents than bytes. The text is made up of pieces, each of
them white space and then the text of a document, which is decoded by itself as the document that
the cursor gives there, and the cursor stands right behind the piece then. Behind all pieces there is
only white space, or else one malformed document is told and no other document comes after it. -/
theorem uses_up_text (text : String) :
    (∀ n, (after text n).next? text = some ((list text)[n]?, after text (n + 1))) ∧
    (∀ n, (list text).length ≤ n → (after text n).next? text = some (none, after text n)) ∧
    (∀ n v, (list text)[n]? = some (.ok v) →
      (after text n).offset < (after text (n + 1)).offset ∧
        String.Pos.Raw.IsValid text ⟨(after text (n + 1)).offset⟩) ∧
    (list text).length ≤ text.utf8ByteSize ∧
    ∃ pieces values last, List.Forall₂ Piece.Holds pieces values ∧
      text.toList = pieces.flatMap Piece.text ++ last ∧
      (∀ n, (after text n).offset = byteLength ((pieces.take n).flatMap Piece.text)) ∧
      (list text = values.map .ok ∧ (∀ c ∈ last, isBlank c) ∨
        ∃ e, list text = values.map .ok ++ [.error e]) := by
  have hstep (n : Nat) : (after text n).next? text = some ((list text)[n]?, after text (n + 1)) ∧
      ((list text).length ≤ n → after text (n + 1) = after text n) ∧
      ∀ v, (list text)[n]? = some (.ok v) →
        (after text n).offset < (after text (n + 1)).offset ∧
          String.Pos.Raw.IsValid text ⟨(after text (n + 1)).offset⟩ := by
    obtain ⟨c', hnext, -, hdone, hmoves⟩ := (awaits_after text n).step
    rw [List.head?_drop] at hnext hmoves
    rw [after_succ, advance_of_next? hnext]
    exact ⟨hnext, fun hle => hdone (List.drop_eq_nil_iff.mpr hle), hmoves⟩
  refine ⟨fun n => (hstep n).1, fun n hn => ?_, fun n => (hstep n).2.2, ?_, ?_⟩
  · have hnext := (hstep n).1
    rwa [List.getElem?_eq_none hn, (hstep n).2.1 hn] at hnext
  · rw [← byteLength_toList]
    exact length_listFrom_le text.toList text.toList
  · exact exists_pieces (List.nil_append text.toList).symm

/-- Documents that touch, one of them with a character of several bytes. -/
theorem uses_up_text_adjacent :
    let text := "[null]\"‽\" true\n"
    let values : List Value := [.array [.null], .string "‽", .bool true]
    list text = values.map .ok ∧
      (after text 1).offset < (after text 2).offset ∧
      (after text 3).next? text = some (none, after text 3) ∧
      ∃ pieces last, List.Forall₂ Piece.Holds pieces values ∧
        text.toList = pieces.flatMap Piece.text ++ last ∧ ∀ c ∈ last, isBlank c := by
  intro text values
  have hlist : list text = values.map .ok := by cbv
  obtain ⟨-, hend, hmoves, -, pieces, values', last, hholds, htext, -, hcases⟩ := uses_up_text text
  have hmove := hmoves 1 (.string "‽") (by rw [hlist]; rfl)
  have hdone := hend 3 (by rw [hlist]; exact Nat.le_refl 3)
  refine ⟨hlist, hmove.1, hdone, pieces, last, ?_⟩
  rcases hcases with ⟨hvalues, hlast⟩ | ⟨e, hvalues⟩
  · obtain rfl : values = values' :=
      List.map_injective_iff.mpr (fun _ _ h => Except.ok.inj h) (hlist.symm.trans hvalues)
    exact ⟨hholds, htext, hlast⟩
  · have hmem : Except.error e ∈ values.map Except.ok := by
      rw [← hlist, hvalues]
      exact List.mem_append_right _ List.mem_cons_self
    obtain ⟨v, -, hv⟩ := List.mem_map.mp hmem
    cases hv

end Cursor

end JsonFilter.Document
