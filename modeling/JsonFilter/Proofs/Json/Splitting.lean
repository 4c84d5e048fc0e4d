import JsonFilter.Proofs.Handle
import JsonFilter.Proofs.Json.Documents
import JsonFilter.Proofs.Json.Locality
import JsonFilter.Proofs.Json.Placing

/-!
A text of documents in two pieces. Let the first piece be without malformed documents and let a line
feed come after it. Then the documents of the whole text are those of the first piece and then those
of the second, whatever it holds; a malformed document in it is told by the same cause and column,
on the line that it has in the whole text. So a program gives for the whole text what it gives for
the first piece and then what it gives for the second.
-/

namespace JsonFilter

namespace Json

/-! ## White space before a value -/

/-- What a reading gives, apart from the text that it was taken from. -/
def taken {α : Type} {s : List Char} (x : Reading α s) : Except Failure (α × List Char) :=
  x.map fun v => (v.value, v.rest)

theorem takes_of_taken {α : Type} {s r : List Char} {x : Reading α s} {a : α}
    (h : taken x = .ok (a, r)) : Takes x a r := by
  cases x with
  | error f => cases h
  | ok v =>
    obtain ⟨rfl, rfl⟩ := Prod.mk.inj (Except.ok.inj h)
    exact ⟨v.shorter, rfl⟩

theorem error_of_taken {α : Type} {s : List Char} {x : Reading α s} {f : Failure}
    (h : taken x = .error f) : x = .error f := by
  cases x with
  | error g => rw [Except.error.inj h]
  | ok v => cases h

/-- What is taken from a text without white space before it. -/
def takenAt (depth : Nat) : List Char → Except Failure (Value × List Char)
  | [] => stop .endInValue []
  | c :: r =>
    if c = 'n' then (readWord ['u', 'l', 'l'] r).map fun t => (.null, t.1)
    else if c = 't' then (readWord ['r', 'u', 'e'] r).map fun t => (.bool true, t.1)
    else if c = 'f' then (readWord ['a', 'l', 's', 'e'] r).map fun t => (.bool false, t.1)
    else if c = '-' ∨ c.isDigit then (readNumber (c :: r)).map fun t => (.number t.1, t.2)
    else if c = '"' then (readString r).map fun t => (.string t.value, t.rest)
    else if c = '[' then
      if depth ≤ 1 then unexpected .tooDeep (c :: r)
      else
        match skipBlanks r with
        | ']' :: t => .ok (.array [], t)
        | [] => stop .endInList []
        | _ => (readItems (depth - 1) [] r (Front.whole_le r)).map fun t => (.array t.value, t.rest)
    else if c = '\x7b' then
      if depth ≤ 1 then unexpected .tooDeep (c :: r)
      else
        match skipBlanks r with
        | '\x7d' :: t => .ok (.object [], t)
        | [] => stop .endInObject []
        | _ => (readFields (depth - 1) [] r (Front.whole_le r)).map fun t => (.object t.value, t.rest)
    else unexpected .valueExpected (c :: r)

theorem taken_readValue (depth : Nat) {s t : List Char} (h : skipBlanks s = t) :
    taken (readValue depth s) = takenAt depth t := by
  unfold readValue
  split
  · next hs =>
    obtain rfl := hs.symm.trans h
    rfl
  · next c r hs =>
    obtain rfl := hs.symm.trans h
    rw [takenAt]
    simp only [apply_ite taken]
    refine ite_congr rfl (fun _ => ?_) fun _ => ite_congr rfl (fun _ => ?_) fun _ =>
      ite_congr rfl (fun _ => ?_) fun _ => ite_congr rfl (fun _ => ?_) fun _ =>
      ite_congr rfl (fun _ => ?_) fun _ => ite_congr rfl (fun _ => ?_) fun _ =>
      ite_congr rfl (fun _ => ?_) fun _ => rfl
    · cases readWord ['u', 'l', 'l'] r <;> rfl
    · cases readWord ['r', 'u', 'e'] r <;> rfl
    · cases readWord ['a', 'l', 's', 'e'] r <;> rfl
    · split <;> next heq => simp only [heq]; rfl
    · split <;> next heq => simp only [heq]; rfl
    · refine ite_congr rfl (fun _ => rfl) fun _ => ?_
      split
      · next heq => simp only [heq]; rfl
      · next heq => simp only [heq]; rfl
      · split <;> next heq => simp only [heq]; rfl
    · refine ite_congr rfl (fun _ => rfl) fun _ => ?_
      split
      · next heq => simp only [heq]; rfl
      · next heq => simp only [heq]; rfl
      · split <;> next heq => simp only [heq]; rfl

/-- White space before a value plays no part. -/
theorem readValue_congr (depth : Nat) {s t : List Char} (h : skipBlanks s = skipBlanks t) :
    taken (readValue depth s) = taken (readValue depth t) := by
  rw [taken_readValue depth h, taken_readValue depth rfl]

end Json

namespace Document

open Json
open Token (Ends)

/-! ## One document -/

theorem next?_stays {s : List Char} {x : Reading Value s} (h : next? s = some x) :
    Stays s Front.rest x := by
  have hvalue := readValue_stays depthLimit s
  unfold next? at h
  split at h
  · cases h
  · obtain rfl := Option.some.inj h
    cases hread : readValue depthLimit s with
    | error f => exact hvalue.of_error hread
    | ok v =>
      have hvalue := hvalue.of_ok hread
      dsimp only
      split
      · exact hvalue
      · split
        · exact hvalue
        · exact stays_unexpected hvalue

theorem lineEnds_feed (t : List Char) : LineEnds ('\n' :: t) :=
  fun _ _ h => (List.cons.inj h).1.symm

/-- A document is the same in a text that goes on on another line. -/
theorem next?_append {s : List Char} {v : Front Value s} (h : next? s = some (.ok v))
    (t : List Char) :
    ∃ hshort, next? (s ++ '\n' :: t) = some (.ok ⟨v.value, v.rest ++ '\n' :: t, hshort⟩) := by
  have hfeed : isDelimiter '\n' = true := rfl
  unfold next? at h
  split at h
  · cases h
  · next c r hskip =>
    have h := Option.some.inj h
    split at h
    · cases h
    · next w hread =>
      obtain ⟨hshort, hread'⟩ := readValue_append (lineEnds_feed t).ends depthLimit s hread
      split at h
      · next hrest =>
        obtain rfl := Except.ok.inj h
        refine ⟨hshort, ?_⟩
        rw [next?, skipBlanks_append_of_cons hskip, hread']
        simp only [hrest, List.nil_append, hfeed, Bool.or_true, if_true]
      · next d ds hrest =>
        split at h
        · next hends =>
          obtain rfl := Except.ok.inj h
          refine ⟨hshort, ?_⟩
          rw [next?, skipBlanks_append_of_cons hskip, hread']
          simp only [hrest, List.cons_append, hends, if_true]
        · cases h

/-- White space before a document plays no part. -/
theorem next?_congr {s t : List Char} (h : skipBlanks s = skipBlanks t) :
    (next? s).map taken = (next? t).map taken := by
  have hvalue := readValue_congr depthLimit h
  rw [next?, next?, h]
  split
  · rfl
  · next c r _ =>
    cases hs : readValue depthLimit s with
    | error f =>
      rw [hs] at hvalue
      rw [error_of_taken hvalue.symm]
      rfl
    | ok v =>
      rw [hs] at hvalue
      obtain ⟨_, ht⟩ := takes_of_taken hvalue.symm
      rw [ht]
      obtain ⟨value, rest, _⟩ := v
      cases rest with
      | nil => rfl
      | cons d ds =>
        dsimp only
        split <;> rfl

/-! ## Documents -/

section

variable {s : List Char} (text : List Char)

theorem listFrom_none (h : next? s = none) : listFrom text s = [] := by
  rw [listFrom, h]

theorem listFrom_error {f : Json.Failure} (h : next? s = some (.error f)) :
    listFrom text s = [.error (.ofFailure text s f)] := by
  rw [listFrom, h]

theorem listFrom_ok {v : Front Value s} (h : next? s = some (.ok v)) :
    listFrom text s = .ok v.value :: listFrom text v.rest := by
  rw [listFrom, h]

end

/-- The documents of what is left of a text, after lines before the text. -/
theorem listFrom_line (cs before rest : List Char) :
    listFrom (cs ++ '\n' :: (before ++ rest)) rest
      = (listFrom (before ++ rest) rest).map
          (Except.mapError (Error.addLines (lineCount cs))) := by
  rcases hnext : next? rest with _ | (f | v)
  · rw [listFrom_none _ hnext, listFrom_none _ hnext]
    rfl
  · rw [listFrom_error _ hnext, listFrom_error _ hnext, ofFailure_line]
    rfl
  · obtain ⟨read, hread⟩ : v.rest <:+ rest := next?_stays hnext
    have := v.shorter
    have hbefore : before ++ rest = before ++ read ++ v.rest := by rw [List.append_assoc, hread]
    rw [listFrom_ok _ hnext, listFrom_ok _ hnext, List.map_cons, hbefore,
      listFrom_line cs (before ++ read) v.rest]
    rfl
termination_by rest.length

/-- A text that begins with white space and a line feed, after what was read of the whole. -/
theorem listFrom_blanks (before : List Char) {s : List Char} (h : skipBlanks s = []) (t : List Char) :
    listFrom (before ++ (s ++ '\n' :: t)) (s ++ '\n' :: t)
      = (listFrom t t).map (Except.mapError (Error.addLines (lineCount (before ++ s)))) := by
  have hblank : skipBlanks (s ++ '\n' :: t) = skipBlanks t :=
    skipBlanks_append (List.dropWhile_eq_nil_iff.mp h) ('\n' :: t)
  have hnext := next?_congr hblank
  rcases ht : next? t with _ | (f | v) <;> rw [ht] at hnext
  · rw [listFrom_none _ (Option.map_eq_none_iff.mp hnext), listFrom_none _ ht]
    rfl
  · obtain ⟨x, hx, htaken⟩ := Option.map_eq_some_iff.mp hnext
    rw [error_of_taken htaken] at hx
    rw [listFrom_error _ hx, listFrom_error _ ht, ofFailure_started before s t (next?_stays ht)]
    rfl
  · obtain ⟨x, hx, htaken⟩ := Option.map_eq_some_iff.mp hnext
    obtain ⟨_, hok⟩ := takes_of_taken htaken
    rw [hok] at hx
    obtain ⟨read, hread⟩ : v.rest <:+ t := next?_stays ht
    have hline := listFrom_line (before ++ s) read v.rest
    rw [hread, List.append_assoc] at hline
    rw [listFrom_ok _ hx, listFrom_ok _ ht, hline]
    rfl

/-- The documents of the rest of the first piece, without failures, and of the second piece. -/
theorem listFrom_append (before s t : List Char)
    (h : hasFailure (listFrom (before ++ s) s) = false) :
    listFrom (before ++ (s ++ '\n' :: t)) (s ++ '\n' :: t)
      = listFrom (before ++ s) s ++
        (listFrom t t).map (Except.mapError (Error.addLines (lineCount (before ++ s)))) := by
  rcases hnext : next? s with _ | (f | v)
  · have hblank : skipBlanks s = [] := by
      unfold next? at hnext
      split at hnext
      · assumption
      · cases hnext
    rw [listFrom_none _ hnext, listFrom_blanks before hblank]
    rfl
  · rw [listFrom_error _ hnext] at h
    cases h
  · obtain ⟨read, hread⟩ : v.rest <:+ s := next?_stays hnext
    have := v.shorter
    have hbefore : ∀ u, before ++ (s ++ u) = before ++ read ++ (v.rest ++ u) := by
      intro u
      calc before ++ (s ++ u) = before ++ (read ++ v.rest ++ u) := by rw [hread]
        _ = before ++ read ++ (v.rest ++ u) := by simp only [List.append_assoc]
    have hpiece : before ++ s = before ++ read ++ v.rest := by rw [List.append_assoc, hread]
    obtain ⟨_, hnext'⟩ := next?_append hnext t
    rw [listFrom_ok _ hnext] at h
    have hrest := listFrom_append (before ++ read) v.rest t (hpiece ▸ h)
    rw [← hpiece, ← hbefore] at hrest
    rw [listFrom_ok _ hnext', listFrom_ok _ hnext, hrest]
    rfl
termination_by s.length

/-- The documents of a text in two pieces. -/
theorem list_append {first : String} (h : hasFailure (list first) = false) (second : String) :
    list (first ++ "\n" ++ second)
      = list first ++
        (list second).map (Except.mapError (Error.addLines (lineCount first.toList))) := by
  have hchars : (first ++ "\n" ++ second).toList = first.toList ++ '\n' :: second.toList := by
    simp [String.toList_append]
  rw [list, hchars]
  exact listFrom_append [] first.toList second.toList h

end Document

/-! ## Programs -/

/-- A failure in a text as it is told for a text with lines before it: a malformed document is on a
line further down, of the text as a whole. Other failures are not about the text. -/
def Diagnostic.addLines (n : Nat) (whole : String) : Diagnostic → Diagnostic
  | ⟨.input e, _⟩ => ⟨.input (e.addLines n), whole⟩
  | d => d

namespace Program

theorem documents_append {first : String} (h : hasFailure (Document.list first) = false)
    (second : String) :
    documents (first ++ "\n" ++ second)
      = (documents first).append fun _ => (documents second).mapError
          (Diagnostic.addLines (lineCount first.toList) (first ++ "\n" ++ second)) := by
  rw [documents, Document.list_append h, List.map_append, Outputs.ofItems_append, documents,
    documents, Outputs.mapError_ofItems, List.map_map, List.map_map]
  congr 2
  · exact map_mapError_congr h _ _
  · funext _
    congr 2
    funext item
    cases item <;> rfl

/-- What a program gives for a document does not depend on where the document stands. -/
theorem addLines_outputsFor (n : Nat) (whole : String) (horizon : Nat) (p : Program) (v : Value) :
    (p.outputsFor horizon v).mapError (Diagnostic.addLines n whole) = p.outputsFor horizon v := by
  rw [outputsFor, Outputs.mapError_mapError]
  rfl

/-- A program gives for a text in two pieces what it gives for the one and then for the other. -/
theorem outputs_append {first : String} (h : hasFailure (Document.list first) = false)
    (second : String) (horizon : Nat) (p : Program) :
    p.outputs horizon (.text (first ++ "\n" ++ second))
      = (p.outputs horizon (.text first)).append fun _ =>
          (p.outputs horizon (.text second)).mapError
            (Diagnostic.addLines (lineCount first.toList) (first ++ "\n" ++ second)) := by
  simp only [outputs, documents_append h, Outputs.append_bind, Outputs.mapError_bind,
    addLines_outputsFor]

end Program

namespace Results

end Results

end JsonFilter
