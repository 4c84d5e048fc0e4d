import JsonFilter.Eval
import JsonFilter.Proofs.Containers

/-!
Cutting a text at a separator and joining the pieces again. The cuts are made at the leftmost
occurrences of the separator of which none overlaps the one before, so no piece holds the separator,
and the pieces with the separator between them are the text.
-/

namespace JsonFilter

namespace Text

/-! ## Occurrences -/

/-- A pattern stands in a text at a place. -/
def OccursAt (pattern s : List Char) (i : Nat) : Prop := pattern <+: s.drop i

/-- The places of the leftmost occurrences of a pattern from a place on: the first one there is, the
first one that begins behind its end, and so on. -/
inductive LeftmostFrom (pattern s : List Char) : Nat → List Nat → Prop
  | none {i : Nat} : (∀ j, i ≤ j → ¬OccursAt pattern s j) → LeftmostFrom pattern s i []
  | next {i j : Nat} {places : List Nat} : i ≤ j → OccursAt pattern s j →
      (∀ k, i ≤ k → k < j → ¬OccursAt pattern s k) →
      LeftmostFrom pattern s (j + pattern.length) places → LeftmostFrom pattern s i (j :: places)

/-- There is only one way to list the leftmost occurrences. -/
theorem LeftmostFrom.unique {pattern s : List Char} {i : Nat} {places places' : List Nat}
    (h : LeftmostFrom pattern s i places) (h' : LeftmostFrom pattern s i places') :
    places = places' := by
  induction h generalizing places' with
  | none hnone =>
    cases h' with
    | none => rfl
    | next hij hj => exact absurd hj (hnone _ hij)
  | @next i j places hij hj hfirst _ ih =>
    cases h' with
    | none hnone => exact absurd hj (hnone j hij)
    | @next _ j' _ hij' hj' hfirst' hplaces' =>
      obtain rfl : j = j' := by
        rcases Nat.lt_trichotomy j j' with hlt | heq | hlt
        · exact absurd hj (hfirst' j hij hlt)
        · exact heq
        · exact absurd hj' (hfirst j' hij' hlt)
      rw [ih hplaces']

/-- Nothing but the empty text stands behind the end. -/
theorem not_occursAt_of_length_le {pattern s : List Char} {i : Nat} (hne : pattern ≠ [])
    (h : s.length ≤ i) : ¬OccursAt pattern s i := by
  intro hi
  rw [OccursAt, List.drop_eq_nil_of_le h] at hi
  exact hne (List.prefix_nil.mp hi)

/-! ## Pieces -/

theorem dropStart?_eq_some_iff {start s rest : List Char} :
    dropStart? start s = some rest ↔ s = start ++ rest := by
  refine ⟨eq_append_of_dropStart?, ?_⟩
  rintro rfl
  induction start with
  | nil => rfl
  | cons p ps ih => rw [List.cons_append, dropStart?, if_pos rfl, ih]

theorem not_isPrefix_of_dropStart? {start s : List Char} (h : dropStart? start s = none) :
    ¬start <+: s := by
  rintro ⟨rest, rfl⟩
  rw [dropStart?_eq_some_iff.mpr rfl] at h
  cases h

section
variable {p : Char} {ps taken s : List Char}

theorem piecesFrom_ne_nil : piecesFrom p ps taken s ≠ [] := by
  fun_induction piecesFrom p ps taken s with
  | case1 => exact List.cons_ne_nil _ _
  | case2 => exact List.cons_ne_nil _ _
  | case3 _ _ _ _ ih => exact ih

/-- The pieces with the separator between them are the text. -/
theorem intercalate_piecesFrom :
    (p :: ps).intercalate (piecesFrom p ps taken s) = taken.reverse ++ s := by
  fun_induction piecesFrom p ps taken s with
  | case1 taken => rw [List.intercalate_singleton, List.append_nil]
  | case2 taken c cs rest h _ ih =>
    rw [List.intercalate_cons_of_ne_nil piecesFrom_ne_nil, ih, List.append_assoc,
      dropStart?_eq_some_iff.mp h]
    rfl
  | case3 taken c cs h ih =>
    rw [ih, List.reverse_cons, List.append_assoc, List.singleton_append]

/-- The search for the next cut of `text`: the piece begun at `i` is followed by what is left, and
the separator stands nowhere from `i` on up to there. -/
structure Searching (separator text : List Char) (i : Nat) (taken s : List Char) : Prop where
  left : text.drop i = taken.reverse ++ s
  free : ∀ k, i ≤ k → k < i + taken.length → ¬OccursAt separator text k

namespace Searching

variable {separator text rest : List Char} {c : Char} {i : Nat}

theorem start (separator text : List Char) : Searching separator text 0 [] text where
  left := rfl
  free _ h h' := absurd h' (Nat.not_lt.mpr h)

theorem drop_eq (h : Searching separator text i taken s) : text.drop (i + taken.length) = s := by
  rw [← List.drop_drop, h.left, ← List.length_reverse, List.drop_left]

/-- One more character that begins no separator belongs to the piece. -/
theorem step (h : Searching separator text i taken (c :: s)) (hc : ¬separator <+: c :: s) :
    Searching separator text i (c :: taken) s where
  left := by rw [h.left, List.reverse_cons, List.append_assoc, List.singleton_append]
  free k hik hk := by
    rw [List.length_cons, ← Nat.add_assoc] at hk
    rcases Nat.lt_or_eq_of_le (Nat.le_of_lt_succ hk) with hlt | rfl
    · exact h.free k hik hlt
    · rw [OccursAt, h.drop_eq]
      exact hc

/-- Behind a separator the next piece begins. -/
theorem cut (h : Searching separator text i taken (separator ++ rest)) :
    Searching separator text (i + taken.length + separator.length) [] rest where
  left := by rw [← List.drop_drop, h.drop_eq, List.drop_left, List.reverse_nil, List.nil_append]
  free _ hik hk := absurd hk (Nat.not_lt.mpr hik)

/-- The piece that has been begun does not hold the separator. -/
theorem not_isInfix (h : Searching separator text i taken s) (hne : separator ≠ []) :
    ¬separator <:+: taken.reverse := by
  rintro ⟨front, back, hpiece⟩
  have hlength := congrArg List.length hpiece
  have := List.length_pos_iff.mpr hne
  simp only [List.length_append, List.length_reverse] at hlength
  refine h.free (i + front.length) (Nat.le_add_right _ _) (by omega) ⟨back ++ s, ?_⟩
  rw [← List.drop_drop, h.left, ← hpiece]
  simp only [List.append_assoc, List.drop_left]

theorem not_isInfix_of_mem {piece : List Char} (h : Searching (p :: ps) text i taken s)
    (hpiece : piece ∈ piecesFrom p ps taken s) : ¬p :: ps <:+: piece := by
  fun_induction piecesFrom p ps taken s generalizing i with
  | case1 taken =>
    obtain rfl := List.mem_singleton.mp hpiece
    exact h.not_isInfix (List.cons_ne_nil p ps)
  | case2 taken c cs rest hfound _ ih =>
    rcases List.mem_cons.mp hpiece with rfl | hpiece
    · exact h.not_isInfix (List.cons_ne_nil p ps)
    · rw [dropStart?_eq_some_iff.mp hfound] at h
      exact ih h.cut hpiece
  | case3 taken c cs hnone ih => exact ih (h.step (not_isPrefix_of_dropStart? hnone)) hpiece

/-- There is one cut at each of the leftmost occurrences. -/
theorem exists_leftmostFrom (h : Searching (p :: ps) text i taken s) :
    ∃ places, LeftmostFrom (p :: ps) text i places ∧
      (piecesFrom p ps taken s).length = places.length + 1 := by
  fun_induction piecesFrom p ps taken s generalizing i with
  | case1 taken =>
    refine ⟨[], .none fun j hij => ?_, rfl⟩
    by_cases hj : j < i + taken.length
    · exact h.free j hij hj
    · refine not_occursAt_of_length_le (List.cons_ne_nil p ps) ?_
      have := List.drop_eq_nil_iff.mp h.drop_eq
      omega
  | case2 taken c cs rest hfound _ ih =>
    rw [dropStart?_eq_some_iff.mp hfound] at h
    obtain ⟨places, hplaces, hlength⟩ := ih h.cut
    refine ⟨(i + taken.length) :: places, .next (Nat.le_add_right _ _) ?_ h.free hplaces, ?_⟩
    · rw [OccursAt, h.drop_eq]
      exact List.prefix_append _ _
    · rw [List.length_cons, hlength, List.length_cons]
  | case3 taken c cs hnone ih => exact ih (h.step (not_isPrefix_of_dropStart? hnone))

end Searching

end

/-! ## Strings -/

variable {s separator : String}

theorem split_empty (separator : String) : split "" separator = [] := rfl

theorem split_characters (hs : s ≠ "") : split s "" = s.toList.map String.singleton := by
  rw [split, if_neg (by simpa using hs)]
  rfl

theorem split_pieces (hs : s ≠ "") {p : Char} {ps : List Char}
    (hseparator : separator.toList = p :: ps) :
    split s separator = (piecesFrom p ps [] s.toList).map String.ofList := by
  rw [split, if_neg (by simpa using hs)]
  simp only [hseparator]

/-- Characters with nothing between them. -/
theorem intercalate_characters (cs : List Char) :
    ([] : List Char).intercalate (cs.map fun c => [c]) = cs := by
  induction cs with
  | nil => rfl
  | cons c cs ih =>
    cases cs with
    | nil => rfl
    | cons d ds =>
      rw [List.map_cons, List.intercalate_cons_of_ne_nil (by simp), ih]
      rfl

/-- The pieces of a text, joined with the separator, are the text. -/
theorem intercalate_split (s separator : String) :
    String.intercalate separator (split s separator) = s := by
  by_cases hs : s = ""
  · rw [hs, split_empty, String.intercalate_nil]
  refine String.toList_injective ?_
  rw [String.toList_intercalate]
  cases hseparator : separator.toList with
  | nil =>
    obtain rfl : separator = "" := String.toList_eq_nil_iff.mp hseparator
    have hchars : String.toList ∘ String.singleton = fun c => [c] :=
      funext String.toList_singleton
    rw [split_characters hs, List.map_map, hchars, intercalate_characters]
  | cons p ps =>
    have hchars : String.toList ∘ String.ofList = id := funext fun _ => String.toList_ofList
    rw [split_pieces hs hseparator, List.map_map, hchars, List.map_id, intercalate_piecesFrom]
    rfl

/-- No piece holds the separator, and there is one more piece than there are occurrences. -/
theorem split_leftmost (hs : s ≠ "") (hseparator : separator ≠ "") :
    (∀ piece ∈ split s separator, ¬separator.toList <:+: piece.toList) ∧
      ∃ places, LeftmostFrom separator.toList s.toList 0 places ∧
        (split s separator).length = places.length + 1 := by
  obtain ⟨p, ps, hchars⟩ :=
    List.exists_cons_of_ne_nil fun h => hseparator (String.toList_eq_nil_iff.mp h)
  have hsearch := Searching.start (p :: ps) s.toList
  rw [split_pieces hs hchars, hchars, List.length_map]
  refine ⟨fun piece hpiece => ?_, hsearch.exists_leftmostFrom⟩
  obtain ⟨chars, hmem, rfl⟩ := List.mem_map.mp hpiece
  rw [String.toList_ofList]
  exact hsearch.not_isInfix_of_mem hmem

end Text

namespace Value

/-- Strings are joined as they are. -/
theorem join_strings (pieces : List String) (separator : String) :
    join (.array (pieces.map .string)) (.string separator) =
      .ok (.string (String.intercalate separator pieces)) := by
  have hpieces : (pieces.map Value.string).mapM joinable = .ok pieces := by
    induction pieces with
    | nil => rfl
    | cons piece pieces ih =>
      rw [List.map_cons, List.mapM_cons, ih]
      rfl
  show ((pieces.map Value.string).mapM joinable >>= fun pieces =>
    Except.ok (Value.string (String.intercalate separator pieces))) = _
  rw [hpieces]
  rfl

end Value

namespace Filter

/-- Joining undoes splitting. Dividing a string by a separator and splitting it there give the same
array of pieces, and joining these with the separator gives the string back, whatever the two
strings are. Where neither is empty, no piece holds the separator, and there is one more piece than
there are leftmost occurrences of the separator in the string, none of them overlapping another. -/
theorem join_split (s separator : String) (horizon : Nat) (env : Env) (v : Value) (loc : Range) :
    let pieces := Text.split s separator
    let text (t : String) : Filter := .literal loc (.string t)
    eval horizon (.binary loc .div (text s) (text separator)) env v =
        .value (.array (pieces.map .string)) ∧
      eval horizon (.pipe loc (text s) (.call loc .split [text separator])) env v =
        .value (.array (pieces.map .string)) ∧
      eval horizon (.call loc .join [text separator]) env (.array (pieces.map .string)) =
        .value (.string s) ∧
      (s ≠ "" → separator ≠ "" →
        (∀ piece ∈ pieces, ¬separator.toList <:+: piece.toList) ∧
          ∃ places, (∀ other, Text.LeftmostFrom separator.toList s.toList 0 other ↔ other = places) ∧
            pieces.length = places.length + 1) := by
  intro pieces text
  refine ⟨rfl, rfl, ?_, fun hs hseparator => ?_⟩
  · have hjoin := Value.join_strings pieces separator
    rw [Text.intercalate_split] at hjoin
    show Outputs.single
      (located loc (Value.join (.array (pieces.map .string)) (.string separator))) = _
    rw [hjoin]
    rfl
  · obtain ⟨hpieces, places, hplaces, hlength⟩ := Text.split_leftmost hs hseparator
    refine ⟨hpieces, places, fun other => ⟨fun h => h.unique hplaces, ?_⟩, hlength⟩
    rintro rfl
    exact hplaces

/-- A separator that overlaps itself, between characters of several bytes. -/
theorem join_split_overlapping :
    Text.split "éaaaé" "aa" = ["é", "aé"] ∧
      eval 0 (.call default .join [.literal default (.string "aa")]) []
          (.array (["é", "aé"].map .string)) = .value (.string "éaaaé") ∧
      ∃ places, Text.LeftmostFrom ['a', 'a'] ['é', 'a', 'a', 'a', 'é'] 0 places ∧
        places.length = 1 := by
  obtain ⟨-, -, hjoin, hcuts⟩ := join_split "éaaaé" "aa" 0 [] .null default
  obtain ⟨-, places, hplaces, hlength⟩ := hcuts (by decide) (by decide)
  have hsplit : Text.split "éaaaé" "aa" = ["é", "aé"] := by cbv
  rw [hsplit] at hjoin hlength
  exact ⟨hsplit, hjoin, places, (hplaces places).mpr rfl, (Nat.succ.inj hlength).symm⟩

end Filter

end JsonFilter
