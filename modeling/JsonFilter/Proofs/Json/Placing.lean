import JsonFilter.Proofs.Json.Extent

/-!
Places after lines that were put before a text. A failure of the reader, and the place it is told
by, move down by the number of these lines and are otherwise the same.
-/

namespace JsonFilter

/-! ## Places -/

/-- A place moved down by some lines. -/
def Position.addLines (n : Nat) (p : Position) : Position := ⟨p.line + n, p.column⟩

/-- The lines that a text and a line feed after it take. -/
def lineCount (cs : List Char) : Nat := cs.count '\n' + 1

theorem lineCount_cons (c : Char) (cs : List Char) :
    lineCount (c :: cs) = lineCount cs + if c = '\n' then 1 else 0 := by
  by_cases h : c = '\n'
  · rw [lineCount, h, List.count_cons_self, if_pos rfl, lineCount]
  · rw [lineCount, List.count_cons_of_ne h, if_neg h, lineCount]

namespace Position

theorem addLines_advance (n : Nat) (p : Position) (c : Char) :
    (p.addLines n).advance c = (p.advance c).addLines n := by
  unfold advance
  split
  · rw [addLines, addLines, Nat.add_right_comm]
  · rfl

theorem addLines_after (n : Nat) (p : Position) (cs : List Char) :
    (p.addLines n).after cs = (p.after cs).addLines n := by
  induction cs generalizing p with
  | nil => rfl
  | cons c cs ih => rw [after_cons, after_cons, addLines_advance, ih]

/-- A line feed brings the place to the beginning of a line. -/
theorem after_line (p : Position) (cs : List Char) :
    p.after (cs ++ ['\n']) = ⟨p.line + lineCount cs, 1⟩ := by
  induction cs generalizing p with
  | nil => rfl
  | cons c cs ih =>
    rw [List.cons_append, after_cons, ih, lineCount_cons, advance]
    split
    · rw [Nat.add_right_comm, Nat.add_assoc]
    · rfl

end Position

/-! ## Failures of the reader -/

namespace Json

theorem foldl_utf8Size (cs : List Char) (n : Nat) :
    cs.foldl (fun n c => n + c.utf8Size) n = n + byteLength cs := by
  induction cs generalizing n with
  | nil => rfl
  | cons c cs ih =>
    rw [byteLength, List.foldl_cons, List.foldl_cons, ih, ih]
    omega

theorem byteLength_cons (c : Char) (cs : List Char) :
    byteLength (c :: cs) = c.utf8Size + byteLength cs := by
  rw [byteLength, List.foldl_cons, foldl_utf8Size]
  omega

theorem byteLength_append (cs ds : List Char) :
    byteLength (cs ++ ds) = byteLength cs + byteLength ds := by
  rw [byteLength, List.foldl_append, foldl_utf8Size]
  rfl

theorem byteLength_suffix_le {s t : List Char} (h : s <:+ t) : byteLength s ≤ byteLength t := by
  obtain ⟨u, rfl⟩ := h
  rw [byteLength_append]
  exact Nat.le_add_left _ _

/-- The reader comes to what follows a line feed with a new line, where it counts bytes anew. -/
theorem locate_line (bytes line column : Nat) (cs t : List Char) :
    locate (byteLength cs + 1 + bytes) line column (cs ++ '\n' :: t)
      = locate bytes (line + lineCount cs) 0 t := by
  have hfeed : ('\n' : Char).utf8Size = 1 := rfl
  induction cs generalizing line column with
  | nil =>
    have hle : ¬ byteLength [] + 1 + bytes < ('\n' : Char).utf8Size := by rw [hfeed]; omega
    rw [List.nil_append, locate, if_neg hle, if_pos rfl]
    congr 1
    show 0 + 1 + bytes - 1 = bytes
    omega
  | cons c cs ih =>
    rw [List.cons_append, locate, byteLength_cons, lineCount_cons, if_neg (by omega)]
    split
    · next hc =>
      have hbytes : c.utf8Size + byteLength cs + 1 + bytes - 1 = byteLength cs + 1 + bytes := by
        rw [hc, hfeed]
        omega
      rw [hbytes, ih, Nat.add_assoc, Nat.add_comm 1]
    · have hbytes :
          c.utf8Size + byteLength cs + 1 + bytes - c.utf8Size = byteLength cs + 1 + bytes := by omega
      rw [hbytes, ih, Nat.add_zero]

theorem locate_add (n bytes line column : Nat) (t : List Char) :
    locate bytes (line + n) column t
      = ((locate bytes line column t).1 + n, (locate bytes line column t).2) := by
  induction t generalizing bytes line column with
  | nil => rfl
  | cons c cs ih =>
    rw [locate, locate]
    split
    · rfl
    split
    · rw [Nat.add_right_comm, ih]
    · rw [ih]

theorem le_locate (bytes line column : Nat) (t : List Char) :
    line ≤ (locate bytes line column t).1 := by
  induction t generalizing bytes line column with
  | nil => exact Nat.le_refl _
  | cons c cs ih =>
    rw [locate]
    split
    · exact Nat.le_refl _
    split
    · exact Nat.le_of_succ_le (ih _ _ _)
    · exact ih _ _ _

/-- A failure after lines before the text is told by the line below them. -/
theorem toError_line {t : List Char} {f : Failure} (h : f.rest <:+ t) (cs : List Char) :
    f.toError (cs ++ '\n' :: t)
      = ⟨f.cause, (f.toError t).line + lineCount cs, (f.toError t).column⟩ := by
  have hle := byteLength_suffix_le h
  have hbytes : byteLength (cs ++ '\n' :: t) - byteLength f.rest + f.ahead
      = byteLength cs + 1 + (byteLength t - byteLength f.rest + f.ahead) := by
    rw [byteLength_append, byteLength_cons]
    show byteLength cs + (1 + byteLength t) - byteLength f.rest + f.ahead = _
    omega
  simp only [Failure.toError, hbytes, locate_line, locate_add]

theorem one_le_toError_line (t : List Char) (f : Failure) : 1 ≤ (f.toError t).line :=
  le_locate _ 1 0 t

end Json

/-! ## Failures in the whole text -/

namespace Document

open Json

theorem takeLines_line (n : Nat) (cs t : List Char) :
    takeLines (n + lineCount cs) (cs ++ '\n' :: t) = cs ++ '\n' :: takeLines n t := by
  induction cs with
  | nil => rfl
  | cons c cs ih =>
    by_cases hc : c = '\n'
    · have hlines : n + lineCount (c :: cs) = n + lineCount cs + 1 := by
        rw [lineCount_cons, if_pos hc, Nat.add_assoc]
      rw [List.cons_append, hlines, takeLines, if_pos hc, ih, List.cons_append]
    · have hlines : n + lineCount (c :: cs) = n + cs.count '\n' + 1 := by
        rw [lineCount_cons, if_neg hc]
        rfl
      rw [List.cons_append, hlines, takeLines, if_neg hc]
      exact congrArg (c :: ·) ih

/-- A place in a text that comes after lines is the place below them. -/
theorem positionAt_line (cs before rest : List Char) (line column : Nat) :
    positionAt (cs ++ '\n' :: before) rest line column
      = (positionAt before rest line column).addLines (lineCount cs) := by
  have hstart : Position.start.after (cs ++ ['\n']) = Position.start.addLines (lineCount cs) :=
    Position.after_line .start cs
  have hsplit : ∀ ds : List Char, cs ++ '\n' :: before ++ ds = cs ++ ['\n'] ++ (before ++ ds) := by
    intro ds
    simp
  simp only [positionAt]
  rw [List.append_assoc, hsplit, Position.after_append, hstart, Position.addLines_after,
    List.append_assoc]

/-- Lines may be counted with what comes before a text or with the text. -/
theorem positionAt_add (before cs rest : List Char) {line : Nat} (hline : 1 ≤ line) (column : Nat) :
    positionAt before (cs ++ '\n' :: rest) (line + lineCount cs) column
      = positionAt (before ++ cs ++ ['\n']) rest line column := by
  have hlines : line + lineCount cs - 1 = line - 1 + lineCount cs := by omega
  have hdrop : ∀ u : List Char, (cs ++ '\n' :: rest).drop (cs ++ '\n' :: u).length
      = rest.drop u.length := by
    intro u
    rw [List.length_append, ← List.drop_drop, List.drop_left, List.length_cons, List.drop_succ_cons]
  simp only [positionAt]
  rw [hlines, takeLines_line, hdrop]
  congr 1
  simp

/-- An error moved down by some lines. -/
def Error.addLines (n : Nat) (e : Error) : Error := ⟨e.position.addLines n, e.cause⟩

/-- The place of a failure is told by what comes before it in the whole text. -/
theorem ofFailure_append (before rest : List Char) (f : Failure) :
    Error.ofFailure (before ++ rest) rest f
      = ⟨positionAt before rest (f.toError rest).line (f.toError rest).column,
          (f.toError rest).cause⟩ := by
  have htake : (before ++ rest).take ((before ++ rest).length - rest.length) = before := by
    rw [List.length_append, Nat.add_sub_cancel, List.take_left]
  simp only [Error.ofFailure, htake]

/-- A failure in what is left of a text, after lines before the text. -/
theorem ofFailure_line (cs before rest : List Char) (f : Failure) :
    Error.ofFailure (cs ++ '\n' :: (before ++ rest)) rest f
      = (Error.ofFailure (before ++ rest) rest f).addLines (lineCount cs) := by
  have hsplit : cs ++ '\n' :: (before ++ rest) = cs ++ '\n' :: before ++ rest := by simp
  rw [hsplit, ofFailure_append, ofFailure_append, positionAt_line]
  rfl

/-- A failure in a text that the reader has begun before, among the lines above it. -/
theorem ofFailure_started (before cs t : List Char) {f : Failure} (h : f.rest <:+ t) :
    Error.ofFailure (before ++ (cs ++ '\n' :: t)) (cs ++ '\n' :: t) f
      = (Error.ofFailure t t f).addLines (lineCount (before ++ cs)) := by
  have hwhole : Error.ofFailure t t f
      = ⟨positionAt [] t (f.toError t).line (f.toError t).column, (f.toError t).cause⟩ :=
    ofFailure_append [] t f
  rw [ofFailure_append, toError_line h, hwhole]
  dsimp only
  rw [positionAt_add before cs t (one_le_toError_line t f), positionAt_line]
  rfl

end Document

end JsonFilter
