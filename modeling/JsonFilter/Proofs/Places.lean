import JsonFilter.Text.Position

/-!
Places and the texts in front of them. The place behind a text is told by its lines and characters;
walking over more of the text leads further on, and turning the place back into an offset gives the
bytes of the text.
-/

namespace JsonFilter.Position

/-- The place behind the beginning of a text: a line feed ends a line, and a column is a number of
characters of its line. -/
def behind (before : List Char) : Position :=
  ⟨before.count '\n' + 1, (before.reverse.takeWhile (· ≠ '\n')).length + 1⟩

theorem behind_concat (before : List Char) (c : Char) :
    behind (before ++ [c]) = (behind before).advance c := by
  unfold behind advance
  by_cases hc : c = '\n'
  · simp [hc]
  · simp [hc]

/-- Walking over a text leads to the place behind it. -/
theorem behind_append (before cs : List Char) :
    behind (before ++ cs) = (behind before).after cs := by
  induction cs generalizing before with
  | nil => rw [List.append_nil, after_nil]
  | cons c cs ih =>
    rw [after_cons, ← behind_concat, ← ih, List.append_assoc, List.singleton_append]

theorem after_start (cs : List Char) : start.after cs = behind cs := (behind_append [] cs).symm

/-! ## The order of places -/

/-- A place comes before another one, in lines and then in columns. -/
def Before (p q : Position) : Prop := p.line < q.line ∨ p.line = q.line ∧ p.column < q.column

theorem Before.trans {p q r : Position} (h : p.Before q) (h' : q.Before r) : p.Before r := by
  unfold Before at *
  omega

theorem Before.ne {p q : Position} (h : p.Before q) : p ≠ q := by
  rintro rfl
  unfold Before at h
  omega

theorem before_advance (p : Position) (c : Char) : p.Before (p.advance c) := by
  unfold Before advance
  split
  · exact .inl (Nat.lt_succ_self _)
  · exact .inr ⟨rfl, Nat.lt_succ_self _⟩

theorem before_after (p : Position) (c : Char) (cs : List Char) :
    p.Before (p.after (c :: cs)) := by
  induction cs generalizing p c with
  | nil => exact before_advance p c
  | cons d ds ih => exact (before_advance p c).trans (ih (p.advance c) d)

/-- Only the empty text leads nowhere. -/
theorem after_eq_self {p : Position} {cs : List Char} (h : p.after cs = p) : cs = [] := by
  cases cs with
  | nil => rfl
  | cons c cs => exact absurd h.symm (before_after p c cs).ne

/-! ## Offsets -/

/-- A walk that begins at a place and is to stop behind some text stops there. -/
theorem offsetFrom_after (here : Position) (cs rest : List Char) :
    (here.after cs).offsetFrom here (cs ++ rest) = (String.ofList cs).utf8ByteSize := by
  induction cs generalizing here with
  | nil =>
    cases rest with
    | nil => rfl
    | cons c rest => simp [offsetFrom]
  | cons c cs ih =>
    have hbefore := before_after here c cs
    have hgoes : ¬((here.after (c :: cs)).line ≤ here.line ∧
        (here.after (c :: cs)).column ≤ here.column) := by
      unfold Before at hbefore
      omega
    rw [List.cons_append, offsetFrom, if_neg hgoes, after_cons, ih, String.ofList_cons,
      String.utf8ByteSize_append, String.utf8ByteSize_singleton]

/-- The offset of the place behind the beginning of a text is the size of that beginning. -/
theorem offset_behind {before rest : List Char} {text : String} (h : text.toList = before ++ rest) :
    (behind before).offset text = (String.ofList before).utf8ByteSize := by
  rw [offset, h, ← after_start, offsetFrom_after]

end JsonFilter.Position
