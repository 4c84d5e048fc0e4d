/-!
What a reader takes from the front of its input: a result and the rest, which is shorter. A reader
of this type has read something, so a loop over it ends.
-/

namespace JsonFilter

/-- A result read from the front of `input`, and what is left. -/
structure Front {σ : Type} (α : Type) (input : List σ) where
  value : α
  rest : List σ
  shorter : rest.length < input.length

namespace Front

variable {σ α β : Type} {input whole : List σ}

theorem whole_le (s : List σ) : s.length ≤ s.length := Nat.le_refl _

theorem tail_lt (s : List σ) : s.length < s.length + 1 := Nat.lt_succ_self _

theorem tail_le (s : List σ) : s.length ≤ s.length + 1 := Nat.le_succ _

theorem le_cons {r s : List σ} (h : r.length ≤ s.length) : r.length ≤ s.length + 1 :=
  Nat.le_succ_of_le h

/-- Another result with the same rest. -/
def map (f : α → β) (r : Front α input) : Front β input := ⟨f r.value, r.rest, r.shorter⟩

/-- What was read from the front of a shorter input was read from the front of the whole. -/
def widen (h : input.length ≤ whole.length) (r : Front α input) : Front α whole :=
  ⟨r.value, r.rest, Nat.lt_of_lt_of_le r.shorter h⟩

end Front

/-- Two steps succeed if the first does and then the second. -/
theorem ok_of_bind {ε α β : Type} {x : Except ε α} {f : α → Except ε β} {b : β}
    (h : (x >>= f) = .ok b) : ∃ a, x = .ok a ∧ f a = .ok b := by
  cases x with
  | error e => cases h
  | ok a => exact ⟨a, rfl, h⟩

end JsonFilter
