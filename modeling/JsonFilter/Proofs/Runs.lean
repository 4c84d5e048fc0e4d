import JsonFilter.Proofs.Limits

/-!
What runs of combined sequences come to. A run is what is seen of a sequence by pulling all of it
where every pattern is read: its items, and whether it comes to its end or is cut off. Each way of
combining sequences is an operation on runs, so facts about the items of filters are facts about
lists.
-/

namespace JsonFilter

section
variable {ε α : Type}

/-- The values before the first failure. -/
def leadingValues : List (Except ε α) → List α
  | .ok a :: items => a :: leadingValues items
  | _ => []

/-- The first failure among some items. -/
def firstFailure? : List (Except ε α) → Option ε
  | [] => none
  | .ok _ :: items => firstFailure? items
  | .error e :: _ => some e

end

namespace Outputs

variable {ε ε' α : Type}

/-- Sequences with the same items, which both come to their end there or are both cut off. -/
structure SameRun (o o' : Outputs ε α) : Prop where
  items : o.items = o'.items
  stops : o.stops = o'.stops

/-! ## Pulls -/

theorem stops_of_head (o : Outputs ε α) : (o.head = .finished → o.stops = true) ∧
    (o.head = .unfinished → o.stops = false) ∧
    ∀ item rest, o.head = .item item rest → o.stops = (rest ()).stops := by
  induction o with
  | done => exact ⟨fun _ => rfl, by rintro ⟨⟩, by rintro _ _ ⟨⟩⟩
  | unfinished => exact ⟨by rintro ⟨⟩, fun _ => rfl, by rintro _ _ ⟨⟩⟩
  | yield item rest _ =>
    refine ⟨by rintro ⟨⟩, by rintro ⟨⟩, fun item' rest' h => ?_⟩
    obtain ⟨-, rfl⟩ := Pull.item.inj h
    rfl
  | request source resume ih => exact ih _

/-- Sequences of which a pull finds the same have the same run. -/
theorem SameRun.of_head {o o' : Outputs ε α} (h : o.head = o'.head) : o.SameRun o' := by
  obtain ⟨hfinished, hunfinished, hitem⟩ := stops_of_head o
  obtain ⟨hfinished', hunfinished', hitem'⟩ := stops_of_head o'
  cases ho : o.head with
  | finished =>
    have ho' := h.symm.trans ho
    exact ⟨(of_head_finished ho).1.trans (of_head_finished ho').1.symm,
      (hfinished ho).trans (hfinished' ho').symm⟩
  | unfinished =>
    have ho' := h.symm.trans ho
    exact ⟨(of_head_unfinished ho).1.trans (of_head_unfinished ho').1.symm,
      (hunfinished ho).trans (hunfinished' ho').symm⟩
  | item item rest =>
    have ho' := h.symm.trans ho
    exact ⟨(of_head_item ho).1.trans (of_head_item ho').1.symm,
      (hitem _ _ ho).trans (hitem' _ _ ho').symm⟩

/-! ## One sequence after another -/

theorem items_append (o : Outputs ε α) (more : Unit → Outputs ε α) :
    (o.append more).items = if o.stops then o.items ++ (more ()).items else o.items := by
  induction o with
  | done => rfl
  | unfinished => rfl
  | yield item rest ih =>
    show item :: ((rest ()).append more).items =
      if (rest ()).stops then item :: ((rest ()).items ++ _) else item :: (rest ()).items
    rw [ih ()]
    split <;> rfl
  | request source resume ih => exact ih _

theorem stops_append_eq (o : Outputs ε α) (more : Unit → Outputs ε α) :
    (o.append more).stops = (o.stops && (more ()).stops) := by
  induction o with
  | done => rfl
  | unfinished => rfl
  | yield item rest ih => exact ih ()
  | request source resume ih => exact ih _

/-! ## The first items -/

theorem items_take (n : Nat) (o : Outputs ε α) : (o.take n).items = o.items.take n := by
  induction o generalizing n with
  | done => exact List.take_nil.symm
  | unfinished => cases n <;> rfl
  | yield item rest ih =>
    obtain _ | _ | n := n
    · rfl
    · rfl
    · exact congrArg (item :: ·) (ih () (n + 1))
  | request source resume ih =>
    cases n with
    | zero => rfl
    | succ n => exact ih _ (n + 1)

/-- So many items may be taken without the run being cut off, if there are as many or it is not cut
off itself. -/
theorem stops_take_eq (n : Nat) (o : Outputs ε α) :
    (o.take n).stops = (decide (n ≤ o.items.length) || o.stops) := by
  induction o generalizing n with
  | done => simp [take, stops]
  | unfinished => cases n <;> rfl
  | yield item rest ih =>
    obtain _ | _ | n := n
    · rfl
    · simp [take, stops, Outputs.items]
    · show ((rest ()).take (n + 1)).stops = (decide (n + 2 ≤ (rest ()).items.length + 1) || _)
      rw [ih () (n + 1)]
      simp [stops]
  | request source resume ih =>
    cases n with
    | zero => simp [take, stops]
    | succ n => exact ih _ (n + 1)

section
variable {o : Outputs ε α} {n : Nat}

/-- What comes after as many items as are taken does not matter. -/
theorem take_append_of_le (h : n ≤ o.items.length) (more : Unit → Outputs ε α) :
    ((o.append more).take n).SameRun (o.take n) where
  items := by
    rw [items_take, items_take, items_append]
    split
    · exact List.take_append_of_le_length h
    · rfl
  stops := by
    rw [stops_take_eq, stops_take_eq, items_append, decide_eq_true h, Bool.true_or]
    split
    · rw [List.length_append, decide_eq_true (Nat.le_add_right_of_le h), Bool.true_or]
    · rw [decide_eq_true h, Bool.true_or]

/-- If more items are taken than there are, all of them are, and what is missing is taken from what
comes after. -/
theorem take_append_of_lt (h : o.items.length < n) (more : Unit → Outputs ε α) :
    ((o.append more).take n).SameRun
      (o.append fun _ => (more ()).take (n - o.items.length)) where
  items := by
    rw [items_take, items_append, items_append, items_take]
    split
    · rw [List.take_append, List.take_of_length_le h.le]
    · exact List.take_of_length_le h.le
  stops := by
    rw [stops_take_eq, stops_append_eq, stops_append_eq, stops_take_eq, items_append]
    cases hstops : o.stops with
    | false => simpa using h
    | true =>
      simp only [if_true, List.length_append, Bool.true_and]
      congr 2
      exact propext (by omega)

end

/-! ## Handled failures -/

theorem items_attempt (handler : ε → Outputs ε' α) (o : Outputs ε α) :
    (o.attempt handler).items = (leadingValues o.items).map .ok ++
      (firstFailure? o.items).elim [] fun e => (handler e).items := by
  induction o with
  | done => rfl
  | unfinished => rfl
  | yield item rest ih =>
    cases item with
    | ok a => exact congrArg (.ok a :: ·) (ih ())
    | error e => rfl
  | request source resume ih => exact ih _

theorem stops_attempt_eq (handler : ε → Outputs ε' α) (o : Outputs ε α) :
    (o.attempt handler).stops =
      (firstFailure? o.items).elim o.stops fun e => (handler e).stops := by
  induction o with
  | done => rfl
  | unfinished => rfl
  | yield item rest ih =>
    cases item with
    | ok a => exact ih ()
    | error e => rfl
  | request source resume ih => exact ih _

end Outputs

end JsonFilter
