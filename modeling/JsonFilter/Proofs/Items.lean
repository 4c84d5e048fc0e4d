import JsonFilter.Proofs.Outputs

/-!
The items of a lazy sequence. The need for a pattern is met from a store of automata; a store that
holds for every source what reading that source gives meets it as reading the source would, so the
items that are pulled do not depend on the store. Who consumes a sequence stops at its first
failure, so of the items only those up to that failure count.
-/

namespace JsonFilter

/-! ## Stores -/

namespace Pattern.Store

/-- A store holds for a source only what reading the source gives. -/
def Sound (store : Store) : Prop :=
  ∀ source automaton, store.find? source = some automaton → compile source = .ok automaton

theorem sound_empty : empty.Sound := fun _ _ h => nomatch h

theorem Sound.insert {store : Store} (h : store.Sound) {source : String} {automaton : Automaton}
    (hcompile : compile source = .ok automaton) : (store.insert source automaton).Sound := by
  have hcons : ∀ entries, (⟨entries⟩ : Store).Sound →
      (⟨(source, automaton) :: entries⟩ : Store).Sound := by
    intro entries hentries other found hfind
    rw [find?, List.lookup_cons] at hfind
    split at hfind
    · rename_i heq
      rw [eq_of_beq heq, hcompile, Option.some.inj hfind]
    · exact hentries other found hfind
  rw [Store.insert]
  split
  · exact hcons [] sound_empty
  · exact hcons store.entries h

/-- A sound store answers with what reading the source gives, and stays sound. -/
theorem Sound.get {store : Store} (h : store.Sound) (source : String) :
    (store.get source).1 = compile source ∧ (store.get source).2.Sound := by
  rw [Store.get]
  split
  · rename_i automaton hfind
    exact ⟨(h source automaton hfind).symm, h⟩
  · split
    · rename_i automaton hcompile
      exact ⟨hcompile.symm, h.insert hcompile⟩
    · rename_i e hcompile
      exact ⟨hcompile.symm, h⟩

end Pattern.Store

/-! ## Items up to the first failure -/

section

variable {ε α : Type}

/-- The items up to the first failure, which is kept. -/
def upToFailure : List (Except ε α) → List (Except ε α)
  | [] => []
  | .ok a :: items => .ok a :: upToFailure items
  | .error e :: _ => [.error e]

/-- Whether a failure is among some items. -/
def hasFailure (items : List (Except ε α)) : Bool := items.any fun item => !item.isOk

/-- Failures may be changed before the items after the first one are left out. -/
theorem upToFailure_map {ε' : Type} (g : ε → ε') (items : List (Except ε α)) :
    upToFailure (items.map (Except.mapError g)) = (upToFailure items).map (Except.mapError g) := by
  induction items with
  | nil => rfl
  | cons item items ih =>
    cases item with
    | error e => rfl
    | ok a => exact congrArg (.ok a :: ·) ih

/-- How failures are changed plays no part where there are none. -/
theorem map_mapError_congr {ε' : Type} {items : List (Except ε α)} (h : hasFailure items = false)
    (f g : ε → ε') : items.map (Except.mapError f) = items.map (Except.mapError g) := by
  refine List.map_congr_left fun item hitem => ?_
  cases item with
  | ok a => rfl
  | error e => exact absurd rfl (List.any_eq_false.mp h _ hitem)

theorem mapM_ok_cons (a : α) (items : List (Except ε α)) :
    (.ok a :: items).mapM id = (items.mapM id).map (a :: ·) := by
  rw [List.mapM_cons]
  cases items.mapM id <;> rfl

theorem mapM_error_cons (e : ε) (items : List (Except ε α)) :
    (.error e :: items).mapM id = (.error e : Except ε (List α)) := by
  rw [List.mapM_cons]
  rfl

end

namespace Outputs

variable {ε α : Type}

/-- The items of a sequence, where every pattern is read. -/
def items : Outputs ε α → List (Except ε α)
  | .done => []
  | .unfinished => []
  | .yield item rest => item :: (rest ()).items
  | .request source resume => (resume (Pattern.compile source)).items

/-- Whether counting was cut off before the end and the first failure. -/
def breaksOff : Outputs ε α → Bool
  | .done => false
  | .unfinished => true
  | .yield (.ok _) rest => (rest ()).breaksOff
  | .yield (.error _) _ => false
  | .request source resume => (resume (Pattern.compile source)).breaksOff

/-- What the next pull of a sequence finds, where every pattern is read. -/
def head : Outputs ε α → Pull ε α
  | .done => .finished
  | .unfinished => .unfinished
  | .yield item rest => .item item rest
  | .request source resume => (resume (Pattern.compile source)).head

/-- A pull that meets the need for patterns from a sound store finds what it would find without. -/
theorem pull_eq_head {store : Pattern.Store} (h : store.Sound) (o : Outputs ε α) :
    (o.pull store).1 = o.head ∧ (o.pull store).2.Sound := by
  induction o generalizing store with
  | done => exact ⟨rfl, h⟩
  | unfinished => exact ⟨rfl, h⟩
  | yield item rest _ => exact ⟨rfl, h⟩
  | request source resume ih =>
    obtain ⟨hcompile, hsound⟩ := h.get source
    rw [pull, head, ← hcompile]
    exact ih _ hsound

section

variable {o : Outputs ε α} {item : Except ε α} {rest : Unit → Outputs ε α}

theorem of_head_finished (h : o.head = .finished) : o.items = [] ∧ o.breaksOff = false := by
  induction o with
  | done => exact ⟨rfl, rfl⟩
  | unfinished => nomatch h
  | yield item rest _ => nomatch h
  | request source resume ih => exact ih _ h

theorem of_head_unfinished (h : o.head = .unfinished) : o.items = [] ∧ o.breaksOff = true := by
  induction o with
  | done => nomatch h
  | unfinished => exact ⟨rfl, rfl⟩
  | yield item rest _ => nomatch h
  | request source resume ih => exact ih _ h

theorem of_head_item (h : o.head = .item item rest) :
    o.items = item :: (rest ()).items ∧ o.breaksOff = (item.isOk && (rest ()).breaksOff) := by
  induction o with
  | done => nomatch h
  | unfinished => nomatch h
  | yield item rest _ =>
    cases h
    cases item <;> exact ⟨rfl, rfl⟩
  | request source resume ih => exact ih _ h

end

/-- Collecting finds all values, or the first failure, unless counting was cut off before. -/
theorem head_collect (o : Outputs ε α) (taken : List α) :
    (o.collect taken).head =
      if o.breaksOff then .unfinished
      else .item (((upToFailure o.items).mapM id).map (taken.reverse ++ ·)) fun _ => .done := by
  induction o generalizing taken with
  | done =>
    show Pull.item (.ok taken.reverse) _ = .item (.ok (taken.reverse ++ [])) _
    rw [List.append_nil]
  | unfinished => rfl
  | yield item rest ih =>
    cases item with
    | error e =>
      rw [items, upToFailure, mapM_error_cons]
      rfl
    | ok a =>
      rw [collect, ih, items, upToFailure, mapM_ok_cons, breaksOff]
      split
      · rfl
      · cases (upToFailure (rest ()).items).mapM id with
        | error e => rfl
        | ok vs => simp [Except.map]
  | request source resume ih => exact ih _ taken

/-! ## Sequences made of others -/

@[simp] theorem items_ofItems (xs : List (Except ε α)) : (ofItems xs).items = xs := by
  induction xs with
  | nil => rfl
  | cons x xs ih => exact congrArg (x :: ·) ih

theorem items_mapError {ε' : Type} (g : ε → ε') (o : Outputs ε α) :
    (o.mapError g).items = o.items.map (Except.mapError g) := by
  induction o with
  | done => rfl
  | unfinished => rfl
  | yield item rest ih => exact congrArg (item.mapError g :: ·) (ih ())
  | request source resume ih => exact ih _

theorem mem_items_append {o : Outputs ε α} {more : Unit → Outputs ε α} {item : Except ε α}
    (h : item ∈ (o.append more).items) : item ∈ o.items ∨ item ∈ (more ()).items := by
  induction o with
  | done => exact .inr h
  | unfinished => exact .inl h
  | yield first rest ih =>
    cases h with
    | head => exact .inl List.mem_cons_self
    | tail _ h => exact (ih () h).imp (List.mem_cons_of_mem _) id
  | request source resume ih => exact ih _ h

/-- A failure among the outputs for some values is one of the values' or of the outputs'. -/
theorem error_mem_items_bind {β : Type} {o : Outputs ε α} {f : α → Outputs ε β} {e : ε}
    (h : .error e ∈ (o.bind f).items) : .error e ∈ o.items ∨ ∃ a, .error e ∈ (f a).items := by
  induction o with
  | done => cases h
  | unfinished => cases h
  | yield item rest ih =>
    cases item with
    | error e' =>
      cases h with
      | head => exact .inl List.mem_cons_self
      | tail _ h => exact (ih () h).imp (List.mem_cons_of_mem _) id
    | ok a =>
      rw [yield_ok_bind] at h
      rcases mem_items_append h with h | h
      · exact .inr ⟨a, h⟩
      · exact (ih () h).imp (List.mem_cons_of_mem _) id
  | request source resume ih => exact ih _ h

/-- A value among the outputs for some values is one of the outputs for one of them. -/
theorem ok_mem_items_bind {β : Type} {o : Outputs ε α} {f : α → Outputs ε β} {b : β}
    (h : .ok b ∈ (o.bind f).items) : ∃ a, .ok a ∈ o.items ∧ .ok b ∈ (f a).items := by
  induction o with
  | done => cases h
  | unfinished => cases h
  | yield item rest ih =>
    cases item with
    | error e =>
      have hrest : .ok b ∈ ((rest ()).bind f).items := by simpa [bind, items] using h
      obtain ⟨a, ha, hb⟩ := ih () hrest
      exact ⟨a, List.mem_cons_of_mem _ ha, hb⟩
    | ok a =>
      rw [yield_ok_bind] at h
      rcases mem_items_append h with hb | hrest
      · exact ⟨a, List.mem_cons_self, hb⟩
      · obtain ⟨a', ha', hb⟩ := ih () hrest
        exact ⟨a', List.mem_cons_of_mem _ ha', hb⟩
  | request source resume ih => exact ih _ h

theorem breaksOff_mapError {ε' : Type} (g : ε → ε') (o : Outputs ε α) :
    (o.mapError g).breaksOff = o.breaksOff := by
  induction o with
  | done => rfl
  | unfinished => rfl
  | yield item rest ih =>
    cases item with
    | error e => rfl
    | ok a => exact ih ()
  | request source resume ih => exact ih _

/-- Of two sequences, one after the other, the second is reached if the first ends without a
failure. -/
theorem upToFailure_append (o : Outputs ε α) (more : Unit → Outputs ε α) :
    upToFailure (o.append more).items =
      if hasFailure (upToFailure o.items) || o.breaksOff then upToFailure o.items
      else upToFailure o.items ++ upToFailure (more ()).items := by
  induction o with
  | done => rfl
  | unfinished => rfl
  | yield item rest ih =>
    cases item with
    | error e => rfl
    | ok a =>
      show .ok a :: upToFailure ((rest ()).append more).items = _
      rw [ih ()]
      show _ = if hasFailure (upToFailure (rest ()).items) || (rest ()).breaksOff then _ else _
      split <;> rfl
  | request source resume ih => exact ih _

theorem breaksOff_append (o : Outputs ε α) (more : Unit → Outputs ε α) :
    (o.append more).breaksOff =
      if hasFailure (upToFailure o.items) || o.breaksOff then o.breaksOff
      else (more ()).breaksOff := by
  induction o with
  | done => rfl
  | unfinished => rfl
  | yield item rest ih =>
    cases item with
    | error e => rfl
    | ok a => exact ih ()
  | request source resume ih => exact ih _

end Outputs

end JsonFilter
