import JsonFilter.Outputs

/-!
Laws of lazy sequences. `bind` with `value` is a monad up to the shortcut for empty sequences, and
a change of all failures (`mapError`) commutes with every way in which filters combine sequences.
Both hold of the sequences themselves and not only of their items, so also where a sequence waits
for a pattern, was cut off, or goes on after a failure.
-/

namespace JsonFilter.Outputs

variable {ε ε' α β : Type}

-- What the induction steps below rewrite with.
attribute [local simp] append bind mapError take collect keep keepOr attempt

/-! ## Joining -/

@[simp] theorem done_append (more : Unit → Outputs ε α) : done.append more = more () := rfl

@[simp] theorem append_done (o : Outputs ε α) : (o.append fun _ => .done) = o := by
  induction o with
  | done => rfl
  | unfinished => rfl
  | yield item rest ih => simp only [append, ih]
  | request source resume ih => simp only [append, ih]

theorem append_assoc (o : Outputs ε α) (p q : Unit → Outputs ε α) :
    ((o.append p).append q) = o.append fun _ => (p ()).append q := by
  induction o with
  | done => rfl
  | unfinished => rfl
  | yield item rest ih => simp only [append, ih]
  | request source resume ih => simp only [append, ih]

theorem ofList_append (as bs : List α) :
    (ofList (as ++ bs) : Outputs ε α) = (ofList as).append fun _ => ofList bs := by
  induction as with
  | nil => rfl
  | cons a as ih => simp only [List.cons_append, ofList, append, ih]

theorem ofItems_append (xs ys : List (Except ε α)) :
    ofItems (xs ++ ys) = (ofItems xs).append fun _ => ofItems ys := by
  induction xs with
  | nil => rfl
  | cons x xs ih => simp only [List.cons_append, ofItems, append, ih]

/-! ## Binding -/

@[simp] theorem done_bind (f : α → Outputs ε β) : (done : Outputs ε α).bind f = .done := rfl

/-- The outputs for a value come before those for the values after it; the shortcut for a value
that has none shows nothing. -/
theorem yield_ok_bind (a : α) (rest : Unit → Outputs ε α) (f : α → Outputs ε β) :
    (yield (.ok a) rest).bind f = (f a).append fun _ => (rest ()).bind f := by
  rw [bind]
  cases f a <;> rfl

theorem append_bind (o : Outputs ε α) (more : Unit → Outputs ε α) (f : α → Outputs ε β) :
    (o.append more).bind f = (o.bind f).append fun _ => (more ()).bind f := by
  induction o with
  | done => rfl
  | unfinished => rfl
  | yield item rest ih =>
    cases item with
    | error e =>
      simp only [append, bind]
      congr 1
      funext _
      exact ih ()
    | ok a =>
      simp only [append, yield_ok_bind, append_assoc]
      congr 1
      funext _
      exact ih ()
  | request source resume ih =>
    simp only [append, bind]
    congr 1
    funext p
    exact ih p

theorem bind_assoc {γ : Type} (o : Outputs ε α) (f : α → Outputs ε β) (g : β → Outputs ε γ) :
    (o.bind f).bind g = o.bind fun a => (f a).bind g := by
  induction o with
  | done => rfl
  | unfinished => rfl
  | yield item rest ih =>
    cases item with
    | error e =>
      simp only [bind]
      congr 1
      funext _
      exact ih ()
    | ok a =>
      simp only [yield_ok_bind, append_bind]
      congr 1
      funext _
      exact ih ()
  | request source resume ih =>
    simp only [bind]
    congr 1
    funext p
    exact ih p

@[simp] theorem value_bind (a : α) (f : α → Outputs ε β) : (value a : Outputs ε α).bind f = f a := by
  simp only [value, single, yield_ok_bind, done_bind, append_done]

@[simp] theorem failure_bind (e : ε) (f : α → Outputs ε β) :
    (failure e : Outputs ε α).bind f = failure e := rfl

@[simp] theorem bind_value (o : Outputs ε α) : o.bind value = o := by
  induction o with
  | done => rfl
  | unfinished => rfl
  | yield item rest ih =>
    cases item with
    | error e => simp only [bind, ih]
    | ok a => simp only [yield_ok_bind, ih, value, single, append]
  | request source resume ih => simp only [bind, ih]

@[simp] theorem value_andThen (a : α) (f : α → Except ε β) : (value a).andThen f = single (f a) :=
  value_bind a _

/-! ## Changing failures -/

variable (g : ε → ε')

@[simp] theorem mapError_ok (a : α) : (Except.ok a : Except ε α).mapError g = .ok a := rfl

@[simp] theorem mapError_error (e : ε) : (Except.error e : Except ε α).mapError g = .error (g e) :=
  rfl

@[simp] theorem mapError_value (a : α) : (value a).mapError g = value a := rfl

@[simp] theorem mapError_failure (e : ε) : (failure e : Outputs ε α).mapError g = failure (g e) := rfl

@[simp] theorem mapError_single (item : Except ε α) :
    (single item).mapError g = single (item.mapError g) := rfl

@[simp] theorem mapError_ofList (as : List α) : (ofList as).mapError g = ofList as := by
  induction as with
  | nil => rfl
  | cons a as ih => simp only [ofList, mapError, ih, mapError_ok]

@[simp] theorem mapError_ofItems (items : List (Except ε α)) :
    (ofItems items).mapError g = ofItems (items.map (Except.mapError g)) := by
  induction items with
  | nil => rfl
  | cons item items ih => simp only [ofItems, List.map_cons, mapError, ih]

theorem mapError_mapError {ε'' : Type} (f : ε' → ε'') (o : Outputs ε α) :
    (o.mapError g).mapError f = o.mapError (f ∘ g) := by
  induction o with
  | done => rfl
  | unfinished => rfl
  | yield item rest ih =>
    cases item <;> simp only [mapError, ih] <;> rfl
  | request source resume ih => simp only [mapError, ih]

theorem mapError_append (o : Outputs ε α) (more : Unit → Outputs ε α) :
    (o.append more).mapError g = (o.mapError g).append fun _ => (more ()).mapError g := by
  induction o with
  | done => rfl
  | unfinished => rfl
  | yield item rest ih => simp only [append, mapError, ih]
  | request source resume ih => simp only [append, mapError, ih]

theorem mapError_bind (o : Outputs ε α) (f : α → Outputs ε β) :
    (o.bind f).mapError g = (o.mapError g).bind fun a => (f a).mapError g := by
  induction o with
  | done => rfl
  | unfinished => rfl
  | yield item rest ih =>
    cases item with
    | error e => simp only [bind, mapError, mapError_error, ih]
    | ok a => simp only [yield_ok_bind, mapError, mapError_ok, mapError_append, ih]
  | request source resume ih => simp only [bind, mapError, ih]

/-- A change of failures leaves a single value alone, and makes one of nothing else. -/
theorem mapError_eq_value {o : Outputs ε α} {a : α} (h : o.mapError g = value a) : o = value a := by
  cases o with
  | done => simp only [mapError, value, single, reduceCtorEq] at h
  | unfinished => simp only [mapError, value, single, reduceCtorEq] at h
  | request source resume => simp only [mapError, value, single, reduceCtorEq] at h
  | yield item rest =>
    simp only [mapError, value, single, yield.injEq] at h
    obtain ⟨hitem, hrest⟩ := h
    cases item with
    | error e => simp only [mapError_error, reduceCtorEq] at hitem
    | ok b =>
      simp only [mapError_ok, Except.ok.injEq] at hitem
      have hdone : rest = fun _ => .done := by
        funext u
        have := congrFun hrest u
        cases hr : rest u with
        | done => rfl
        | unfinished => simp only [hr, mapError, reduceCtorEq] at this
        | yield item rest => simp only [hr, mapError, reduceCtorEq] at this
        | request source resume => simp only [hr, mapError, reduceCtorEq] at this
      rw [hitem, hdone]
      rfl

end JsonFilter.Outputs
