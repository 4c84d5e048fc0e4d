import JsonFilter.Proofs.Items
import Mathlib.Data.List.Forall2

/-!
Sequences that correspond: they have the same values in the same places, ask for the same patterns
and are cut off where the other one is, and where one has a failure the other has a failure related
to it. Every way in which filters combine sequences keeps that.
-/

namespace JsonFilter.Outputs

variable {ε ε' α β : Type} {R : ε → ε' → Prop}

/-- The same sequence, up to failures that are related in pairs. -/
inductive Corresponds (R : ε → ε' → Prop) : Outputs ε α → Outputs ε' α → Prop where
  | done : Corresponds R .done .done
  | unfinished : Corresponds R .unfinished .unfinished
  | value {a : α} {rest : Unit → Outputs ε α} {rest' : Unit → Outputs ε' α} :
      Corresponds R (rest ()) (rest' ()) → Corresponds R (.yield (.ok a) rest) (.yield (.ok a) rest')
  | failure {e : ε} {e' : ε'} {rest : Unit → Outputs ε α} {rest' : Unit → Outputs ε' α} :
      R e e' → Corresponds R (rest ()) (rest' ()) →
      Corresponds R (.yield (.error e) rest) (.yield (.error e') rest')
  | request {source : String} {resume : Except Pattern.Error Pattern.Automaton → Outputs ε α}
      {resume' : Except Pattern.Error Pattern.Automaton → Outputs ε' α} :
      (∀ p, Corresponds R (resume p) (resume' p)) →
      Corresponds R (.request source resume) (.request source resume')

/-- Items that are the same value or related failures. -/
inductive ItemRel (R : ε → ε' → Prop) : Except ε α → Except ε' α → Prop where
  | ok (a : α) : ItemRel R (.ok a) (.ok a)
  | error {e : ε} {e' : ε'} : R e e' → ItemRel R (.error e) (.error e')

theorem exists_of_mem_forall₂ {γ δ : Type} {S : γ → δ → Prop} {xs : List γ} {ys : List δ}
    (h : List.Forall₂ S xs ys) {x : γ} (hx : x ∈ xs) : ∃ y ∈ ys, S x y := by
  induction h with
  | nil => cases hx
  | cons hxy _ ih =>
    cases hx with
    | head => exact ⟨_, List.mem_cons_self, hxy⟩
    | tail _ hx =>
      obtain ⟨y, hy, h⟩ := ih hx
      exact ⟨y, List.mem_cons_of_mem _ hy, h⟩

namespace Corresponds

/-! ## Sequences without parts -/

theorem single {item : Except ε α} {item' : Except ε' α} (h : ItemRel R item item') :
    Corresponds R (Outputs.single item) (Outputs.single item') := by
  cases h with
  | ok a => exact .value .done
  | error he => exact .failure he .done

theorem ofValue (a : α) : Corresponds R (Outputs.value a) (Outputs.value a) := .value .done

theorem ofList (as : List α) : Corresponds R (Outputs.ofList as) (Outputs.ofList as) := by
  induction as with
  | nil => exact .done
  | cons a as ih => exact .value ih

theorem refl {S : ε → ε → Prop} (h : ∀ e, S e e) (o : Outputs ε α) : Corresponds S o o := by
  induction o with
  | done => exact .done
  | unfinished => exact .unfinished
  | yield item rest ih =>
    cases item with
    | ok a => exact .value (ih ())
    | error e => exact .failure (h e) (ih ())
  | request source resume ih => exact .request ih

/-! ## Combinations -/

variable {o : Outputs ε α} {o' : Outputs ε' α}

theorem append {more : Unit → Outputs ε α} {more' : Unit → Outputs ε' α} (ho : Corresponds R o o')
    (hmore : Corresponds R (more ()) (more' ())) :
    Corresponds R (o.append more) (o'.append more') := by
  induction ho with
  | done => exact hmore
  | unfinished => exact .unfinished
  | value _ ih => exact .value ih
  | failure he _ ih => exact .failure he ih
  | request _ ih => exact .request ih

theorem bind {f : α → Outputs ε β} {f' : α → Outputs ε' β} (ho : Corresponds R o o')
    (hf : ∀ a, Corresponds R (f a) (f' a)) : Corresponds R (o.bind f) (o'.bind f') := by
  induction ho with
  | done => exact .done
  | unfinished => exact .unfinished
  | value _ ih =>
    rw [yield_ok_bind, yield_ok_bind]
    exact (hf _).append ih
  | failure he _ ih => exact .failure he ih
  | request _ ih => exact .request ih

theorem andThen {f : α → Except ε β} {f' : α → Except ε' β} (ho : Corresponds R o o')
    (hf : ∀ a, ItemRel R (f a) (f' a)) : Corresponds R (o.andThen f) (o'.andThen f') :=
  ho.bind fun a => single (hf a)

theorem take (n : Nat) (ho : Corresponds R o o') : Corresponds R (o.take n) (o'.take n) := by
  induction ho generalizing n with
  | done => exact .done
  | unfinished =>
    unfold Outputs.take
    split
    · exact .done
    · exact .unfinished
  | value _ ih =>
    unfold Outputs.take
    split
    · exact .done
    · apply Corresponds.value
      split
      · exact .done
      · exact ih _
  | failure he _ ih =>
    unfold Outputs.take
    split
    · exact .done
    · apply Corresponds.failure he
      split
      · exact .done
      · exact ih _
  | request _ ih =>
    unfold Outputs.take
    split
    · exact .done
    · exact .request fun p => ih p n

theorem collect (taken : List α) (ho : Corresponds R o o') :
    Corresponds R (o.collect taken) (o'.collect taken) := by
  induction ho generalizing taken with
  | done => exact ofValue _
  | unfinished => exact .unfinished
  | value _ ih => exact ih _
  | failure he _ _ => exact .failure he .done
  | request _ ih => exact .request fun p => ih p taken

theorem keep (p : α → Bool) (ho : Corresponds R o o') : Corresponds R (o.keep p) (o'.keep p) := by
  induction ho with
  | done => exact .done
  | unfinished => exact .unfinished
  | value _ ih =>
    unfold Outputs.keep
    split
    · exact .value ih
    · exact ih
  | failure _ _ ih => exact ih
  | request _ ih => exact .request ih

theorem keepOr (p : α → Bool) {other : Unit → Outputs ε α} {other' : Unit → Outputs ε' α}
    (ho : Corresponds R o o') (hother : Corresponds R (other ()) (other' ())) :
    Corresponds R (o.keepOr p other) (o'.keepOr p other') := by
  induction ho with
  | done => exact hother
  | unfinished => exact .unfinished
  | value hrest ih =>
    unfold Outputs.keepOr
    split
    · exact .value (hrest.keep p)
    · exact ih
  | failure _ _ ih => exact ih
  | request _ ih => exact .request ih

theorem attempt {δ δ' : Type} {S : δ → δ' → Prop} {o : Outputs δ α} {o' : Outputs δ' α}
    {handler : δ → Outputs ε α} {handler' : δ' → Outputs ε' α} (ho : Corresponds S o o')
    (hh : ∀ e e', S e e' → Corresponds R (handler e) (handler' e')) :
    Corresponds R (o.attempt handler) (o'.attempt handler') := by
  induction ho with
  | done => exact .done
  | unfinished => exact .unfinished
  | value _ ih => exact .value ih
  | failure he _ _ => exact hh _ _ he
  | request _ ih => exact .request ih

theorem mapError {δ δ' : Type} {S : δ → δ' → Prop} {g : ε → δ} {g' : ε' → δ'}
    (ho : Corresponds R o o') (hg : ∀ e e', R e e' → S (g e) (g' e')) :
    Corresponds S (o.mapError g) (o'.mapError g') := by
  induction ho with
  | done => exact .done
  | unfinished => exact .unfinished
  | value _ ih => exact .value ih
  | failure he _ ih => exact .failure (hg _ _ he) ih
  | request _ ih => exact .request ih

/-! ## What follows -/

theorem mono {S : ε → ε' → Prop} (ho : Corresponds R o o') (h : ∀ e e', R e e' → S e e') :
    Corresponds S o o' := by
  induction ho with
  | done => exact .done
  | unfinished => exact .unfinished
  | value _ ih => exact .value ih
  | failure he _ ih => exact .failure (h _ _ he) ih
  | request _ ih => exact .request ih

/-- Items stand in the same places. -/
theorem items (ho : Corresponds R o o') : List.Forall₂ (ItemRel R) o.items o'.items := by
  induction ho with
  | done => exact .nil
  | unfinished => exact .nil
  | value _ ih => exact .cons (.ok _) ih
  | failure he _ ih => exact .cons (.error he) ih
  | request _ ih => exact ih _

theorem error_left (ho : Corresponds R o o') {e : ε} (he : .error e ∈ o.items) : ∃ e', R e e' := by
  obtain ⟨item, _, hitem⟩ := exists_of_mem_forall₂ ho.items he
  cases hitem with
  | error h => exact ⟨_, h⟩

theorem error_right (ho : Corresponds R o o') {e' : ε'} (he : .error e' ∈ o'.items) :
    ∃ e, R e e' := by
  obtain ⟨item, _, hitem⟩ := exists_of_mem_forall₂ ho.items.flip he
  cases hitem with
  | error h => exact ⟨_, h⟩

/-- A sequence corresponds to no other one if only equal failures are related. -/
theorem eq {p : Outputs ε α} (ho : Corresponds Eq o p) : o = p := by
  induction ho with
  | done => rfl
  | unfinished => rfl
  | value _ ih =>
    congr 1
    funext _
    exact ih
  | failure he _ ih =>
    rw [he]
    congr 1
    funext _
    exact ih
  | request _ ih =>
    congr 1
    funext p
    exact ih p

end Corresponds

end JsonFilter.Outputs
