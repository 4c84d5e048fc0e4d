import JsonFilter.Eval
import JsonFilter.Proofs.Correspondence

/-!
Agreement: two filters correspond if their outputs do, for every horizon, environment and input.
Correspondence is a congruence: filters made in the same way of parts that correspond do correspond,
as long as the failures that they add themselves are related. If all failures with the same fault
are related, two corresponding filters agree: values, faults, their order, the patterns asked for
and the places where counting is cut off are all the same, and only the ranges by which failures are
told may differ.
-/

namespace JsonFilter

open Outputs (Corresponds ItemRel)

/-- The same sequence, up to the ranges of its failures. -/
def Outputs.Agree {α : Type} (o p : Outputs Failure α) : Prop :=
  o.mapError Failure.fault = p.mapError Failure.fault

theorem Outputs.Corresponds.agree {α : Type} {o p : Outputs Failure α}
    (h : Corresponds (fun e e' => e.fault = e'.fault) o p) : Agree o p :=
  (h.mapError fun _ _ he => he).eq

namespace Filter

variable {R : Failure → Failure → Prop}

/-- Filters whose outputs correspond in every run. -/
def Corresponds (R : Failure → Failure → Prop) (f f' : Filter) : Prop :=
  ∀ horizon env v, Outputs.Corresponds R (eval horizon f env v) (eval horizon f' env v)

/-- Missing filters correspond to each other, whatever stands in their place. -/
def CorrespondsOption (R : Failure → Failure → Prop) (f f' : Option Filter) : Prop :=
  ∀ horizon other env v,
    Outputs.Corresponds R (evalOr horizon f other env v) (evalOr horizon f' other env v)

/-- Whatever the fault is, it may be told by one range in the one run and by another in the other. -/
def Told (R : Failure → Failure → Prop) (loc loc' : Range) : Prop :=
  ∀ fault, R ⟨loc, fault⟩ ⟨loc', fault⟩

/-- Filters whose outputs agree in every run. -/
def Agree (f g : Filter) : Prop :=
  ∀ horizon env v, Outputs.Agree (eval horizon f env v) (eval horizon g env v)

theorem Told.located {loc loc' : Range} (h : Told R loc loc') {α : Type} (r : Except Fault α) :
    ItemRel R (located loc r) (located loc' r) := by
  cases r with
  | ok a => exact .ok a
  | error fault => exact .error (h fault)

theorem Told.fail {loc loc' : Range} (h : Told R loc loc') (fault : Fault) :
    Outputs.Corresponds R (fail loc fault) (fail loc' fault) := .failure (h fault) .done

/-! ## Congruence, one lemma for each form of filter -/

namespace Corresponds

variable {f f' g g' : Filter} {loc loc' : Range}

theorem index (hloc : Told R loc loc') (hf : Corresponds R f f') (hg : Corresponds R g g') :
    Corresponds R (.index loc f g) (.index loc' f' g') := by
  intro horizon env v
  simp only [eval]
  apply (hf horizon env v).bind
  intro t
  apply (hg horizon env v).andThen
  intro k
  exact hloc.located (t.index k)

theorem slice {low low' high high' : Option Filter} (hloc : Told R loc loc')
    (hf : Corresponds R f f') (hl : CorrespondsOption R low low')
    (hh : CorrespondsOption R high high') :
    Corresponds R (.slice loc f low high) (.slice loc' f' low' high') := by
  intro horizon env v
  simp only [eval]
  apply (hf horizon env v).bind
  intro t
  apply (hl horizon .null env v).bind
  intro l
  apply (hh horizon .null env v).andThen
  intro r
  exact hloc.located (t.slice l r)

theorem iterate (hloc : Told R loc loc') (hf : Corresponds R f f') :
    Corresponds R (.iterate loc f) (.iterate loc' f') := by
  intro horizon env v
  simp only [eval]
  apply (hf horizon env v).bind
  intro t
  cases t.items with
  | ok items => exact .ofList items
  | error fault => exact hloc.fail fault

theorem pipe (hf : Corresponds R f f') (hg : Corresponds R g g') :
    Corresponds R (.pipe loc f g) (.pipe loc' f' g') := by
  intro horizon env v
  simp only [eval]
  exact (hf horizon env v).bind fun x => hg horizon env x

theorem comma (hf : Corresponds R f f') (hg : Corresponds R g g') :
    Corresponds R (.comma loc f g) (.comma loc' f' g') := by
  intro horizon env v
  simp only [eval]
  exact (hf horizon env v).append (hg horizon env v)

theorem alternative (hf : Corresponds R f f') (hg : Corresponds R g g') :
    Corresponds R (.alternative loc f g) (.alternative loc' f' g') := by
  intro horizon env v
  simp only [eval]
  exact (hf horizon env v).keepOr Value.isTruthy (hg horizon env v)

theorem and (hf : Corresponds R f f') (hg : Corresponds R g g') :
    Corresponds R (.and loc f g) (.and loc' f' g') := by
  intro horizon env v
  simp only [eval]
  apply (hf horizon env v).bind
  intro l
  split
  · exact (hg horizon env v).andThen fun _ => .ok _
  · exact .ofValue _

theorem or (hf : Corresponds R f f') (hg : Corresponds R g g') :
    Corresponds R (.or loc f g) (.or loc' f' g') := by
  intro horizon env v
  simp only [eval]
  apply (hf horizon env v).bind
  intro l
  split
  · exact .ofValue _
  · exact (hg horizon env v).andThen fun _ => .ok _

theorem binary (op : BinaryOp) (hloc : Told R loc loc') (hf : Corresponds R f f')
    (hg : Corresponds R g g') : Corresponds R (.binary loc op f g) (.binary loc' op f' g') := by
  intro horizon env v
  simp only [eval]
  -- The right operand is the outer loop.
  apply (hg horizon env v).bind
  intro r
  apply (hf horizon env v).andThen
  intro l
  exact hloc.located (op.apply l r)

theorem negate (hloc : Told R loc loc') (hf : Corresponds R f f') :
    Corresponds R (.negate loc f) (.negate loc' f') := by
  intro horizon env v
  simp only [eval]
  apply (hf horizon env v).andThen
  intro n
  exact hloc.located n.negate

theorem array (hf : Corresponds R f f') :
    Corresponds R (.array loc (some f)) (.array loc' (some f')) := by
  intro horizon env v
  simp only [eval]
  exact ((hf horizon env v).collect []).andThen fun _ => .ok _

/-- A key that is no string is told by the range of the key and not by that of the object. -/
theorem object {es es' : List (Filter × Filter)}
    (hes : List.Forall₂ (fun e e' => Corresponds R e.1 e'.1 ∧ Corresponds R e.2 e'.2 ∧
      ∀ v, R ⟨e.1.loc, .keyNotString v⟩ ⟨e'.1.loc, .keyNotString v⟩) es es') :
    Corresponds R (.object loc es) (.object loc' es') := by
  intro horizon env v
  simp only [eval]
  -- The fields before an entry are different in each round of the induction.
  generalize ([] : Fields Value) = fields
  induction hes generalizing fields with
  | nil => exact .ofValue _
  | @cons e e' es es' he _ ih =>
    obtain ⟨key, value⟩ := e
    obtain ⟨key', value'⟩ := e'
    obtain ⟨hkey, hvalue, hfault⟩ := he
    simp only [evalEntries]
    apply (hkey horizon env v).bind
    intro k
    cases k with
    | string k =>
      apply (hvalue horizon env v).bind
      intro x
      exact ih (Fields.insert k x fields)
    | _ => exact .failure (hfault _) .done

theorem cond {bs bs' : List (Filter × Filter)} {otherwise otherwise' : Option Filter}
    (hbs : List.Forall₂ (fun b b' => Corresponds R b.1 b'.1 ∧ Corresponds R b.2 b'.2) bs bs')
    (ho : CorrespondsOption R otherwise otherwise') :
    Corresponds R (.cond loc bs otherwise) (.cond loc' bs' otherwise') := by
  intro horizon env v
  simp only [eval]
  induction hbs with
  | nil => exact ho horizon v env v
  | @cons b b' bs bs' hb _ ih =>
    obtain ⟨test, body⟩ := b
    obtain ⟨test', body'⟩ := b'
    simp only [evalBranches]
    apply (hb.1 horizon env v).bind
    intro c
    split
    · exact hb.2 horizon env v
    · exact ih

theorem attempt (hf : Corresponds R f f') :
    Corresponds R (.attempt loc f none) (.attempt loc' f' none) := by
  intro horizon env v
  simp only [eval]
  exact (hf horizon env v).attempt fun _ _ _ => .done

/-- A handler sees of a failure no more than its fault. -/
theorem attemptCatch (hR : ∀ e e', R e e' → e.fault = e'.fault) (hf : Corresponds R f f')
    (hg : Corresponds R g g') :
    Corresponds R (.attempt loc f (some g)) (.attempt loc' f' (some g')) := by
  intro horizon env v
  simp only [eval]
  apply (hf horizon env v).attempt
  intro e e' he
  rw [hR e e' he]
  exact hg horizon env e'.fault.caught

theorem bind (name : String) (hf : Corresponds R f f') (hg : Corresponds R g g') :
    Corresponds R (.bind loc f name g) (.bind loc' f' name g') := by
  intro horizon env v
  simp only [eval]
  exact (hf horizon env v).bind fun x => hg horizon ((name, x) :: env) v

end Corresponds

/-! ## Calls -/

section
variable {loc loc' : Range}

theorem countFrom_corresponds (horizon : Nat) (n upto : Number) :
    Outputs.Corresponds R (countFrom horizon n upto) (countFrom horizon n upto) := by
  induction horizon generalizing n with
  | zero => exact .unfinished
  | succ horizon ih =>
    unfold countFrom
    split
    · exact .value (ih _)
    · exact .done

theorem count_corresponds (horizon : Nat) (low upto : Number) :
    Outputs.Corresponds R (count horizon low upto) (count horizon low upto) := by
  unfold count
  split
  · exact .done
  · exact countFrom_corresponds horizon low upto

theorem rangeOf_corresponds (hloc : Told R loc loc') (horizon : Nat) (args : List Value) :
    Outputs.Corresponds R (rangeOf horizon loc args) (rangeOf horizon loc' args) := by
  unfold rangeOf
  split
  · exact count_corresponds horizon _ _
  · exact count_corresponds horizon _ _
  · exact hloc.fail _

theorem limitOf_corresponds (hloc : Told R loc loc') (n : Value) {o o' : Unit → Stream}
    (h : Outputs.Corresponds R (o ()) (o' ())) :
    Outputs.Corresponds R (limitOf loc n o) (limitOf loc' n o') := by
  unfold limitOf
  split
  · split
    · exact h.take _
    · exact .done
  · exact hloc.fail _

theorem answer_corresponds (hloc : Told R loc loc') (q : Value.Question) :
    Outputs.Corresponds R (answer loc q) (answer loc' q) := by
  refine .request fun p => ?_
  cases p with
  | ok automaton => exact .ofValue _
  | error reason => exact hloc.fail _

theorem testOf_corresponds (hloc : Told R loc loc') (input : Value) (args : List Value) :
    Outputs.Corresponds R (testOf loc input args) (testOf loc' input args) := by
  unfold testOf
  dsimp only
  split
  · exact answer_corresponds hloc _
  · exact hloc.fail _

theorem callOf_corresponds (hloc : Told R loc loc') (horizon : Nat) (b : Builtin) (input : Value)
    (args : List Value) :
    Outputs.Corresponds R (callOf horizon loc b input args) (callOf horizon loc' b input args) := by
  unfold callOf
  split
  · exact rangeOf_corresponds hloc horizon args
  · exact testOf_corresponds hloc input args
  · exact .single (hloc.located _)

theorem evalArgs_corresponds {args args' : List Filter}
    (h : List.Forall₂ (Corresponds R) args args') (horizon : Nat) (env : Env) (v : Value) :
    Outputs.Corresponds R (evalArgs horizon args env v) (evalArgs horizon args' env v) := by
  induction h with
  | nil => exact .ofValue _
  | cons harg _ ih =>
    simp only [evalArgs]
    apply (harg horizon env v).bind
    intro x
    exact ih.andThen fun _ => .ok _

/-- Calls correspond if their arguments do. The filter builtins are told apart by the number of
their arguments, so the arguments are taken apart first. -/
theorem Corresponds.call (b : Builtin) {args args' : List Filter} (hloc : Told R loc loc')
    (h : List.Forall₂ (Corresponds R) args args') :
    Corresponds R (.call loc b args) (.call loc' b args') := by
  intro horizon env v
  have hargs : Outputs.Corresponds R ((evalArgs horizon args env v).bind (callOf horizon loc b v))
      ((evalArgs horizon args' env v).bind (callOf horizon loc' b v)) :=
    (evalArgs_corresponds h horizon env v).bind (callOf_corresponds hloc horizon b v)
  cases h with
  | nil =>
    cases b with
    | empty => exact .done
    | recurse => exact .ofList _
    | env => exact .ofValue _
    | _ => exact hargs
  | @cons f f' _ _ hf hrest =>
    cases hrest with
    | nil =>
      cases b with
      | map =>
        simp only [eval]
        split
        · rename_i items _
          have hitems : Outputs.Corresponds R ((Outputs.ofList items).bind (eval horizon f env))
              ((Outputs.ofList items).bind (eval horizon f' env)) :=
            (Outputs.Corresponds.ofList items).bind fun x => hf horizon env x
          exact (hitems.collect []).andThen fun _ => .ok _
        · exact hloc.fail _
      | select =>
        simp only [eval]
        apply (hf horizon env v).bind
        intro x
        split
        · exact .ofValue _
        · exact .done
      | first =>
        simp only [eval]
        exact (hf horizon env v).take 1
      | _ => exact hargs
    | @cons g g' _ _ hg hrest =>
      cases hrest with
      | nil =>
        cases b with
        | limit =>
          simp only [eval]
          exact (hf horizon env v).bind fun n => limitOf_corresponds hloc n (hg horizon env v)
        | _ => exact hargs
      | cons => cases b <;> exact hargs

end

end Filter

end JsonFilter
