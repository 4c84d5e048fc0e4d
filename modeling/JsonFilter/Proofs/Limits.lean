import JsonFilter.Proofs.Items
import Mathlib.Order.Filter.AtTopBot.Basic

/-!
Sequences that depend on a horizon, and what they come to as the horizon grows. Each place of the
limit is taken from some horizon on, though from no common one: a sequence that asks for patterns
goes on in its own way for each answer. Where the limit breaks off, nothing is said. Every way in
which filters combine sequences keeps limits, so what is true of counting is true of filters.
-/

namespace JsonFilter.Outputs

variable {ε ε' α β : Type}

/-- What a family of sequences comes to, place by place. -/
inductive Limit : (Nat → Outputs ε α) → Outputs ε α → Prop where
  | unfinished (o : Nat → Outputs ε α) : Limit o .unfinished
  | done {o : Nat → Outputs ε α} : (∀ᶠ h in Filter.atTop, o h = .done) → Limit o .done
  | yield {o : Nat → Outputs ε α} {item : Except ε α} {rest : Nat → Unit → Outputs ε α}
      {rest' : Unit → Outputs ε α} : (∀ᶠ h in Filter.atTop, o h = .yield item (rest h)) →
      Limit (fun h => rest h ()) (rest' ()) → Limit o (.yield item rest')
  | request {o : Nat → Outputs ε α} {source : String}
      {resume : Nat → Except Pattern.Error Pattern.Automaton → Outputs ε α}
      {resume' : Except Pattern.Error Pattern.Automaton → Outputs ε α} :
      (∀ᶠ h in Filter.atTop, o h = .request source (resume h)) →
      (∀ p, Limit (fun h => resume h p) (resume' p)) → Limit o (.request source resume')

namespace Limit

variable {o : Nat → Outputs ε α} {o' : Outputs ε α}

/-- What a family is at first plays no part. -/
theorem congr {p : Nat → Outputs ε α} (ho : Limit o o') (h : ∀ᶠ h in Filter.atTop, p h = o h) :
    Limit p o' := by
  have both {q : Nat → Outputs ε α} (hq : ∀ᶠ k in Filter.atTop, o k = q k) :
      ∀ᶠ k in Filter.atTop, p k = q k := by
    filter_upwards [h, hq] with k hp ho
    rw [hp, ho]
  cases ho with
  | unfinished => exact .unfinished p
  | done hdone => exact .done (both hdone)
  | yield hyield hrest => exact .yield (both hyield) hrest
  | request hrequest hresume => exact .request (both hrequest) hresume

theorem refl (o : Outputs ε α) : Limit (fun _ => o) o := by
  induction o with
  | done => exact .done (.of_forall fun _ => rfl)
  | unfinished => exact .unfinished _
  | yield item rest ih => exact .yield (.of_forall fun _ => rfl) (ih ())
  | request source resume ih => exact .request (.of_forall fun _ => rfl) ih

/-- The horizons may be reached in another way. -/
theorem comp {g : Nat → Nat} (ho : Limit o o') (hg : Filter.Tendsto g Filter.atTop Filter.atTop) :
    Limit (fun h => o (g h)) o' := by
  induction ho with
  | unfinished => exact .unfinished _
  | done hdone => exact .done (hg.eventually hdone)
  | yield hyield _ ih => exact .yield (hg.eventually hyield) ih
  | request hrequest _ ih => exact .request (hg.eventually hrequest) ih

/-! ## Combinations -/

theorem append {more : Nat → Outputs ε α} {more' : Outputs ε α} (ho : Limit o o')
    (hmore : Limit more more') :
    Limit (fun h => (o h).append fun _ => more h) (o'.append fun _ => more') := by
  induction ho with
  | unfinished => exact .unfinished _
  | done hdone => exact hmore.congr (hdone.mono fun h hh => by rw [hh]; rfl)
  | yield hyield _ ih => exact .yield (hyield.mono fun h hh => by rw [hh]; rfl) ih
  | request hrequest _ ih => exact .request (hrequest.mono fun h hh => by rw [hh]; rfl) ih

theorem bind {f : Nat → α → Outputs ε β} {f' : α → Outputs ε β} (ho : Limit o o')
    (hf : ∀ a, Limit (fun h => f h a) (f' a)) : Limit (fun h => (o h).bind (f h)) (o'.bind f') := by
  induction ho with
  | unfinished => exact .unfinished _
  | done hdone => exact .done (hdone.mono fun h hh => by rw [hh]; rfl)
  | @yield o item _ _ hyield _ ih =>
    cases item with
    | error e => exact .yield (hyield.mono fun h hh => by rw [hh]; rfl) ih
    | ok a =>
      rw [yield_ok_bind]
      exact ((hf a).append ih).congr (hyield.mono fun h hh => by rw [hh, yield_ok_bind])
  | request hrequest _ ih => exact .request (hrequest.mono fun h hh => by rw [hh]; rfl) ih

theorem take (n : Nat) (ho : Limit o o') : Limit (fun h => (o h).take n) (o'.take n) := by
  induction ho generalizing n with
  | unfinished o =>
    unfold Outputs.take
    split
    · next hn =>
      refine .done (.of_forall fun h => ?_)
      subst hn
      cases o h <;> rfl
    · exact .unfinished _
  | done hdone => exact .done (hdone.mono fun h hh => by rw [hh]; rfl)
  | yield hyield _ ih =>
    rw [Outputs.take]
    split
    · next hn =>
      exact .done (hyield.mono fun h hh => by rw [hh, Outputs.take, if_pos hn])
    · next hn =>
      refine .yield (hyield.mono fun h hh => by rw [hh, Outputs.take, if_neg hn]) ?_
      split
      · exact .refl _
      · exact ih (n - 1)
  | request hrequest _ ih =>
    rw [Outputs.take]
    split
    · next hn =>
      exact .done (hrequest.mono fun h hh => by rw [hh, Outputs.take, if_pos hn])
    · next hn =>
      exact .request (hrequest.mono fun h hh => by rw [hh, Outputs.take, if_neg hn]) fun p => ih p n

theorem collect (taken : List α) (ho : Limit o o') :
    Limit (fun h => (o h).collect taken) (o'.collect taken) := by
  induction ho generalizing taken with
  | unfinished => exact .unfinished _
  | done hdone => exact (Limit.refl _).congr (hdone.mono fun h hh => by rw [hh])
  | @yield o item _ _ hyield _ ih =>
    cases item with
    | ok a => exact (ih (a :: taken)).congr (hyield.mono fun h hh => by rw [hh]; rfl)
    | error e => exact (Limit.refl _).congr (hyield.mono fun h hh => by rw [hh]; rfl)
  | request hrequest _ ih =>
    exact .request (hrequest.mono fun h hh => by rw [hh]; rfl) fun p => ih p taken

theorem keep (p : α → Bool) (ho : Limit o o') : Limit (fun h => (o h).keep p) (o'.keep p) := by
  induction ho with
  | unfinished => exact .unfinished _
  | done hdone => exact .done (hdone.mono fun h hh => by rw [hh]; rfl)
  | @yield o item _ _ hyield _ ih =>
    cases item with
    | error e => exact ih.congr (hyield.mono fun h hh => by rw [hh]; rfl)
    | ok a =>
      rw [Outputs.keep]
      split
      · next hp => exact .yield (hyield.mono fun h hh => by rw [hh, Outputs.keep, if_pos hp]) ih
      · next hp => exact ih.congr (hyield.mono fun h hh => by rw [hh, Outputs.keep, if_neg hp])
  | request hrequest _ ih => exact .request (hrequest.mono fun h hh => by rw [hh]; rfl) ih

theorem keepOr (p : α → Bool) {other : Nat → Outputs ε α} {other' : Outputs ε α}
    (ho : Limit o o') (hother : Limit other other') :
    Limit (fun h => (o h).keepOr p fun _ => other h) (o'.keepOr p fun _ => other') := by
  induction ho with
  | unfinished => exact .unfinished _
  | done hdone => exact hother.congr (hdone.mono fun h hh => by rw [hh]; rfl)
  | @yield o item _ _ hyield hrest ih =>
    cases item with
    | error e => exact ih.congr (hyield.mono fun h hh => by rw [hh]; rfl)
    | ok a =>
      rw [Outputs.keepOr]
      split
      · next hp =>
        exact .yield (hyield.mono fun h hh => by rw [hh, Outputs.keepOr, if_pos hp]) (hrest.keep p)
      · next hp => exact ih.congr (hyield.mono fun h hh => by rw [hh, Outputs.keepOr, if_neg hp])
  | request hrequest _ ih => exact .request (hrequest.mono fun h hh => by rw [hh]; rfl) ih

theorem attempt {handler : Nat → ε → Outputs ε' α} {handler' : ε → Outputs ε' α}
    (ho : Limit o o') (hhandler : ∀ e, Limit (fun h => handler h e) (handler' e)) :
    Limit (fun h => (o h).attempt (handler h)) (o'.attempt handler') := by
  induction ho with
  | unfinished => exact .unfinished _
  | done hdone => exact .done (hdone.mono fun h hh => by rw [hh]; rfl)
  | @yield o item _ _ hyield _ ih =>
    cases item with
    | error e => exact (hhandler e).congr (hyield.mono fun h hh => by rw [hh]; rfl)
    | ok a => exact .yield (hyield.mono fun h hh => by rw [hh]; rfl) ih
  | request hrequest _ ih => exact .request (hrequest.mono fun h hh => by rw [hh]; rfl) ih

theorem mapError (g : ε → ε') (ho : Limit o o') :
    Limit (fun h => (o h).mapError g) (o'.mapError g) := by
  induction ho with
  | unfinished => exact .unfinished _
  | done hdone => exact .done (hdone.mono fun h hh => by rw [hh]; rfl)
  | yield hyield _ ih => exact .yield (hyield.mono fun h hh => by rw [hh]; rfl) ih
  | request hrequest _ ih => exact .request (hrequest.mono fun h hh => by rw [hh]; rfl) ih

end Limit

/-! ## Sequences that end -/

/-- Whether a sequence comes to its end, failures or not, where every pattern is read. -/
def stops : Outputs ε α → Bool
  | .done => true
  | .unfinished => false
  | .yield _ rest => (rest ()).stops
  | .request source resume => (resume (Pattern.compile source)).stops

theorem stops_mapError (g : ε → ε') (o : Outputs ε α) : (o.mapError g).stops = o.stops := by
  induction o with
  | done => rfl
  | unfinished => rfl
  | yield item rest ih => exact ih ()
  | request source resume ih => exact ih _

theorem stops_ofList (as : List α) : (ofList as : Outputs ε α).stops = true := by
  induction as with
  | nil => rfl
  | cons a as ih => exact ih

theorem stops_ofItems (items : List (Except ε α)) : (ofItems items).stops = true := by
  induction items with
  | nil => rfl
  | cons item items ih => exact ih

section
variable {o : Outputs ε α}

theorem stops_append {more : Unit → Outputs ε α} (ho : o.stops = true)
    (hmore : (more ()).stops = true) : (o.append more).stops = true := by
  induction o with
  | done => exact hmore
  | unfinished => cases ho
  | yield item rest ih => exact ih () ho
  | request source resume ih => exact ih _ ho

/-- What is made of the values of a sequence comes to its end, if this holds of each of them. -/
theorem stops_bind_of_mem {f : α → Outputs ε β} (ho : o.stops = true)
    (hf : ∀ a, .ok a ∈ o.items → (f a).stops = true) : (o.bind f).stops = true := by
  induction o with
  | done => rfl
  | unfinished => cases ho
  | yield item rest ih =>
    have hrest := ih () ho fun a ha => hf a (List.mem_cons_of_mem _ ha)
    cases item with
    | error e => exact hrest
    | ok a =>
      rw [yield_ok_bind]
      exact stops_append (hf a List.mem_cons_self) hrest
  | request source resume ih => exact ih _ ho hf

theorem stops_bind {f : α → Outputs ε β} (ho : o.stops = true) (hf : ∀ a, (f a).stops = true) :
    (o.bind f).stops = true :=
  stops_bind_of_mem ho fun a _ => hf a

theorem stops_andThen {f : α → Except ε β} (ho : o.stops = true) : (o.andThen f).stops = true :=
  stops_bind ho fun _ => rfl

theorem stops_take (n : Nat) (ho : o.stops = true) : (o.take n).stops = true := by
  induction o generalizing n with
  | done => rfl
  | unfinished => cases ho
  | yield item rest ih =>
    rw [take]
    split
    · rfl
    · rw [stops]
      split
      · rfl
      · exact ih () (n - 1) ho
  | request source resume ih =>
    rw [take]
    split
    · rfl
    · exact ih _ n ho

theorem stops_collect (taken : List α) (ho : o.stops = true) : (o.collect taken).stops = true := by
  induction o generalizing taken with
  | done => rfl
  | unfinished => cases ho
  | yield item rest ih =>
    cases item with
    | error e => rfl
    | ok a => exact ih () (a :: taken) ho
  | request source resume ih => exact ih _ taken ho

theorem stops_keep (p : α → Bool) (ho : o.stops = true) : (o.keep p).stops = true := by
  induction o with
  | done => rfl
  | unfinished => cases ho
  | yield item rest ih =>
    cases item with
    | error e => exact ih () ho
    | ok a =>
      rw [keep]
      split
      · exact ih () ho
      · exact ih () ho
  | request source resume ih => exact ih _ ho

theorem stops_keepOr (p : α → Bool) {other : Unit → Outputs ε α} (ho : o.stops = true)
    (hother : (other ()).stops = true) : (o.keepOr p other).stops = true := by
  induction o with
  | done => exact hother
  | unfinished => cases ho
  | yield item rest ih =>
    cases item with
    | error e => exact ih () ho
    | ok a =>
      rw [keepOr]
      split
      · exact stops_keep p ho
      · exact ih () ho
  | request source resume ih => exact ih _ ho

theorem stops_attempt {handler : ε → Outputs ε' α} (ho : o.stops = true)
    (hhandler : ∀ e, (handler e).stops = true) : (o.attempt handler).stops = true := by
  induction o with
  | done => rfl
  | unfinished => cases ho
  | yield item rest ih =>
    cases item with
    | error e => exact hhandler e
    | ok a => exact ih () ho
  | request source resume ih => exact ih _ ho

end

/-- If the limit comes to its end, so do the sequences from some horizon on, with the same items. -/
theorem Limit.items_eq {o : Nat → Outputs ε α} {o' : Outputs ε α} (ho : Limit o o')
    (hstops : o'.stops = true) :
    ∀ᶠ h in Filter.atTop, (o h).items = o'.items ∧ (o h).stops = true := by
  induction ho with
  | unfinished => cases hstops
  | done hdone => exact hdone.mono fun h hh => by rw [hh]; exact ⟨rfl, rfl⟩
  | yield hyield _ ih =>
    filter_upwards [hyield, ih hstops] with h hh hrest
    rw [hh]
    exact ⟨congrArg (_ :: ·) hrest.1, hrest.2⟩
  | @request o source resume resume' hrequest _ ih =>
    filter_upwards [hrequest, ih _ hstops] with h hh hresume
    rw [hh]
    exact hresume

/-- What is found after some items of a sequence are pulled. -/
def pullAfter : Nat → Pattern.Store → Outputs ε α → Pull ε α
  | 0, store, o => (o.pull store).1
  | n + 1, store, o =>
    match o.pull store with
    | (.item _ rest, store) => (rest ()).pullAfter n store
    | (found, _) => found

theorem pullAfter_request (n : Nat) (store : Pattern.Store) (source : String)
    (resume : Except Pattern.Error Pattern.Automaton → Outputs ε α) :
    (request source resume).pullAfter n store =
      (resume (store.get source).1).pullAfter n (store.get source).2 := by
  cases n <;> rfl

/-- Pulls meet the end of a sequence if it comes to its end and all its items are pulled before. -/
theorem pullAfter_eq_finished_iff {o : Outputs ε α} {store : Pattern.Store} (hstore : store.Sound)
    {n : Nat} : o.pullAfter n store = .finished ↔ o.stops = true ∧ o.items.length ≤ n := by
  induction o generalizing n store with
  | done => cases n <;> exact iff_of_true rfl ⟨rfl, Nat.zero_le _⟩
  | unfinished => cases n <;> exact iff_of_false nofun nofun
  | yield item rest ih =>
    cases n with
    | zero => exact iff_of_false nofun fun h => absurd h.2 (Nat.not_succ_le_zero _)
    | succ n => exact (ih () hstore).trans (and_congr_right' Nat.succ_le_succ_iff.symm)
  | request source resume ih =>
    obtain ⟨hcompile, hsound⟩ := hstore.get source
    rw [pullAfter_request, hcompile]
    exact ih _ hsound

/-- If the limit comes to its end, then from some horizon on so do pulls, after a number of them that
no horizon changes. -/
theorem Limit.pullAfter_finished {o : Nat → Outputs ε α} {o' : Outputs ε α} (ho : Limit o o')
    (hstops : o'.stops = true) :
    ∃ n horizon₀, ∀ horizon ≥ horizon₀, ∀ store : Pattern.Store, store.Sound →
      (o horizon).pullAfter n store = .finished := by
  obtain ⟨horizon₀, heq⟩ := Filter.eventually_atTop.mp (ho.items_eq hstops)
  refine ⟨o'.items.length, horizon₀, fun horizon hge store hstore => ?_⟩
  obtain ⟨hitems, hstops⟩ := heq horizon hge
  exact (pullAfter_eq_finished_iff hstore).mpr ⟨hstops, by rw [hitems]⟩

end JsonFilter.Outputs
