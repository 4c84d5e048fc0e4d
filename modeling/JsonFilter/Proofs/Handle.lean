import JsonFilter.Results
import JsonFilter.Proofs.Grammar.Source
import JsonFilter.Proofs.Items
import JsonFilter.Proofs.Token.Lexemes

/-!
Handles. What a handle may still deliver is fixed before it is pulled: the items of its outputs up
to the first failure. Each pull takes one of them away, and however the handle is consumed after
some pulls, the answer is made of those that are left.
-/

namespace JsonFilter

/-- An item as the answer to who asked for it. -/
def Outcome.ofExcept {α : Type} : Except Diagnostic α → Outcome α
  | .ok a => .value a
  | .error d => .failure d

namespace Results

/-- The items that a handle may still deliver. -/
def remaining (r : Results) : List (Except Diagnostic Value) :=
  if r.state = .pending then upToFailure (r.outputs ()).items else []

/-- Whether counting is cut off before the handle has delivered all. -/
def breaksOff (r : Results) : Bool := r.state = .pending && (r.outputs ()).breaksOff

/-- What the next pulls of a handle give, and the handle and the store after them. -/
def pulls : Nat → Results → Pattern.Store →
    List (Option (Outcome Value)) × Results × Pattern.Store
  | 0, r, store => ([], r, store)
  | k + 1, r, store =>
    let (outcome, r, store) := r.next store
    let (outcomes, r, store) := pulls k r store
    (outcome :: outcomes, r, store)

section

variable {r : Results} {store : Pattern.Store}

theorem remaining_of_pending (h : r.state = .pending) :
    r.remaining = upToFailure (r.outputs ()).items := if_pos h

theorem remaining_of_ne_pending (h : r.state ≠ .pending) : r.remaining = [] := if_neg h

theorem breaksOff_of_pending (h : r.state = .pending) :
    r.breaksOff = (r.outputs ()).breaksOff := by
  rw [breaksOff, decide_eq_true h, Bool.true_and]

theorem breaksOff_of_ne_pending (h : r.state ≠ .pending) : r.breaksOff = false := by
  rw [breaksOff, decide_eq_false h, Bool.false_and]

/-! ## One pull -/

/-- What a pull of a pending handle gives and what becomes of the handle. -/
inductive Delivers (r : Results) : Option (Outcome Value) → Results → Prop
  | value {v : Value} {r' : Results} (hremaining : r.remaining = .ok v :: r'.remaining)
      (hbreaks : r'.breaksOff = r.breaksOff) (hstate : r'.state = .pending) :
      Delivers r (some (.value v)) r'
  | failure {d : Diagnostic} {r' : Results} (hremaining : r.remaining = [.error d])
      (hbreaks : r.breaksOff = false) (hstate : r'.state = .failed) :
      Delivers r (some (.failure d)) r'
  | finished {r' : Results} (hremaining : r.remaining = []) (hbreaks : r.breaksOff = false)
      (hstate : r'.state = .exhausted) : Delivers r none r'
  | unfinished (hremaining : r.remaining = []) (hbreaks : r.breaksOff = true) :
      Delivers r (some .unfinished) r

/-- A pull delivers the next item that remains. -/
theorem next_delivers (hstore : store.Sound) (h : r.state = .pending) :
    ∃ outcome r' store', r.next store = (outcome, r', store') ∧ store'.Sound ∧
      r.Delivers outcome r' := by
  obtain ⟨hpull, hsound⟩ := Outputs.pull_eq_head hstore (r.outputs ())
  rw [next, h]
  cases hp : (r.outputs ()).pull store with
  | mk found store' =>
    rw [hp] at hpull hsound
    simp only at hpull hsound
    cases found with
    | finished =>
      obtain ⟨hitems, hbreaks⟩ := Outputs.of_head_finished hpull.symm
      refine ⟨_, _, _, rfl, hsound, .finished ?_ ?_ rfl⟩
      · rw [remaining_of_pending h, hitems, upToFailure]
      · rw [breaksOff_of_pending h, hbreaks]
    | unfinished =>
      obtain ⟨hitems, hbreaks⟩ := Outputs.of_head_unfinished hpull.symm
      refine ⟨_, _, _, rfl, hsound, .unfinished ?_ ?_⟩
      · rw [remaining_of_pending h, hitems, upToFailure]
      · rw [breaksOff_of_pending h, hbreaks]
    | item item rest =>
      obtain ⟨hitems, hbreaks⟩ := Outputs.of_head_item hpull.symm
      cases item with
      | ok v =>
        refine ⟨_, _, _, rfl, hsound, .value ?_ ?_ rfl⟩
        · rw [remaining_of_pending h, hitems, upToFailure, remaining_of_pending rfl]
        · rw [breaksOff_of_pending h, hbreaks, breaksOff_of_pending rfl]
          rfl
      | error d =>
        refine ⟨_, _, _, rfl, hsound, .failure ?_ ?_ rfl⟩
        · rw [remaining_of_pending h, hitems, upToFailure]
        · rw [breaksOff_of_pending h, hbreaks]
          rfl

/-- A handle that has failed or come to its end gives nothing more and stays as it is. -/
theorem next_of_ne_pending (h : r.state ≠ .pending) : r.next store = (none, r, store) := by
  rw [next]
  split
  · contradiction
  · rfl

theorem pulls_of_ne_pending (h : r.state ≠ .pending) (k : Nat) :
    pulls k r store = (List.replicate k none, r, store) := by
  induction k with
  | zero => rfl
  | succ k ih =>
    rw [pulls, next_of_ne_pending h]
    simp only [ih, List.replicate_succ]

end

/-! ## Many pulls -/

/-- The state of a new handle after some pulls, from what it may deliver. -/
def stateAfter (items : List (Except Diagnostic Value)) (breaksOff : Bool) (k : Nat) : State :=
  if hasFailure (items.take k) then .failed
  else if items.length < k && !breaksOff then .exhausted
  else .pending

/-- Pulls deliver the items that remain, one by one and each once; then the end, again and again. -/
theorem pulls_spec (k : Nat) {r : Results} {store : Pattern.Store} (hstore : store.Sound)
    (h : r.state = .pending) :
    ∃ r' store',
      pulls k r store = ((r.remaining.take k).map (fun item => some (.ofExcept item)) ++
        List.replicate (k - r.remaining.length) (if r.breaksOff then some .unfinished else none),
        r', store') ∧
      store'.Sound ∧ r'.state = stateAfter r.remaining r.breaksOff k ∧
      r'.remaining = r.remaining.drop k ∧ r'.breaksOff = r.breaksOff := by
  induction k generalizing r store with
  | zero => exact ⟨r, store, by simp [pulls], hstore, by simp [stateAfter, hasFailure, h], rfl, rfl⟩
  | succ k ih =>
    obtain ⟨outcome, r', store', hnext, hstore', hdelivers⟩ := next_delivers hstore h
    rw [pulls, hnext]
    cases hdelivers with
    | value hremaining hbreaks hstate =>
      obtain ⟨r'', store'', hpulls, hsound, hstate, hrest, hoff⟩ := ih hstore' hstate
      refine ⟨r'', store'', ?_, hsound, ?_, ?_, hoff.trans hbreaks⟩
      · rw [hremaining, ← hbreaks]
        simp only [hpulls]
        simp [Outcome.ofExcept]
      · rw [hstate, hremaining, hbreaks]
        simp [stateAfter, hasFailure, Except.isOk, Except.toBool]
      · rw [hrest, hremaining, List.drop_succ_cons]
    | failure hremaining hbreaks hstate =>
      have hne : r'.state ≠ .pending := by rw [hstate]; decide
      refine ⟨r', store', ?_, hstore', ?_, ?_, ?_⟩
      · rw [hremaining, hbreaks]
        simp [pulls_of_ne_pending hne, Outcome.ofExcept]
      · rw [hstate, hremaining]
        simp [stateAfter, hasFailure, Except.isOk, Except.toBool]
      · rw [remaining_of_ne_pending hne, hremaining, List.drop_succ_cons, List.drop_nil]
      · rw [breaksOff_of_ne_pending hne, hbreaks]
    | finished hremaining hbreaks hstate =>
      have hne : r'.state ≠ .pending := by rw [hstate]; decide
      refine ⟨r', store', ?_, hstore', ?_, ?_, ?_⟩
      · rw [hremaining, hbreaks]
        simp [pulls_of_ne_pending hne, List.replicate_succ]
      · rw [hstate, hremaining, hbreaks]
        simp [stateAfter, hasFailure]
      · rw [remaining_of_ne_pending hne, hremaining, List.drop_nil]
      · rw [breaksOff_of_ne_pending hne, hbreaks]
    | unfinished hremaining hbreaks =>
      obtain ⟨r', store'', hpulls, hsound, hstate, hrest, hoff⟩ := ih hstore' h
      refine ⟨r', store'', ?_, hsound, ?_, ?_, hoff⟩
      · simp only [hpulls]
        simp [hremaining, hbreaks, List.replicate_succ]
      · rw [hstate, hremaining, hbreaks]
        simp [stateAfter, hasFailure]
      · rw [hrest, hremaining, List.drop_nil, List.drop_nil]

/-! ## Consuming what is left -/

section

variable {r : Results} {store : Pattern.Store}

theorem first_eq (hstore : store.Sound) :
    (r.first store).1 = (r.remaining.head?.map .ofExcept).getD
      (if r.breaksOff then .unfinished else .failure ⟨.noOutput, ""⟩) := by
  rw [first]
  by_cases h : r.state = .pending
  · obtain ⟨outcome, r', store', hnext, -, hdelivers⟩ := next_delivers hstore h
    rw [hnext]
    cases hdelivers with
    | value hremaining _ _ => rw [hremaining]; rfl
    | failure hremaining _ _ => rw [hremaining]; rfl
    | finished hremaining hbreaks _ => rw [hremaining, hbreaks]; rfl
    | unfinished hremaining hbreaks => rw [hremaining, hbreaks]; rfl
  · rw [next_of_ne_pending h, remaining_of_ne_pending h, breaksOff_of_ne_pending h]
    rfl

theorem all_eq (hstore : store.Sound) :
    (r.all store).1 = if r.breaksOff then .unfinished else .ofExcept (r.remaining.mapM id) := by
  by_cases h : r.state = .pending
  · obtain ⟨hpull, -⟩ := Outputs.pull_eq_head hstore ((r.outputs ()).collect [])
    rw [Outputs.head_collect] at hpull
    rw [all, h, remaining_of_pending h, breaksOff_of_pending h]
    cases hp : ((r.outputs ()).collect []).pull store with
    | mk found store' =>
      rw [hp] at hpull
      simp only at hpull
      subst hpull
      cases (r.outputs ()).breaksOff with
      | true => rfl
      | false => cases (upToFailure (r.outputs ()).items).mapM id <;> rfl
  · rw [remaining_of_ne_pending h, breaksOff_of_ne_pending h, all]
    split
    · contradiction
    · rfl

end

/-! ## All ways to consume a handle -/

/-- All ways to consume a handle agree on what it delivers: some items of which only the last may be
a failure, after which counting may have been cut off. -/
structure Presents (r : Results) (store : Pattern.Store) (items : List (Except Diagnostic Value))
    (breaksOff : Bool) : Prop where
  /-- Pulls give the items and then the end, or meet the place where counting was cut off. -/
  outcomes : ∀ k, (pulls k r store).1 =
    (items.take k).map (fun item => some (.ofExcept item)) ++
      List.replicate (k - items.length) (if breaksOff then some .unfinished else none)
  /-- The handle has failed once the failure was given, and is exhausted once the end was. -/
  state : ∀ k, (pulls k r store).2.1.state = stateAfter items breaksOff k
  /-- A handle that has failed or is exhausted stays so. -/
  terminal : ∀ k n, (pulls k r store).2.1.state ≠ .pending →
    (pulls (k + n) r store).2.1.state = (pulls k r store).2.1.state
  /-- Asked for the first output after some pulls, the handle gives the first item that is left. -/
  first : ∀ k, ((pulls k r store).2.1.first (pulls k r store).2.2).1 =
    ((items.drop k).head?.map .ofExcept).getD
      (if breaksOff then .unfinished else .failure ⟨.noOutput, ""⟩)
  /-- Asked for all outputs after some pulls, it gives the values that are left, or the failure. -/
  all : ∀ k, ((pulls k r store).2.1.all (pulls k r store).2.2).1 =
    if breaksOff then .unfinished else .ofExcept ((items.drop k).mapM id)
  /-- Asked for text after some pulls, it gives the texts of the values that are left, with one line
  feed between any two of them, or fails as when it is asked for all outputs. -/
  text : ∀ k style, ((pulls k r store).2.1.text style (pulls k r store).2.2).1 =
    if breaksOff then .unfinished else .ofExcept
      (((items.drop k).mapM id).map fun values =>
        String.intercalate "\n" (values.map (Value.text style)))

theorem hasFailure_take_add {ε α : Type} {items : List (Except ε α)} {k : Nat} (n : Nat)
    (h : hasFailure (items.take k) = true) : hasFailure (items.take (k + n)) = true := by
  rw [hasFailure, List.take_add, List.any_append]
  exact Bool.or_eq_true_iff.mpr (.inl h)

theorem stateAfter_add {items : List (Except Diagnostic Value)} {breaksOff : Bool} {k : Nat}
    (n : Nat) (h : stateAfter items breaksOff k ≠ .pending) :
    stateAfter items breaksOff (k + n) = stateAfter items breaksOff k := by
  by_cases hfail : hasFailure (items.take k) = true
  · rw [stateAfter, stateAfter, if_pos hfail, if_pos (hasFailure_take_add n hfail)]
  · rw [stateAfter, if_neg hfail] at h
    by_cases hend : (items.length < k && !breaksOff) = true
    · obtain ⟨hlength, hbreaks⟩ : items.length < k ∧ breaksOff = false := by simpa using hend
      have hall : items.take k = items := List.take_of_length_le (Nat.le_of_lt hlength)
      have hall' : items.take (k + n) = items := List.take_of_length_le (by omega)
      have hend' : (items.length < k + n && !breaksOff) = true := by simpa using ⟨by omega, hbreaks⟩
      rw [hall] at hfail
      rw [stateAfter, stateAfter, hall, hall', if_neg hfail, if_neg hfail, if_pos hend, if_pos hend']
    · rw [if_neg hend] at h
      contradiction

/-- All ways to consume a new handle agree. -/
theorem start_presents (outputs : Unit → Outputs Diagnostic Value) {store : Pattern.Store}
    (hstore : store.Sound) :
    (start outputs).Presents store (upToFailure (outputs ()).items) (outputs ()).breaksOff := by
  have hremaining : (start outputs).remaining = upToFailure (outputs ()).items :=
    remaining_of_pending rfl
  have hbreaks : (start outputs).breaksOff = (outputs ()).breaksOff := breaksOff_of_pending rfl
  rw [← hremaining, ← hbreaks]
  have hspec := fun k => pulls_spec k hstore (rfl : (start outputs).state = .pending)
  refine ⟨fun k => ?_, fun k => ?_, fun k n h => ?_, fun k => ?_, fun k => ?_, fun k style => ?_⟩ <;>
    obtain ⟨r', store', hpulls, hsound, hstate, hrest, hoff⟩ := hspec k
  · rw [hpulls]
  · rw [hpulls, hstate]
  · obtain ⟨r'', store'', hpulls', -, hstate', -, -⟩ := hspec (k + n)
    rw [hpulls] at h ⊢
    rw [hpulls', hstate', hstate]
    exact stateAfter_add n (hstate ▸ h)
  · rw [hpulls, ← hrest, ← hoff]
    exact first_eq hsound
  · rw [hpulls, ← hrest, ← hoff]
    exact all_eq hsound
  · rw [hpulls, ← hrest, ← hoff]
    show ((r'.all store').1).map (lines style) = _
    rw [all_eq hsound]
    split
    · rfl
    · cases r'.remaining.mapM id <;> rfl

/-- Outputs may go on after a failure; a handle does not. -/
example :
    (pulls 4 (start fun _ => .ofItems [.ok .null, .error ⟨.noOutput, ""⟩, .ok .null]) .empty).1
      = [some (.value .null), some (.failure ⟨.noOutput, ""⟩), none, none] := rfl

/-- The ways to consume a handle agree for every program and input, a value or a text: what is
pulled, the state after every pull, and what the handle gives as a whole after some pulls all tell
of the items of the execution up to the first failure. A source that does not compile behaves as an
execution whose only item is the failure to compile. -/
theorem consumers_agree (horizon : Nat) (input : Input) {store : Pattern.Store}
    (hstore : store.Sound) :
    (∀ p : Program, (ofProgram horizon p input).Presents store
      (upToFailure (p.outputs horizon input).items) (p.outputs horizon input).breaksOff) ∧
    ∀ (o : Options) (source : String),
      (∀ p, Program.compile o source = .ok p →
        ofSource horizon o source input = ofProgram horizon p input) ∧
      ∀ d, Program.compile o source = .error d →
        (ofSource horizon o source input).Presents store [.error d] false := by
  refine ⟨fun p => start_presents _ hstore, fun o source => ⟨fun p h => ?_, fun d h => ?_⟩⟩
  · rw [ofSource, h]
  · rw [ofSource, h]
    exact start_presents _ hstore

/-- A source that compiles and one that does not. After one of three outputs was pulled, the text of
a handle is that of the other two. -/
theorem consumers_agree_sources :
    let o : Options := ⟨false, [], []⟩
    ∃ p d, Program.compile o "null,true,false" = .ok p ∧ Program.compile o "(" = .error d ∧
      (ofSource 0 o "null,true,false" (.value .null)).Presents .empty
        (upToFailure (p.outputs 0 (.value .null)).items) (p.outputs 0 (.value .null)).breaksOff ∧
      (ofSource 0 o "(" (.value .null)).Presents .empty [.error d] false ∧
      let (outcomes, left) := pulls 1 (ofSource 0 o "null,true,false" (.value .null)) .empty
      outcomes = [some (.value .null)] ∧ (left.1.text .compact left.2).1 = .value "true\nfalse" := by
  intro o
  obtain ⟨hprogram, hsource⟩ := consumers_agree 0 (.value .null) Pattern.Store.sound_empty
  let tokens : List Token := [⟨.keyword .nullWord, ⟨⟨1, 1⟩, ⟨1, 5⟩⟩⟩,
    ⟨.symbol .comma, ⟨⟨1, 5⟩, ⟨1, 6⟩⟩⟩, ⟨.keyword .trueWord, ⟨⟨1, 6⟩, ⟨1, 10⟩⟩⟩,
    ⟨.symbol .comma, ⟨⟨1, 10⟩, ⟨1, 11⟩⟩⟩, ⟨.keyword .falseWord, ⟨⟨1, 11⟩, ⟨1, 16⟩⟩⟩,
    ⟨.finish, .empty ⟨1, 16⟩⟩]
  let p : Program := ⟨"null,true,false",
    .comma ⟨⟨1, 10⟩, ⟨1, 11⟩⟩
      (.comma ⟨⟨1, 5⟩, ⟨1, 6⟩⟩ (.literal ⟨⟨1, 1⟩, ⟨1, 5⟩⟩ .null)
        (.literal ⟨⟨1, 6⟩, ⟨1, 10⟩⟩ (.bool true)))
      (.literal ⟨⟨1, 11⟩, ⟨1, 16⟩⟩ (.bool false)), [(environmentName, .object [])]⟩
  have hlist : Token.list "null,true,false" = .ok tokens := by
    repeat refine Token.listFrom_cons rfl ⟨_, rfl, rfl, rfl, rfl⟩ rfl ?_
    exact Token.listFrom_finish rfl
  have hp : Program.compile o "null,true,false" = .ok p := by
    rw [Program.compile_of_list hlist]
    cbv
  have hbad := Program.compile_openParen o
  have hpresents := hprogram p
  rw [← (hsource o "null,true,false").1 p hp] at hpresents
  exact ⟨p, _, hp, hbad, hpresents, (hsource o "(").2 _ hbad, hpresents.outcomes 1,
    hpresents.text 1 .compact⟩

end Results

end JsonFilter
