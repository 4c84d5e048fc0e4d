import JsonFilter.Program
import JsonFilter.Proofs.Contexts
import JsonFilter.Proofs.Counting
import JsonFilter.Proofs.Evaluators
import JsonFilter.Proofs.Grammar.Source
import JsonFilter.Proofs.Token.Lexemes

/-!
Evaluation ends. Nothing but counting goes on without end in a filter, so a program comes to its end
on every input if the counts that it asks for get larger with each step. Evaluation without a horizon
says what the outputs are then, and where a count fails to get larger. Counts between numbers of size
at most 2 ^ 53 get larger with each step, and beyond this bound they need not.
-/

namespace JsonFilter

namespace Filter

/-- Counting as far as counts get larger, and handing everything on. -/
def Policy.exact : Policy := ⟨exactCount, fun _ o => o⟩

/-- As the horizon grows, evaluation comes to evaluation without one. -/
def Comparison.exact : Comparison (fun h : Nat => h) .exact where
  rel _ _ := Outputs.Limit
  refl _ _ := .refl
  append ho hmore := ho.append hmore
  bind ho hf := ho.bind hf
  take n _ _ _ _ ho := ho.take n
  first ho := ho.take 1
  collect ho := ho.collect []
  keepOr p _ _ _ _ _ ho hother := ho.keepOr p hother
  attempt ho hhandler := ho.attempt hhandler
  count _ := count_limit
  pass ho := ho

/-- The outputs of a filter if no horizon bounds how far it counts. They break off at the first
count that is asked to go on and would not get larger. -/
def evalExact (f : Filter) (env : Env) (v : Value) : Stream := evalBy .exact true f env v

theorem eval_limit (f : Filter) (env : Env) (v : Value) :
    Outputs.Limit (fun h => eval h f env v) (evalExact f env v) :=
  Comparison.exact.holds f true env v

/-! ## Filters that do not count, or not far -/

/-- That a filter calls `range` somewhere. -/
def Counts (f : Filter) : Prop := ∃ loc args, OccursIn (.call loc .range args) f

/-- That all numbers which a filter gives are modest, for every environment and input. -/
def GivesModest (f : Filter) : Prop :=
  ∀ horizon env v n, .ok (.number n) ∈ (eval horizon f env v).items → n.Modest

/-- That a filter counts, if at all, from modest numbers and up to modest numbers only. -/
def CountsModestly (f : Filter) : Prop :=
  ∀ loc args, OccursIn (.call loc .range args) f → ∀ a ∈ args, GivesModest a

theorem countsModestly_of_not_counts {f : Filter} (h : ¬ f.Counts) : f.CountsModestly :=
  fun loc args hoccurs => absurd ⟨loc, args, hoccurs⟩ h

/-- Calls of `range` on modest literals. -/
theorem countsModestly_of_literals {f : Filter}
    (h : ∀ loc args, OccursIn (.call loc .range args) f →
      ∀ a ∈ args, ∃ loc n, a = .literal loc (.number n) ∧ n.Modest) : f.CountsModestly := by
  intro loc args hoccurs a ha horizon env v m hm
  obtain ⟨loc', n, rfl, hn⟩ := h loc args hoccurs a ha
  obtain rfl : m = n := by
    rcases hm with _ | ⟨_, hm⟩
    · rfl
    · cases hm
  exact hn

/-- That a filter comes to its end, for every environment and input. -/
def Ends (f : Filter) : Prop := ∀ past env v, (evalBy .exact past f env v).stops = true

section
variable {env : Env} {v : Value} {past : Bool}

/-- What a filter that ends gives without a horizon, it gives at some horizon. -/
theorem Ends.exists_horizon {f : Filter} (h : Ends f) {item : Except Failure Value}
    (hitem : item ∈ (evalBy .exact past f env v).items) :
    ∃ horizon, item ∈ (eval horizon f env v).items := by
  have hlimit := Comparison.exact.holds f past env v
  obtain ⟨horizon, hitems, -⟩ := (hlimit.items_eq (h past env v)).exists
  exact ⟨horizon, hitems ▸ hitem⟩

theorem evalOrBy_stops {f : Option Filter} {other : Value} (h : ∀ g ∈ f, Ends g) :
    (evalOrBy .exact past f other env v).stops = true := by
  cases f with
  | none => rfl
  | some f => exact h f rfl past env v

theorem evalArgsBy_stops {args : List Filter} (h : ∀ f ∈ args, Ends f) :
    (evalArgsBy .exact past args env v).stops = true := by
  induction args with
  | nil => rfl
  | cons f fs ih =>
    simp only [evalArgsBy]
    exact Outputs.stops_bind (h f List.mem_cons_self past env v) fun x =>
      Outputs.stops_andThen (ih fun g hg => h g (List.mem_cons_of_mem f hg))

/-- Every argument of a call is a value of its filter. -/
theorem exists_of_mem_evalArgsBy {args : List Filter} {xs : List Value}
    (h : .ok xs ∈ (evalArgsBy .exact past args env v).items) {x : Value} (hx : x ∈ xs) :
    ∃ f ∈ args, .ok x ∈ (evalBy .exact past f env v).items := by
  induction args generalizing xs with
  | nil =>
    rcases h with _ | ⟨_, h⟩
    · cases hx
    · cases h
  | cons f fs ih =>
    simp only [evalArgsBy] at h
    obtain ⟨y, hy, hxs⟩ := Outputs.ok_mem_items_bind h
    obtain ⟨ys, hys, heq⟩ := Outputs.ok_mem_items_bind hxs
    obtain rfl : xs = y :: ys := by
      rcases heq with _ | ⟨_, heq⟩
      · rfl
      · cases heq
    rcases List.mem_cons.mp hx with rfl | hx
    · exact ⟨f, List.mem_cons_self, hy⟩
    · obtain ⟨g, hg, hmem⟩ := ih hys hx
      exact ⟨g, List.mem_cons_of_mem f hg, hmem⟩

theorem evalEntriesBy_stops {entries : List (Filter × Filter)}
    (h : ∀ e ∈ entries, Ends e.1 ∧ Ends e.2) (fields : Fields Value) :
    (evalEntriesBy .exact past entries fields env v).stops = true := by
  induction entries generalizing fields with
  | nil => rfl
  | cons e entries ih =>
    obtain ⟨hkey, hvalue⟩ := h e List.mem_cons_self
    simp only [evalEntriesBy]
    refine Outputs.stops_bind (hkey past env v) fun k => ?_
    cases k with
    | string k =>
      exact Outputs.stops_bind (hvalue past env v) fun x =>
        ih (fun e' he => h e' (List.mem_cons_of_mem e he)) (fields.insert k x)
    | _ => rfl

theorem evalBranchesBy_stops {branches : List (Filter × Filter)}
    (h : ∀ b ∈ branches, Ends b.1 ∧ Ends b.2) {otherwise : Unit → Stream}
    (hotherwise : (otherwise ()).stops = true) :
    (evalBranchesBy .exact past branches otherwise env v).stops = true := by
  induction branches with
  | nil => exact hotherwise
  | cons b branches ih =>
    obtain ⟨htest, hbody⟩ := h b List.mem_cons_self
    simp only [evalBranchesBy]
    refine Outputs.stops_bind (htest past env v) fun c => ?_
    split
    · exact hbody past env v
    · exact ih fun b' hb => h b' (List.mem_cons_of_mem b hb)

theorem limitOf_stops (loc : Range) (n : Value) {outputs : Unit → Stream}
    (h : (outputs ()).stops = true) : (limitOf loc n outputs).stops = true := by
  unfold limitOf
  split
  · split
    · exact Outputs.stops_take _ h
    · rfl
  · rfl

theorem testOf_stops (loc : Range) (input : Value) (args : List Value) :
    (testOf loc input args).stops = true := by
  unfold testOf
  extract_lets q
  cases q with
  | error fault => rfl
  | ok q =>
    show Outputs.stops (.request _ _) = true
    rw [Outputs.stops]
    cases Pattern.compile q.source <;> rfl

/-- A count between modest numbers ends. -/
theorem rangeBy_stops (loc : Range) {args : List Value} (h : ∀ n, .number n ∈ args → n.Modest) :
    (rangeBy .exact loc args).stops = true := by
  unfold rangeBy
  split
  · next upto =>
    have hzero : (0 : Number).Modest := by decide +kernel
    exact exactCount_stops hzero.1 (h upto List.mem_cons_self).2
  · next low upto =>
    exact exactCount_stops (h low List.mem_cons_self).1
      (h upto (List.mem_cons_of_mem _ List.mem_cons_self)).2
  · rfl

theorem callBy_stops (loc : Range) (b : Builtin) (input : Value) {args : List Value}
    (h : b = .range → ∀ n, .number n ∈ args → n.Modest) :
    (callBy .exact loc b input args).stops = true := by
  unfold callBy
  split
  · exact rangeBy_stops loc (h rfl)
  · exact testOf_stops loc input args
  · rfl

end

/-- A call ends if its arguments do and, where it is a call of `range`, give modest numbers. -/
theorem ends_call (loc : Range) (b : Builtin) {args : List Filter} (h : ∀ f ∈ args, Ends f)
    (hb : b = .range → ∀ f ∈ args, GivesModest f) : Ends (.call loc b args) := by
  intro past env v
  have hargs : ((evalArgsBy .exact past args env v).bind (callBy .exact loc b v)).stops = true := by
    refine Outputs.stops_bind_of_mem (evalArgsBy_stops h) fun xs hxs => ?_
    refine callBy_stops loc b v fun hrange n hn => ?_
    obtain ⟨f, hf, hitem⟩ := exists_of_mem_evalArgsBy hxs hn
    obtain ⟨horizon, hitem⟩ := (h f hf).exists_horizon hitem
    exact hb hrange f hf horizon env v n hitem
  unfold evalBy
  rcases args with _ | ⟨f, _ | ⟨g, _ | ⟨k, args⟩⟩⟩
  · cases b with
    | empty => rfl
    | recurse => exact Outputs.stops_ofList _
    | env => rfl
    | _ => exact hargs
  · have hf := h f List.mem_cons_self
    cases b with
    | map =>
      simp only
      cases v.items with
      | ok items =>
        refine Outputs.stops_andThen (Outputs.stops_collect [] ?_)
        exact Outputs.stops_bind (Outputs.stops_ofList items) fun x => hf false env x
      | error fault => rfl
    | select =>
      refine Outputs.stops_bind (hf past env v) fun x => ?_
      split <;> rfl
    | first => exact Outputs.stops_take 1 (hf false env v)
    | _ => exact hargs
  · cases b with
    | limit =>
      have hg := h g (List.mem_cons_of_mem f List.mem_cons_self) past env v
      exact Outputs.stops_bind (h f List.mem_cons_self past env v) fun n => limitOf_stops loc n hg
    | _ => exact hargs
  · cases b <;> exact hargs

/-- A filter ends if its parts do and it does not itself count beyond modest numbers. -/
theorem ends_of_parts {f : Filter}
    (hf : ∀ loc args, f = .call loc .range args → ∀ a ∈ args, GivesModest a)
    (h : ∀ p ∈ f.heads ++ f.inner, Ends p) : Ends f := by
  simp only [List.forall_mem_append] at h
  obtain ⟨hheads, hinner⟩ := h
  intro past env v
  cases f with
  | identity => rfl
  | recurse => exact Outputs.stops_ofList _
  | literal => rfl
  | var => rfl
  | index loc target key =>
    have htarget := hheads target List.mem_cons_self
    have hkey := hinner key List.mem_cons_self
    simp only [evalBy]
    exact Outputs.stops_bind (htarget past env v) fun t => Outputs.stops_andThen (hkey past env v)
  | slice loc target low high =>
    have htarget := hheads target List.mem_cons_self
    have hlow : ∀ g ∈ low, Ends g := fun g hg =>
      hinner g (List.mem_append_left _ (Option.mem_toList.mpr hg))
    have hhigh : ∀ g ∈ high, Ends g := fun g hg =>
      hinner g (List.mem_append_right _ (Option.mem_toList.mpr hg))
    simp only [evalBy]
    refine Outputs.stops_bind (htarget past env v) fun t => ?_
    refine Outputs.stops_bind (evalOrBy_stops hlow) fun l => ?_
    exact Outputs.stops_andThen (evalOrBy_stops hhigh)
  | iterate loc target =>
    have htarget := hheads target List.mem_cons_self
    simp only [evalBy]
    refine Outputs.stops_bind (htarget past env v) fun t => ?_
    cases t.items with
    | ok items => exact Outputs.stops_ofList items
    | error fault => rfl
  | pipe loc left right =>
    have hleft := hheads left List.mem_cons_self
    have hright := hinner right List.mem_cons_self
    simp only [evalBy]
    exact Outputs.stops_bind (hleft past env v) fun x => hright past env x
  | comma loc left right =>
    have hleft := hheads left List.mem_cons_self
    have hright := hinner right List.mem_cons_self
    simp only [evalBy]
    exact Outputs.stops_append (hleft past env v) (hright past env v)
  | alternative loc left right =>
    have hleft := hheads left List.mem_cons_self
    have hright := hinner right List.mem_cons_self
    simp only [evalBy]
    exact Outputs.stops_keepOr _ (hleft true env v) (hright past env v)
  | and loc left right =>
    have hleft := hheads left List.mem_cons_self
    have hright := hinner right List.mem_cons_self
    simp only [evalBy]
    refine Outputs.stops_bind (hleft past env v) fun l => ?_
    split
    · exact Outputs.stops_andThen (hright past env v)
    · rfl
  | or loc left right =>
    have hleft := hheads left List.mem_cons_self
    have hright := hinner right List.mem_cons_self
    simp only [evalBy]
    refine Outputs.stops_bind (hleft past env v) fun l => ?_
    split
    · rfl
    · exact Outputs.stops_andThen (hright past env v)
  | binary loc op left right =>
    have hleft := hheads left List.mem_cons_self
    have hright := hinner right List.mem_cons_self
    simp only [evalBy]
    exact Outputs.stops_bind (hright past env v) fun r => Outputs.stops_andThen (hleft past env v)
  | negate loc operand =>
    have hoperand := hinner operand List.mem_cons_self
    simp only [evalBy]
    exact Outputs.stops_andThen (hoperand past env v)
  | array loc body =>
    cases body with
    | none => rfl
    | some body =>
      have hbody := hinner body List.mem_cons_self
      simp only [evalBy]
      exact Outputs.stops_andThen (Outputs.stops_collect [] (hbody false env v))
  | object loc entries =>
    simp only [evalBy]
    exact evalEntriesBy_stops (fun e he =>
      ⟨hinner e.1 (List.mem_map_of_mem he), hheads e.2 (List.mem_map_of_mem he)⟩) []
  | cond loc branches otherwise =>
    simp only [inner, List.forall_mem_append] at hinner
    obtain ⟨⟨htests, hbodies⟩, hotherwise⟩ := hinner
    simp only [evalBy]
    refine evalBranchesBy_stops (fun b hb =>
      ⟨htests b.1 (List.mem_map_of_mem hb), hbodies b.2 (List.mem_map_of_mem hb)⟩) ?_
    exact evalOrBy_stops fun g hg => hotherwise g (Option.mem_toList.mpr hg)
  | attempt loc body handler =>
    cases handler with
    | none =>
      have hbody := hheads body List.mem_cons_self
      simp only [evalBy]
      exact Outputs.stops_attempt (hbody false env v) fun _ => rfl
    | some handler =>
      have hbody := hinner body List.mem_cons_self
      have hhandler := hinner handler (List.mem_cons_of_mem body List.mem_cons_self)
      simp only [evalBy]
      exact Outputs.stops_attempt (hbody false env v) fun e => hhandler past env _
  | bind loc source name body =>
    have hsource := hheads source List.mem_cons_self
    have hbody := hinner body List.mem_cons_self
    simp only [evalBy]
    exact Outputs.stops_bind (hsource past env v) fun x => hbody past _ v
  | call loc b args =>
    exact ends_call loc b hinner (fun hb => hf loc args (hb ▸ rfl)) past env v

/-- Whatever counts between modest numbers only, or nowhere, ends. -/
theorem ends_of_countsModestly (f : Filter) (hf : f.CountsModestly) : Ends f := by
  induction f using induction_on_parts with
  | step f ih =>
    refine ends_of_parts ?_ fun p hp => ih p hp fun loc args hoccurs => ?_
    · rintro loc args rfl
      exact hf loc args (.refl _)
    · rcases List.mem_append.mp hp with hp | hp
      · exact hf loc args (hoccurs.of_head hp)
      · exact hf loc args (hoccurs.of_inner hp)

/-! ## A count that goes on for ever -/

/-- From 2 ^ 53 on, a count up to any larger number goes on for ever: there are as many items as the
horizon allows, all of them the same number, and no end. -/
theorem eval_range_two_pow (horizon : Nat) (loc loc₁ loc₂ : Range) {upto : Number}
    (h : (Number.ofInt (2 ^ 53)).cmp upto = .lt) (env : Env) (v : Value) :
    let o := eval horizon (.call loc .range
      [.literal loc₁ (.number (.ofInt (2 ^ 53))), .literal loc₂ (.number upto)]) env v
    o.items = List.replicate horizon (.ok (.number (.ofInt (2 ^ 53)))) ∧ o.stops = false := by
  have hlow : (Number.ofInt (2 ^ 53)).isNaN = false := by decide +kernel
  have hupto : upto.isNaN = false := by
    cases hnan : upto.isNaN with
    | false => rfl
    | true =>
      rw [Number.cmp, hlow, hnan] at h
      cases h
  have hsame : Number.ofInt (2 ^ 53) + 1 = Number.ofInt (2 ^ 53) := by decide +kernel
  have hcount : eval horizon (.call loc .range
      [.literal loc₁ (.number (.ofInt (2 ^ 53))), .literal loc₂ (.number upto)]) env v =
        countFrom horizon (.ofInt (2 ^ 53)) upto := by
    show Outputs.bind (.value [.number (.ofInt (2 ^ 53)), .number upto]) (callOf horizon loc .range v) =
      _
    rw [Outputs.value_bind]
    show count horizon (.ofInt (2 ^ 53)) upto = _
    rw [count, hlow, hupto]
    rfl
  show (eval _ _ _ _).items = _ ∧ (eval _ _ _ _).stops = false
  rw [hcount]
  exact countFrom_of_add_one_eq hsame h horizon

end Filter

namespace Program

/-- The outputs of a program if no horizon bounds how far it counts. -/
def outputsExact (p : Program) : Input → Outputs Diagnostic Value
  | .value v => (p.filter.evalExact p.globals v).mapError fun f => ⟨.run f, p.source⟩
  | .text s =>
    (documents s).bind fun v =>
      (p.filter.evalExact p.globals v).mapError fun f => ⟨.run f, p.source⟩

theorem outputs_limit (p : Program) (input : Input) :
    Outputs.Limit (fun h => p.outputs h input) (p.outputsExact input) := by
  have hvalue (v : Value) := (Filter.eval_limit p.filter p.globals v).mapError
    fun f => (⟨.run f, p.source⟩ : Diagnostic)
  cases input with
  | value v => exact hvalue v
  | text s => exact (Outputs.Limit.refl (documents s)).bind hvalue

/-- What counts between modest numbers only, or not at all, has no place to break off at. -/
theorem stops_outputsExact {p : Program} (hp : p.filter.CountsModestly) (input : Input) :
    (p.outputsExact input).stops = true := by
  have hvalue (v : Value) : ((p.filter.evalExact p.globals v).mapError
      fun f => (⟨.run f, p.source⟩ : Diagnostic)).stops = true := by
    rw [Outputs.stops_mapError]
    exact Filter.ends_of_countsModestly p.filter hp true p.globals v
  cases input with
  | value v => exact hvalue v
  | text s => exact Outputs.stops_bind (Outputs.stops_ofItems _) hvalue

/-- Evaluation ends: for every program and every input there is a number of pulls after which the
outputs have ended, from some horizon on, unless a count that does not get larger is asked to go
on. -/
theorem exists_pullAfter_finished (p : Program) (input : Input)
    (h : (p.outputsExact input).stops = true) :
    ∃ n horizon₀, ∀ horizon ≥ horizon₀, ∀ store : Pattern.Store, store.Sound →
      (p.outputs horizon input).pullAfter n store = .finished := by
  exact (p.outputs_limit input).pullAfter_finished h

/-- A count up to a bound that it reaches. -/
theorem exists_pullAfter_finished_range :
    ∃ p, compile ⟨true, [], [("n", .number 3)]⟩ "range($n)" = .ok p ∧
      (p.outputsExact (.value .null)).stops = true ∧
      ∃ n horizon₀, ∀ horizon ≥ horizon₀, ∀ store : Pattern.Store, store.Sound →
        (p.outputs horizon (.value .null)).pullAfter n store = .finished := by
  let p : Program := ⟨"range($n)", .call ⟨⟨1, 1⟩, ⟨1, 6⟩⟩ .range [.var ⟨⟨1, 7⟩, ⟨1, 9⟩⟩ "n"],
    [("n", .number 3), (environmentName, .object [])]⟩
  have hlist : Token.list "range($n)" = .ok [⟨.name "range", ⟨⟨1, 1⟩, ⟨1, 6⟩⟩⟩,
      ⟨.symbol .openParen, ⟨⟨1, 6⟩, ⟨1, 7⟩⟩⟩, ⟨.binding "n", ⟨⟨1, 7⟩, ⟨1, 9⟩⟩⟩,
      ⟨.symbol .closeParen, ⟨⟨1, 9⟩, ⟨1, 10⟩⟩⟩, ⟨.finish, .empty ⟨1, 10⟩⟩] := by
    repeat refine Token.listFrom_cons rfl ⟨_, rfl, rfl, rfl, rfl⟩ rfl ?_
    exact Token.listFrom_finish rfl
  have hp : compile ⟨true, [], [("n", .number 3)]⟩ "range($n)" = .ok p := by
    rw [compile_of_list hlist]
    cbv
  have hcount : (Filter.exactCount 0 3).stops = true :=
    Filter.exactCount_stops (by decide +kernel) (by decide +kernel)
  have houtputs : p.filter.evalExact p.globals .null = Filter.exactCount 0 3 := by
    show Outputs.bind (.value [.number 3]) (Filter.callBy .exact _ .range .null) = _
    rw [Outputs.value_bind]
    rfl
  have hstops : (p.outputsExact (.value .null)).stops = true := by
    rw [outputsExact, houtputs, Outputs.stops_mapError]
    exact hcount
  exact ⟨p, hp, hstops, exists_pullAfter_finished p (.value .null) hstops⟩

/-! ## Programs that end and programs that do not -/

/-- What counts between modest numbers only comes to its end on every input. -/
theorem pullAfter_finished_of_countsModestly {p : Program} (hp : p.filter.CountsModestly)
    (input : Input) :
    ∃ n horizon₀, ∀ horizon ≥ horizon₀, ∀ store : Pattern.Store, store.Sound →
      (p.outputs horizon input).pullAfter n store = .finished :=
  (p.outputs_limit input).pullAfter_finished (stops_outputsExact hp input)

/-- What does not count comes to its end on every input. -/
theorem pullAfter_finished_of_not_counts {p : Program} (hp : ¬ p.filter.Counts) (input : Input) :
    ∃ n horizon₀, ∀ horizon ≥ horizon₀, ∀ store : Pattern.Store, store.Sound →
      (p.outputs horizon input).pullAfter n store = .finished :=
  pullAfter_finished_of_countsModestly (Filter.countsModestly_of_not_counts hp) input

section
variable {p : Program} {loc loc₁ loc₂ : Range} {low upto : Number}

/-- A count from one modest literal up to another comes to its end. -/
theorem pullAfter_finished_of_range
    (hp : p.filter = .call loc .range [.literal loc₁ (.number low), .literal loc₂ (.number upto)])
    (hlow : low.Modest) (hupto : upto.Modest) (input : Input) :
    ∃ n horizon₀, ∀ horizon ≥ horizon₀, ∀ store : Pattern.Store, store.Sound →
      (p.outputs horizon input).pullAfter n store = .finished := by
  refine pullAfter_finished_of_countsModestly (Filter.countsModestly_of_literals ?_) input
  intro loc' args hoccurs a ha
  rw [hp] at hoccurs
  rcases hoccurs.eq_or_part with heq | ⟨part, hpart, hoccurs⟩
  · obtain ⟨-, -, rfl⟩ := Filter.call.inj heq
    rcases List.mem_cons.mp ha with rfl | ha
    · exact ⟨loc₁, low, rfl, hlow⟩
    · obtain rfl := List.mem_singleton.mp ha
      exact ⟨loc₂, upto, rfl, hupto⟩
  · -- A literal has no parts and is no call.
    obtain ⟨loc'', l, rfl⟩ : ∃ loc l, part = .literal loc l := by
      rcases List.mem_cons.mp hpart with rfl | hpart
      · exact ⟨loc₁, _, rfl⟩
      · exact ⟨loc₂, _, List.mem_singleton.mp hpart⟩
    rcases hoccurs.eq_or_part with heq | ⟨_, hnone, _⟩
    · cases heq
    · cases hnone

/-- A count from the literal 2 ^ 53 up to a larger one never comes to its end, however far it counts
and however often it is pulled. -/
theorem pullAfter_ne_finished_of_range (hp : p.filter = .call loc .range
      [.literal loc₁ (.number (.ofInt (2 ^ 53))), .literal loc₂ (.number upto)])
    (hupto : (Number.ofInt (2 ^ 53)).cmp upto = .lt) (horizon n : Nat) (v : Value)
    {store : Pattern.Store} (hstore : store.Sound) :
    (p.outputs horizon (.value v)).pullAfter n store ≠ .finished := by
  intro hfinished
  obtain ⟨hstops, -⟩ := (Outputs.pullAfter_eq_finished_iff hstore).mp hfinished
  obtain ⟨-, hbreaks⟩ := Filter.eval_range_two_pow horizon loc loc₁ loc₂ hupto p.globals v
  rw [outputs, outputsFor, Outputs.stops_mapError, hp, hbreaks] at hstops
  cases hstops

end

end Program

end JsonFilter
