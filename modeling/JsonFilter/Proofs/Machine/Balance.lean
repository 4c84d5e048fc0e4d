import JsonFilter.Proofs.Machine.Agreement

/-!
What the functions of the machine keep. The depth and the variables in scope are state that each
function changes and restores on paths of its own; here every function comes to an end, and has then
restored both.
-/

namespace JsonFilter.Filter.Machine

open Filter.Parser

/-- What a function leaves of the tokens when it succeeds. All take a token at least but two: a
chain of operators may be empty, and a call takes only what follows the name. -/
def Procedure.Leaves {α : Type} : Procedure α → List Token → List Token → Prop
  | .chain _ _, s, r => r <:+ s
  | .call _ _, s, r => CallLeaves s r
  | _, s, r => Machine.Leaves s r

/-- No function needs more calls inside each other on these tokens. -/
def callBound (tokens : List Token) : Nat := 8 * (tokens.length + 1)

theorem fits_of_callBound_le {n : Nat} {s : List Token} (h : callBound s ≤ n) (level : Fin 8) :
    Fits n level s := by
  have : level.val < 8 := level.isLt
  unfold callBound at h
  unfold Fits
  omega

/-- Nothing follows the keyword of a binding that is not there. -/
theorem answers_binding_nil (n : Nat) (ctx : Context) (d : Nat) (source : Filter) :
    Answers ctx d d [] (Machine.Leaves []) (run (n + 1) (.binding source))
      (.error (.bindingExpected ctx.finish) : Parsing Filter []) := by
  rw [run_succ, Procedure.body]
  refine .of_finish fun hfinish => .next_peek (.next_peek ?_)
  dsimp only [Parser.peek, List.tail_nil, List.headD_nil]
  rw [hfinish]
  exact .throw (Nat.le_refl d)

/-- Every function answers as the parser does on the tokens that are left. -/
theorem exists_answers {α : Type} (p : Procedure α) {n : Nat} (ctx : Context) (d : Nat)
    (s : List Token) (hn : callBound s ≤ n) :
    ∃ (w : List Token) (x : Parsing α w), Answers ctx d d s (p.Leaves s) (run n p) x := by
  have hs := answersAt n s
  have hfits : ∀ level, Fits n level s := fits_of_callBound_le hn
  cases p with
  | pipe => exact ⟨_, _, hs.pipe (hfits _) ctx d⟩
  | comma => exact ⟨_, _, hs.comma (hfits _) ctx d⟩
  | alternative => exact ⟨_, _, hs.alternative (hfits _) ctx d⟩
  | chain least left =>
    exact ⟨_, _, hs.chain (hfits _) (ctx.finish :: s) ctx d least left (Front.tail_lt s)⟩
  | unary => exact ⟨_, _, hs.unary (hfits _) ctx d⟩
  | postfixed => exact ⟨_, _, hs.postfixed (hfits _) ctx d⟩
  | bracket term loc => exact ⟨_, _, hs.bracket (hfits _) ctx d term loc⟩
  | binding source =>
    cases s with
    | nil =>
      obtain ⟨m, rfl⟩ : ∃ m, n = m + 1 :=
        Nat.exists_eq_add_of_le' (Nat.lt_of_lt_of_le (by decide) hn)
      exact ⟨_, _, answers_binding_nil m ctx d source⟩
    | cons t s =>
      have hbinding := (answersAt n s).binding t (hfits _) ctx d source
      exact ⟨_, _, hbinding.mono fun r hr => hr.cons⟩
  | primary => exact ⟨_, _, hs.primary (hfits _) ctx d⟩
  | call loc name => exact ⟨_, _, hs.call (hfits _) ctx d loc name⟩
  | cond loc => exact ⟨_, _, hs.cond (hfits _) ctx d loc⟩
  | attempt loc => exact ⟨_, _, hs.attempt (hfits _) ctx d loc⟩
  | object loc => exact ⟨_, _, hs.object (hfits _) ctx d loc⟩
  | entry => exact ⟨_, _, hs.entry (hfits _) ctx d⟩
  | entryValue => exact ⟨_, _, hs.entryValue (hfits _) ctx d⟩

/-- What holds when a function that began in the state `s` has come to an end in the state `t`. -/
structure Balanced {α : Type} (p : Procedure α) (s : State) (result : Except Error α) (t : State) :
    Prop where
  /-- The depth never went beyond the limit. -/
  peak_le : t.peak ≤ maxDepth
  /-- The variables in scope are those of before, also after an error. -/
  scope_eq : t.context = s.context
  /-- After a success, so is the depth. -/
  depth_eq : ∀ a, result = .ok a → t.depth = s.depth
  /-- The tokens that are left are the last ones of those of before. -/
  rest : ∀ a, result = .ok a → p.Leaves s.tokens t.tokens

theorem balanced_of_outcome {α : Type} {w : List Token} {p : Procedure α} {s : State}
    {x : Parsing α w} {o : Option (Except Error α × State)}
    (h : Outcome s.context s.depth (p.Leaves s.tokens) x o) :
    ∃ result t, o = some (result, t) ∧ Balanced p s result t := by
  cases h with
  | ok _ hpeak hrest => exact ⟨_, _, rfl, hpeak, rfl, fun _ _ => rfl, fun _ _ => hrest⟩
  | error hscope _ _ hpeak =>
    refine ⟨_, _, rfl, hpeak, hscope, fun a h => ?_, fun a h => ?_⟩
    · cases h
    · cases h

theorem finishOf_isFinish (tokens : List Token) : (finishOf tokens).isFinish := by
  unfold finishOf
  split
  · split
    · assumption
    · rfl
  · rfl

/-- What the machine gives for the whole is what the parser gives. -/
theorem exec_program {n : Nat} (globals : List String) (tokens : List Token)
    (hn : callBound tokens ≤ n) :
    (exec (program n) (State.initial globals tokens)).map Prod.fst =
      some (ofTokens globals tokens) := by
  have hpipe := (answersAt n tokens).pipe (fits_of_callBound_le hn _)
    ⟨globals, finishOf tokens⟩ 0 (finishOf_isFinish tokens) (Nat.zero_le _) 0 (Nat.zero_le _)
  change (exec (if (Parser.peek ⟨globals, finishOf tokens⟩ tokens).isFinish then _ else _) _).map
    Prod.fst = _
  unfold ofTokens
  dsimp only
  split
  · rfl
  · obtain ⟨f, peak, hx, ho⟩ | ⟨e, t, hx, ho⟩ := hpipe.result
    · rw [State.initial, exec_bind_of_ok _ _ ho, exec_next_bind, hx]
      change (exec (if (Parser.peek _ f.rest).isFinish then _ else _) _).map Prod.fst =
        some (if (Parser.peek _ f.rest).isFinish then _ else _)
      split
      · rfl
      · rfl
    · rw [State.initial, exec_bind_of_error _ _ ho, hx]
      rfl

/-- From every state within the limit of nesting, every function of the machine comes to an end,
with as many calls inside each other as its tokens allow; its depth is within the limit all the
time, it leaves the variables in scope as they were, and if it succeeds, the depth as well, and the
last ones of the tokens. The whole is the parser. -/
theorem run_balanced :
    (∀ {α : Type} (p : Procedure α) (s : State), s.context.finish.isFinish → s.depth ≤ maxDepth →
      s.peak ≤ maxDepth → ∀ n, callBound s.tokens ≤ n →
        ∃ result t, exec (run n p) s = some (result, t) ∧ Balanced p s result t) ∧
    ∀ globals tokens n, callBound tokens ≤ n →
      (exec (program n) (State.initial globals tokens)).map Prod.fst =
        some (ofTokens globals tokens) := by
  refine ⟨fun p s hfinish hdepth hpeak n hn => ?_,
    fun globals tokens n hn => exec_program globals tokens hn⟩
  obtain ⟨w, x, h⟩ := exists_answers p s.context s.depth s.tokens hn
  exact balanced_of_outcome (h hfinish hdepth s.peak hpeak)

theorem run_balanced_pipe :
    (∃ result t, exec (run 16 .pipe)
        ⟨⟨["x"], ⟨.finish, default⟩⟩, maxDepth - 1, maxDepth, [⟨.binding "x", default⟩]⟩ =
          some (result, t) ∧
      Balanced .pipe
        ⟨⟨["x"], ⟨.finish, default⟩⟩, maxDepth - 1, maxDepth, [⟨.binding "x", default⟩]⟩ result t) ∧
    (exec (program 16) (State.initial ["x"] [⟨.binding "x", default⟩])).map Prod.fst =
      some (ofTokens ["x"] [⟨.binding "x", default⟩]) :=
  ⟨run_balanced.1 .pipe _ rfl (by decide) (by decide) 16 (by decide),
    run_balanced.2 ["x"] [⟨.binding "x", default⟩] 16 (by decide)⟩

/-- A call without arguments succeeds and takes nothing, since its name was taken before. -/
theorem call_takes_nothing :
    ∃ f t, exec (run 16 (.call default "length"))
        ⟨⟨[], ⟨.finish, default⟩⟩, 0, 0, [⟨.symbol .closeBracket, default⟩]⟩ = some (.ok f, t) ∧
      ¬ t.tokens.length < 1 :=
  ⟨_, _, rfl, by decide⟩

end JsonFilter.Filter.Machine
