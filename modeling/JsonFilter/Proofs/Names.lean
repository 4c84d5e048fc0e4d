import JsonFilter.Proofs.Failures
import JsonFilter.Proofs.Grammar.Source
import JsonFilter.Proofs.Lexical
import JsonFilter.Proofs.Token.Lexemes

/-!
Names are resolved when a filter is compiled. In a program every variable is bound by the filter
around it or is a global one, and every call is of a builtin that accepts its number of arguments,
so at run time nothing stands for a value that a variable does not have, and no builtin says that
it is not defined.
-/

namespace JsonFilter

namespace Filter

theorem ScopedOption.of_mem {f : Option Filter} {g : Filter} {scope : List String}
    (h : ScopedOption f scope) (hg : g ∈ f.toList) : g.Scoped scope := by
  cases f with
  | none => cases hg
  | some f =>
    obtain rfl := List.mem_singleton.mp hg
    exact h

theorem ScopedList.of_mem {fs : List Filter} {g : Filter} {scope : List String}
    (h : ScopedList fs scope) (hg : g ∈ fs) : g.Scoped scope := by
  induction fs with
  | nil => cases hg
  | cons f fs ih =>
    cases hg with
    | head => exact h.1
    | tail _ hg => exact ih h.2 hg

theorem ScopedPairs.of_mem {ps : List (Filter × Filter)} {g : Filter} {scope : List String}
    (h : ScopedPairs ps scope) (hg : g ∈ ps.map Prod.fst ∨ g ∈ ps.map Prod.snd) :
    g.Scoped scope := by
  induction ps with
  | nil => rcases hg with hg | hg <;> cases hg
  | cons p ps ih =>
    obtain ⟨hfst, hsnd, hps⟩ := h
    rcases hg with hg | hg <;> rw [List.map_cons, List.mem_cons] at hg
    · rcases hg with rfl | hg
      · exact hfst
      · exact ih hps (.inl hg)
    · rcases hg with rfl | hg
      · exact hsnd
      · exact ih hps (.inr hg)

theorem Scoped.of_operand {left right g : Filter} {scope : List String}
    (h : left.Scoped scope ∧ right.Scoped scope) (hg : g ∈ [left] ∨ g ∈ [right]) :
    g.Scoped scope := by
  rcases hg with hg | hg
  · obtain rfl := List.mem_singleton.mp hg
    exact h.1
  · obtain rfl := List.mem_singleton.mp hg
    exact h.2

/-- The parts of a scoped filter are scoped, the body of a binding in a scope of its own. -/
theorem Scoped.part {f g : Filter} {scope : List String} (h : f.Scoped scope)
    (hg : g ∈ f.heads ∨ g ∈ f.inner) : ∃ scope', g.Scoped scope' := by
  cases f with
  | index _ target key => exact ⟨scope, Scoped.of_operand h hg⟩
  | slice _ target low high =>
    obtain ⟨htarget, hlow, hhigh⟩ := h
    rcases hg with hg | hg
    · obtain rfl := List.mem_singleton.mp hg
      exact ⟨scope, htarget⟩
    · rcases List.mem_append.mp hg with hg | hg
      · exact ⟨scope, hlow.of_mem hg⟩
      · exact ⟨scope, hhigh.of_mem hg⟩
  | pipe _ left right => exact ⟨scope, Scoped.of_operand h hg⟩
  | comma _ left right => exact ⟨scope, Scoped.of_operand h hg⟩
  | alternative _ left right => exact ⟨scope, Scoped.of_operand h hg⟩
  | and _ left right => exact ⟨scope, Scoped.of_operand h hg⟩
  | or _ left right => exact ⟨scope, Scoped.of_operand h hg⟩
  | binary _ _ left right => exact ⟨scope, Scoped.of_operand h hg⟩
  | iterate _ target =>
    rcases hg with hg | hg
    · obtain rfl := List.mem_singleton.mp hg
      exact ⟨scope, h⟩
    · cases hg
  | negate _ operand =>
    rcases hg with hg | hg
    · cases hg
    · obtain rfl := List.mem_singleton.mp hg
      exact ⟨scope, h⟩
  | array _ body =>
    rcases hg with hg | hg
    · cases hg
    · exact ⟨scope, ScopedOption.of_mem h hg⟩
  | object _ entries => exact ⟨scope, ScopedPairs.of_mem h hg.symm⟩
  | cond _ branches otherwise =>
    rcases hg with hg | hg
    · cases hg
    · rcases List.mem_append.mp hg with hg | hg
      · exact ⟨scope, h.1.of_mem (List.mem_append.mp hg)⟩
      · exact ⟨scope, h.2.of_mem hg⟩
  | attempt _ body handler =>
    cases handler with
    | none =>
      rcases hg with hg | hg
      · obtain rfl := List.mem_singleton.mp hg
        exact ⟨scope, h.1⟩
      · cases hg
    | some handler =>
      rcases hg with hg | hg
      · cases hg
      · rcases List.mem_cons.mp hg with rfl | hg
        · exact ⟨scope, h.1⟩
        · obtain rfl := List.mem_singleton.mp hg
          exact ⟨scope, h.2⟩
  | bind _ source name body =>
    rcases hg with hg | hg
    · obtain rfl := List.mem_singleton.mp hg
      exact ⟨scope, h.1⟩
    · obtain rfl := List.mem_singleton.mp hg
      exact ⟨name :: scope, h.2⟩
  | call _ b args =>
    rcases hg with hg | hg
    · cases hg
    · exact ⟨scope, h.2.of_mem hg⟩
  | _ => rcases hg with hg | hg <;> cases hg

theorem Scoped.of_path {f g : Filter} {c u : Nat} (p : Path f g c u) :
    ∀ {scope : List String}, f.Scoped scope → ∃ scope', g.Scoped scope' := by
  induction p with
  | here f => exact fun h => ⟨_, h⟩
  | head hg _ ih =>
    intro scope h
    obtain ⟨scope', hg⟩ := h.part (.inl hg)
    exact ih hg
  | inner hg _ ih =>
    intro scope h
    obtain ⟨scope', hg⟩ := h.part (.inr hg)
    exact ih hg

end Filter

namespace Program

/-- A compiled filter is scoped by the global variables. -/
theorem scoped_of_compile {o : Options} {source : String} {p : Program}
    (h : Program.compile o source = .ok p) :
    p.globals = o.globals ∧ p.filter.Scoped (o.globals.map Prod.fst) := by
  obtain ⟨f, hf, h⟩ := ok_of_bind h
  obtain rfl := Except.ok.inj h
  obtain ⟨tokens, _, hparse⟩ := Filter.ofTokens_of_ofSource hf
  have hscoped : f.Scoped (o.globals.map Prod.fst) := Filter.Parser.scoped_of_ofTokens hparse
  refine ⟨rfl, ?_⟩
  dsimp only
  split
  · exact hscoped.simplify
  · exact hscoped

/-- The names of a program are all known. A run reads each variable at the innermost binding around
it, or else at the last global variable of its name, whatever stands for one that has none. Every
call is of a builtin that accepts its number of arguments, and no part of the program ever fails
because a builtin is not defined. -/
theorem names_resolved {o : Options} {source : String} {p : Program}
    (h : Program.compile o source = .ok p) :
    (∀ stuck horizon v, p.filter.eval horizon p.globals v =
      p.filter.evalAt stuck horizon (environmentName :: o.args.map Prod.fst).reverse
        (.object o.environment :: o.args.map Prod.snd).reverse v) ∧
    ∀ f c u, Filter.Path p.filter f c u →
      (∀ loc b args, f = .call loc b args → b.accepts args.length) ∧
      ∀ horizon env v, (f.eval horizon env v).FailsOnly Failure.Defined := by
  obtain ⟨hglobals, hscoped⟩ := scoped_of_compile h
  refine ⟨fun stuck horizon v => ?_, fun f c u hpath => ?_⟩
  · have hnames : o.globals.map Prod.fst = (environmentName :: o.args.map Prod.fst).reverse := by
      rw [Options.globals, List.map_reverse, List.map_cons]
    have hvalues : o.globals.map Prod.snd =
        (.object o.environment :: o.args.map Prod.snd).reverse := by
      rw [Options.globals, List.map_reverse, List.map_cons]
    rw [hglobals, List.zip_of_prod hnames hvalues]
    rw [hnames] at hscoped
    exact Filter.eval_eq_evalAt stuck horizon p.filter v hscoped (by simp)
  · obtain ⟨scope, hf⟩ := hscoped.of_path hpath
    refine ⟨?_, fun horizon env v => Filter.eval_failsOnly horizon f hf env v⟩
    rintro loc b args rfl
    exact hf.1

/-- A global variable that is given twice and hidden in a part of the filter. -/
theorem names_resolved_hidden : ∃ p,
    Program.compile ⟨true, [], [("x", .null), ("x", .bool true)]⟩ "[$x]|not as $x|$x" = .ok p ∧
    (∀ stuck horizon v, p.filter.eval horizon p.globals v =
      p.filter.evalAt stuck horizon ["x", "x", environmentName]
        [.bool true, .null, .object []] v) ∧
    ∀ f c u, Filter.Path p.filter f c u →
      (∀ loc b args, f = .call loc b args → b.accepts args.length) ∧
      ∀ horizon env v, (f.eval horizon env v).FailsOnly Failure.Defined := by
  let tokens : List Token := [⟨.symbol .openBracket, ⟨⟨1, 1⟩, ⟨1, 2⟩⟩⟩,
    ⟨.binding "x", ⟨⟨1, 2⟩, ⟨1, 4⟩⟩⟩, ⟨.symbol .closeBracket, ⟨⟨1, 4⟩, ⟨1, 5⟩⟩⟩,
    ⟨.symbol .pipe, ⟨⟨1, 5⟩, ⟨1, 6⟩⟩⟩, ⟨.name "not", ⟨⟨1, 6⟩, ⟨1, 9⟩⟩⟩,
    ⟨.keyword .asWord, ⟨⟨1, 10⟩, ⟨1, 12⟩⟩⟩, ⟨.binding "x", ⟨⟨1, 13⟩, ⟨1, 15⟩⟩⟩,
    ⟨.symbol .pipe, ⟨⟨1, 15⟩, ⟨1, 16⟩⟩⟩, ⟨.binding "x", ⟨⟨1, 16⟩, ⟨1, 18⟩⟩⟩,
    ⟨.finish, .empty ⟨1, 18⟩⟩]
  have hlist : Token.list "[$x]|not as $x|$x" = .ok tokens := by
    repeat refine Token.listFrom_cons rfl ⟨_, rfl, rfl, rfl, rfl⟩ rfl ?_
    exact Token.listFrom_finish rfl
  have hok : (Program.compile ⟨true, [], [("x", .null), ("x", .bool true)]⟩
      "[$x]|not as $x|$x").isOk = true := by
    rw [compile_of_list hlist]
    cbv
  cases hp : Program.compile ⟨true, [], [("x", .null), ("x", .bool true)]⟩ "[$x]|not as $x|$x" with
  | error d =>
    rw [hp] at hok
    cases hok
  | ok p => exact ⟨p, rfl, names_resolved hp⟩

end Program

end JsonFilter
