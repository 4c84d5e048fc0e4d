import JsonFilter.Session
import JsonFilter.Proofs.Items

/-!
Isolation. Programs and handles of one session share the store of patterns and nothing else. A store
that calls have left, whatever they were, holds for a source only what reading the source gives, so
what a handle delivers does not depend on the store it is pulled with; and a command changes no
program and no handle but the one it names. So of all that happens in a session, a handle is told of
its own commands and the compilation of its own programs alone.
-/

namespace JsonFilter

/-! ## What calls leave of a store -/

namespace Pattern.Store

/-- The store after patterns were asked for, one after the other. -/
def after (history : List String) : Store :=
  history.foldl (fun store source => (store.get source).2) empty

/-- A store that some history of calls leaves. -/
def Reached (store : Store) : Prop := ∃ history, after history = store

theorem reached_empty : Reached empty := ⟨[], rfl⟩

theorem Reached.get {store : Store} (h : Reached store) (source : String) :
    Reached (store.get source).2 := by
  obtain ⟨history, rfl⟩ := h
  exact ⟨history ++ [source], List.foldl_append⟩

/-- What a call keeps, every store that calls leave has. -/
theorem Reached.induction {P : Store → Prop} (hempty : P empty)
    (hget : ∀ store source, P store → P (store.get source).2) {store : Store} (h : Reached store) :
    P store := by
  obtain ⟨history, rfl⟩ := h
  exact List.foldlRecOn history _ hempty fun store hstore source _ => hget store source hstore

theorem Reached.sound {store : Store} (h : Reached store) : store.Sound :=
  h.induction sound_empty fun _ source hstore => (hstore.get source).2

theorem size_insert_le {store : Store} (source : String) (automaton : Automaton) :
    (store.insert source automaton).size ≤ capacity := by
  rw [insert]
  split
  · exact Nat.le_of_ble_eq_true rfl
  · rename_i hroom
    exact Nat.lt_of_not_le hroom

theorem size_get_le {store : Store} (h : store.size ≤ capacity) (source : String) :
    (store.get source).2.size ≤ capacity := by
  rw [get]
  split
  · exact h
  · split
    · exact size_insert_le source _
    · exact h

theorem Reached.size_le {store : Store} (h : Reached store) : store.size ≤ capacity :=
  h.induction (P := (size · ≤ capacity)) (Nat.zero_le capacity) fun _ source hstore =>
    size_get_le hstore source

/-- A computation that answers alike whatever calls have left of the store, and leaves a store that
calls leave. -/
def Blind {α : Type} (f : Store → α × Store) : Prop :=
  ∀ store, Reached store → ∃ store', Reached store' ∧ f store = ((f empty).1, store')

theorem Blind.map {α β : Type} {f : Store → α × Store} (h : Blind f) (g : α → β) :
    Blind (fun store => (f store).map g id) := by
  intro store hstore
  obtain ⟨store', hreached, heq⟩ := h store hstore
  exact ⟨store', hreached, congrArg (Prod.map g id) heq⟩

end Pattern.Store

open Pattern.Store (Reached Blind reached_empty)

/-- A pull finds the same whatever calls have left of the store. -/
theorem Outputs.pull_blind {ε α : Type} (o : Outputs ε α) : Blind (fun store => o.pull store) := by
  intro store hstore
  refine ⟨(o.pull store).2, ?_, Prod.ext ?_ rfl⟩
  · induction o generalizing store with
    | done => exact hstore
    | unfinished => exact hstore
    | yield item rest _ => exact hstore
    | request source resume ih => exact ih _ _ (hstore.get source)
  · rw [(pull_eq_head hstore.sound o).1, (pull_eq_head Pattern.Store.sound_empty o).1]

/-! ## Handles -/

namespace Results

/-- What a pull gives and what becomes of the handle do not depend on the store. -/
theorem next_blind (r : Results) {store : Pattern.Store} (hstore : Reached store) :
    ∃ store', Reached store' ∧
      r.next store = ((r.next .empty).1, (r.next .empty).2.1, store') := by
  by_cases hstate : r.state = .pending
  · obtain ⟨store', hreached, heq⟩ := (r.outputs ()).pull_blind store hstore
    refine ⟨store', hreached, ?_⟩
    rw [next, next, hstate]
    simp only [heq]
    rcases (r.outputs ()).pull .empty with ⟨_ | _ | ⟨_ | _, rest⟩, left⟩ <;> rfl
  · refine ⟨store, hstore, ?_⟩
    rw [next, next]
    split
    · contradiction
    · rfl

theorem first_blind (r : Results) : Blind r.first := by
  intro store hstore
  obtain ⟨store', hreached, heq⟩ := r.next_blind hstore
  refine ⟨store', hreached, ?_⟩
  rw [first, first, heq]
  rcases r.next .empty with ⟨_ | _, _, _⟩ <;> rfl

theorem all_blind (r : Results) : Blind r.all := by
  intro store hstore
  by_cases hstate : r.state = .pending
  · obtain ⟨store', hreached, heq⟩ := ((r.outputs ()).collect []).pull_blind store hstore
    refine ⟨store', hreached, ?_⟩
    rw [all, all, hstate]
    simp only [heq]
    rcases ((r.outputs ()).collect []).pull .empty with ⟨_ | _ | ⟨_ | _, rest⟩, left⟩ <;> rfl
  · refine ⟨store, hstore, ?_⟩
    rw [all, all]
    split
    · contradiction
    · rfl

theorem steps_blind (max ends : Nat) (r : Results) : Blind (r.steps max ends) := by
  induction max generalizing ends r with
  | zero => exact fun store hstore => ⟨store, hstore, rfl⟩
  | succ max ih =>
    intro store hstore
    rw [steps, steps]
    split
    · exact ⟨store, hstore, rfl⟩
    · obtain ⟨store', hreached, heq⟩ := r.next_blind hstore
      obtain ⟨left, hleft, heq'⟩ := r.next_blind reached_empty
      generalize r.next .empty = pulled at heq heq'
      obtain ⟨outcome, r', left'⟩ := pulled
      cases heq'
      -- Both go on with the same handle, from two stores that calls leave.
      have hrest := ih (if outcome.isNone then ends - 1 else ends) r'
      obtain ⟨store'', hreached', hstore⟩ := hrest store' hreached
      obtain ⟨_, _, hempty⟩ := hrest left hleft
      refine ⟨store'', hreached', ?_⟩
      rw [heq]
      simp only [hstore, hempty]

/-- However a handle is consumed, what it gives does not depend on the store. -/
theorem consume_blind (r : Results) (demand : Demand) : Blind (r.consume demand) := by
  cases demand with
  | steps max => exact (r.steps_blind max 2).map Answer.steps
  | first => exact r.first_blind.map Answer.first
  | all => exact r.all_blind.map Answer.all
  | text style => exact (r.all_blind.map (Outcome.map (lines style))).map Answer.text

end Results

/-! ## Sessions -/

namespace Command

/-- Whether a command is one on a handle or compiles one of some programs. -/
def concerns (programs : List String) (handle : String) : Command → Bool
  | .compile program _ _ => programs.contains program
  | .execute _ other _ => other == handle
  | .next other => other == handle
  | .state other => other == handle
  | .consume other _ => other == handle
  | .drop other => other == handle

/-- The program that a command executes to make a handle, if it does. -/
def executed? (handle : String) : Command → Option String
  | .execute program other _ => if other = handle then some program else none
  | _ => none

end Command

namespace Session

/-- The session after some commands. -/
def after (horizon : Nat) (s : Session) (commands : List Command) : Session :=
  commands.foldl (fun s command => (s.perform horizon command).2) s

/-- Some commands, carried out one after the other, with their replies. -/
def transcript (horizon : Nat) : Session → List Command → List (Command × Reply)
  | _, [] => []
  | s, command :: commands =>
    (command, (s.perform horizon command).1) ::
      transcript horizon (s.perform horizon command).2 commands

/-- Two sessions have the same handle under a name and the same programs under some names. -/
structure Agrees (programs : List String) (handle : String) (s t : Session) : Prop where
  program : ∀ program ∈ programs, s.programs.get? program = t.programs.get? program
  handle : s.handles.get? handle = t.handles.get? handle
  left : Reached s.patterns
  right : Reached t.patterns

variable {programs : List String} {handle : String} {s t : Session}
  {command : Command}

/-- A command on the handle, or on one of the programs, gives the same reply in both. -/
theorem Agrees.perform (horizon : Nat) (h : Agrees programs handle s t)
    (hconcerns : command.concerns programs handle = true)
    (hexecuted : ∀ program ∈ command.executed? handle, program ∈ programs) :
    (s.perform horizon command).1 = (t.perform horizon command).1 ∧
      Agrees programs handle (s.perform horizon command).2 (t.perform horizon command).2 := by
  cases command with
  | compile program source options =>
    simp only [Session.perform, compile]
    cases Program.compile options source with
    | error d => exact ⟨rfl, h⟩
    | ok p =>
      refine ⟨rfl, { h with program := fun other hother => ?_ }⟩
      rw [Fields.get?_insert, Fields.get?_insert, h.program other hother]
  | execute program other input =>
    obtain rfl : other = handle := eq_of_beq hconcerns
    have hprogram := h.program program (hexecuted program (if_pos rfl))
    simp only [Session.perform, execute, hprogram]
    cases t.programs.get? program with
    | none => exact ⟨rfl, h⟩
    | some p =>
      refine ⟨rfl, { h with handle := ?_ }⟩
      rw [Fields.get?_insert, Fields.get?_insert, h.handle]
  | next other =>
    obtain rfl : other = handle := eq_of_beq hconcerns
    simp only [Session.perform, next, h.handle]
    cases t.handles.get? other with
    | none => exact ⟨rfl, h⟩
    | some r =>
      obtain ⟨left, hleft, heq⟩ := r.next_blind h.left
      obtain ⟨right, hright, heq'⟩ := r.next_blind h.right
      simp only [heq, heq']
      refine ⟨trivial, ⟨h.program, ?_, hleft, hright⟩⟩
      rw [Fields.get?_insert, Fields.get?_insert, h.handle]
  | state other =>
    obtain rfl : other = handle := eq_of_beq hconcerns
    simp only [Session.perform, state, h.handle]
    cases t.handles.get? other with
    | none => exact ⟨rfl, h⟩
    | some r => exact ⟨rfl, h⟩
  | consume other demand =>
    obtain rfl : other = handle := eq_of_beq hconcerns
    simp only [Session.perform, consume, h.handle]
    cases t.handles.get? other with
    | none => exact ⟨rfl, h⟩
    | some r =>
      obtain ⟨left, hleft, heq⟩ := r.consume_blind demand _ h.left
      obtain ⟨right, hright, heq'⟩ := r.consume_blind demand _ h.right
      simp only [heq, heq']
      refine ⟨trivial, ⟨h.program, ?_, hleft, hright⟩⟩
      rw [Fields.get?_erase, Fields.get?_erase, h.handle]
  | drop other =>
    obtain rfl : other = handle := eq_of_beq hconcerns
    refine ⟨?_, { h with handle := ?_ }⟩
    · simp only [Session.perform, drop, Fields.contains, h.handle]
    · simp only [Session.perform, drop, Fields.get?_erase, h.handle]

/-- Any other command leaves the programs and the handle as they are. -/
theorem Agrees.perform_left (horizon : Nat) (h : Agrees programs handle s t)
    (hconcerns : command.concerns programs handle = false) :
    Agrees programs handle (s.perform horizon command).2 t := by
  cases command with
  | compile program source options =>
    simp only [Session.perform, compile]
    cases Program.compile options source with
    | error d => exact h
    | ok p =>
      refine { h with program := fun other hother => ?_ }
      have hne : program ≠ other := by
        rintro rfl
        simp [Command.concerns, hother] at hconcerns
      rw [Fields.get?_insert, if_neg hne, h.program other hother]
  | execute program other input =>
    have hne : other ≠ handle := ne_of_beq_false hconcerns
    simp only [Session.perform, execute]
    cases s.programs.get? program with
    | none => exact h
    | some p => exact { h with handle := by rw [Fields.get?_insert, if_neg hne, h.handle] }
  | next other =>
    have hne : other ≠ handle := ne_of_beq_false hconcerns
    simp only [Session.perform, next]
    cases s.handles.get? other with
    | none => exact h
    | some r =>
      obtain ⟨left, hleft, heq⟩ := r.next_blind h.left
      simp only [heq]
      exact ⟨h.program, by rw [Fields.get?_insert, if_neg hne, h.handle], hleft, h.right⟩
  | state other =>
    simp only [Session.perform, state]
    cases s.handles.get? other with
    | none => exact h
    | some r => exact h
  | consume other demand =>
    have hne : other ≠ handle := ne_of_beq_false hconcerns
    simp only [Session.perform, consume]
    cases s.handles.get? other with
    | none => exact h
    | some r =>
      obtain ⟨left, hleft, heq⟩ := r.consume_blind demand _ h.left
      simp only [heq]
      exact ⟨h.program, by rw [Fields.get?_erase, if_neg hne, h.handle], hleft, h.right⟩
  | drop other =>
    have hne : other ≠ handle := ne_of_beq_false hconcerns
    refine { h with handle := ?_ }
    rw [Session.perform, drop, Fields.get?_erase, if_neg hne, h.handle]

/-- What a session answers to the commands on a handle is what another one does that agrees on the
handle and the programs and is given no other commands. -/
theorem Agrees.transcript (horizon : Nat) {commands : List Command}
    (h : Agrees programs handle s t)
    (hexecuted : ∀ command ∈ commands, ∀ program ∈ command.executed? handle, program ∈ programs) :
    (s.transcript horizon commands).filter (·.1.concerns programs handle) =
      t.transcript horizon (commands.filter (·.concerns programs handle)) := by
  induction commands generalizing s t with
  | nil => rfl
  | cons command commands ih =>
    obtain ⟨hfirst, hrest⟩ := List.forall_mem_cons.mp hexecuted
    cases hconcerns : command.concerns programs handle with
    | true =>
      obtain ⟨hreply, hagrees⟩ := h.perform horizon hconcerns hfirst
      simp only [Session.transcript, List.filter_cons, hconcerns, ↓reduceIte, hreply,
        ih hagrees hrest]
    | false =>
      simp only [Session.transcript, List.filter_cons, hconcerns, Bool.false_eq_true, ↓reduceIte,
        ih (h.perform_left horizon hconcerns) hrest]

/-- A command leaves a store of patterns that calls leave. -/
theorem reached_perform (horizon : Nat) (h : Reached s.patterns) (command : Command) :
    Reached (s.perform horizon command).2.patterns := by
  -- A session agrees with itself, so the two lemmas above tell of every command.
  have hself : Agrees (command.executed? "").toList "" s s := ⟨fun _ _ => rfl, rfl, h, h⟩
  cases hconcerns : command.concerns (command.executed? "").toList "" with
  | true => exact (hself.perform horizon hconcerns (by simp)).2.left
  | false => exact (hself.perform_left horizon hconcerns).left

theorem reached_after (horizon : Nat) (h : Reached s.patterns) (commands : List Command) :
    Reached (s.after horizon commands).patterns :=
  List.foldlRecOn (motive := fun s : Session => Reached s.patterns) commands _ h
    fun _ hs command _ => reached_perform horizon hs command

/-- The programs that are executed to make the handles of a name. -/
def executedAs (handle : String) (commands : List Command) : List String :=
  commands.filterMap (Command.executed? handle)

/-- Handles are isolated. Whatever commands a session is given, the replies to those on one handle
and its programs are the replies of a session that is given no other commands. The patterns that the
commands leave are those of some history of calls, and whatever the history, at most 512 of them are
kept, reading a pattern gives what it gives anew, and a test finds what it finds with none kept. -/
theorem handles_isolated (horizon : Nat) (commands : List Command) :
    (∀ handle,
      let own := Command.concerns (executedAs handle commands) handle
      (empty.transcript horizon commands).filter (own ·.1) =
        empty.transcript horizon (commands.filter own)) ∧
    Reached (empty.after horizon commands).patterns ∧
    ∀ history,
      let store := Pattern.Store.after history
      store.size ≤ 512 ∧
      (∀ source, (store.get source).1 = Pattern.compile source) ∧
      ∀ loc input args, ((Filter.testOf loc input args).pull store).1 =
        ((Filter.testOf loc input args).pull .empty).1 := by
  refine ⟨fun handle => ?_, reached_after horizon reached_empty commands, fun history => ?_⟩
  · have hself : Agrees (executedAs handle commands) handle empty empty :=
      ⟨fun _ _ => rfl, rfl, reached_empty, reached_empty⟩
    exact hself.transcript horizon fun command hcommand program hprogram =>
      List.mem_filterMap.mpr ⟨command, hcommand, hprogram⟩
  · have hreached : Reached (Pattern.Store.after history) := ⟨history, rfl⟩
    refine ⟨hreached.size_le, fun source => (hreached.sound.get source).1, fun loc input args => ?_⟩
    obtain ⟨store', -, heq⟩ := (Filter.testOf loc input args).pull_blind _ hreached
    exact (Prod.mk.inj heq).1

end Session

end JsonFilter
