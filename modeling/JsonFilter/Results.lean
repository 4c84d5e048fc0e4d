import JsonFilter.Program

/-!
Handles on the outputs of a program. A handle is pulled step by step or consumed as a whole. It is
pending until it meets a failure or the end, and then gives nothing more.
-/

namespace JsonFilter

/-- Where a handle is in its life. -/
inductive State where
  | pending
  | exhausted
  | failed
  deriving DecidableEq

def State.text : State → String
  | .pending => "Pending"
  | .exhausted => "Exhausted"
  | .failed => "Failed"

/-- A handle: its state and the outputs that are left. -/
structure Results where
  state : State
  outputs : Unit → Outputs Diagnostic Value

/-- What asking a handle for a result gives. -/
inductive Outcome (α : Type) where
  | value (a : α)
  | failure (d : Diagnostic)
  /-- Counting was cut off at the horizon before there was a result. -/
  | unfinished

def Outcome.map {α β : Type} (f : α → β) : Outcome α → Outcome β
  | .value a => .value (f a)
  | .failure d => .failure d
  | .unfinished => .unfinished

namespace Results

/-- A new handle on some outputs, none of which is computed yet. -/
def start (outputs : Unit → Outputs Diagnostic Value) : Results := ⟨.pending, outputs⟩

/-- A handle on what a program gives for an input. -/
def ofProgram (horizon : Nat) (p : Program) (input : Input) : Results :=
  start fun _ => p.outputs horizon input

/-- A handle on a filter that is compiled first; if that fails, the failure is the only output. -/
def ofSource (horizon : Nat) (o : Options) (source : String) (input : Input) : Results :=
  match Program.compile o source with
  | .ok p => ofProgram horizon p input
  | .error d => start fun _ => .failure d

/-- The next output; none at the end. -/
def next (r : Results) (store : Pattern.Store) :
    Option (Outcome Value) × Results × Pattern.Store :=
  match r.state with
  | .pending =>
    match (r.outputs ()).pull store with
    | (.item (.ok v) rest, store) => (some (.value v), ⟨.pending, rest⟩, store)
    | (.item (.error d) rest, store) => (some (.failure d), ⟨.failed, rest⟩, store)
    | (.finished, store) => (none, ⟨.exhausted, r.outputs⟩, store)
    | (.unfinished, store) => (some .unfinished, r, store)
  | _ => (none, r, store)

/-- The next output, where the end is a failure. -/
def first (r : Results) (store : Pattern.Store) : Outcome Value × Pattern.Store :=
  match r.next store with
  | (some outcome, _, store) => (outcome, store)
  | (none, _, store) => (.failure ⟨.noOutput, ""⟩, store)

/-- All outputs that are left, or the first failure. -/
def all (r : Results) (store : Pattern.Store) : Outcome (List Value) × Pattern.Store :=
  match r.state with
  | .pending =>
    match ((r.outputs ()).collect []).pull store with
    | (.item (.ok vs) _, store) => (.value vs, store)
    | (.item (.error d) _, store) => (.failure d, store)
    | (.finished, store) => (.value [], store)
    | (.unfinished, store) => (.unfinished, store)
  | _ => (.value [], store)

/-- Values as lines of JSON text. -/
def lines (style : Style) (values : List Value) : String :=
  String.intercalate "\n" (values.map (Value.text style))

/-- All outputs that are left as lines of JSON text, or the first failure. -/
def text (style : Style) (r : Results) (store : Pattern.Store) :
    Outcome String × Pattern.Store :=
  let (outcome, store) := r.all store
  (outcome.map (lines style), store)

/-- One step of a handle: an output or the end, and the state after it. -/
structure Step where
  outcome : Option (Outcome Value)
  state : State

/-- The next steps of a handle: at most `max`, and none once the end was seen `ends` times. -/
def steps (max ends : Nat) (r : Results) (store : Pattern.Store) : List Step × Pattern.Store :=
  match max with
  | 0 => ([], store)
  | max + 1 =>
    if ends = 0 then ([], store)
    else
      let (outcome, r, store) := r.next store
      let (rest, store) := steps max (if outcome.isNone then ends - 1 else ends) r store
      (⟨outcome, r.state⟩ :: rest, store)

/-- How a handle is consumed. -/
inductive Demand where
  | steps (max : Nat)
  | first
  | all
  | text (style : Style)

/-- What consuming a handle gives. -/
inductive Answer where
  | steps (s : List Step)
  | first (outcome : Outcome Value)
  | all (outcome : Outcome (List Value))
  | text (outcome : Outcome String)

/-- Consumes a handle. -/
def consume (r : Results) (demand : Demand) (store : Pattern.Store) : Answer × Pattern.Store :=
  match demand with
  | .steps max => (r.steps max 2 store).map .steps id
  | .first => (r.first store).map .first id
  | .all => (r.all store).map .all id
  | .text style => (r.text style store).map .text id

end Results

end JsonFilter
