import JsonFilter.Results

/-!
Sessions: programs and handles kept under names. The only thing that they share is the store of
patterns, which no answer depends on.
-/

namespace JsonFilter

/-- Programs and handles by their names, and the patterns read so far. -/
structure Session where
  programs : Fields Program
  handles : Fields Results
  patterns : Pattern.Store

/-- What can be asked of a session. -/
inductive Command where
  | compile (program source : String) (options : Options)
  | execute (program handle : String) (input : Input)
  | next (handle : String)
  | state (handle : String)
  | consume (handle : String) (demand : Results.Demand)
  | drop (handle : String)

/-- What a session answers. -/
inductive Reply where
  | compiled (source : String)
  | notCompiled (d : Diagnostic)
  | state (s : State)
  | step (s : Results.Step)
  | answer (a : Results.Answer)
  | dropped (found : Bool)
  | noProgram
  | noHandle

namespace Session

def empty : Session := ⟨[], [], .empty⟩

/-- Keeps a program under a name if it compiles; if not, an older one of that name stays. -/
def compile (s : Session) (program source : String) (options : Options) : Reply × Session :=
  match Program.compile options source with
  | .ok p => (.compiled p.source, { s with programs := s.programs.insert program p })
  | .error d => (.notCompiled d, s)

/-- Keeps a handle on what a program gives for an input. -/
def execute (horizon : Nat) (s : Session) (program handle : String) (input : Input) :
    Reply × Session :=
  match s.programs.get? program with
  | none => (.noProgram, s)
  | some p =>
    let r := Results.ofProgram horizon p input
    (.state r.state, { s with handles := s.handles.insert handle r })

/-- Pulls a handle. -/
def next (s : Session) (handle : String) : Reply × Session :=
  match s.handles.get? handle with
  | none => (.noHandle, s)
  | some r =>
    let (outcome, r, patterns) := r.next s.patterns
    (.step ⟨outcome, r.state⟩,
      { s with handles := s.handles.insert handle r, patterns := patterns })

/-- The state of a handle. -/
def state (s : Session) (handle : String) : Reply × Session :=
  match s.handles.get? handle with
  | none => (.noHandle, s)
  | some r => (.state r.state, s)

/-- Consumes a handle, which is then gone. -/
def consume (s : Session) (handle : String) (demand : Results.Demand) : Reply × Session :=
  match s.handles.get? handle with
  | none => (.noHandle, s)
  | some r =>
    let (answer, patterns) := r.consume demand s.patterns
    (.answer answer, { s with handles := s.handles.erase handle, patterns := patterns })

/-- Forgets a handle. -/
def drop (s : Session) (handle : String) : Reply × Session :=
  (.dropped (s.handles.contains handle), { s with handles := s.handles.erase handle })

/-- Carries a command out. -/
def perform (horizon : Nat) (s : Session) : Command → Reply × Session
  | .compile program source options => s.compile program source options
  | .execute program handle input => s.execute horizon program handle input
  | .next handle => s.next handle
  | .state handle => s.state handle
  | .consume handle demand => s.consume handle demand
  | .drop handle => s.drop handle

end Session

end JsonFilter
