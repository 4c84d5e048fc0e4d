import JsonFilter.Proofs.Grammar.Basic

/-!
The parser as a machine that works on one state. The tokens that are left, the variables in scope
and the depth of nesting are changed in place, so whoever goes a level deeper or brings a variable
into scope has to take it back on every way out. A chain of operators goes a level deeper with each
operator and comes back in one step, to the depth that it noted when it began.
-/

namespace JsonFilter.Filter.Machine

open Filter.Parser

/-- The state of the machine. `peak` is the greatest depth that it has had so far. -/
structure State where
  context : Context
  depth : Nat
  peak : Nat
  tokens : List Token

/-- The only way to change the depth. -/
def State.withDepth (s : State) (depth : Nat) : State :=
  { s with depth := depth, peak := max s.peak depth }

def State.withScope (s : State) (scope : List String) : State :=
  { s with context := ⟨scope, s.context.finish⟩ }

/-- A step gives a result or an error, and the state that it leaves in both cases. It gives nothing
where it calls more functions inside each other than it may, or where the depth would fall below
zero. -/
abbrev Step (α : Type) : Type := ExceptT Error (StateT State Option) α

/-- What a step does from a state on. -/
def exec {α : Type} (m : Step α) (s : State) : Option (Except Error α × State) := m.run.run s

/-! ## Single steps -/

/-- Takes the next token; at the end, the one that stands for it. -/
def next : Step Token := do
  let s ← get
  match s.tokens with
  | [] => return s.context.finish
  | t :: r =>
    set { s with tokens := r }
    return t

/-- Looks at the next token; at the end, at the one that stands for it. -/
def peek : Step Token := return Parser.peek (← get).context (← get).tokens

/-- Whether a token of this kind is left and comes next. -/
def peekIs (kind : Token.Kind) : Step Bool := return nextKind? (← get).tokens == some kind

/-- Takes a token of a given kind. -/
def take (kind : Token.Kind) (error : Token → Error) : Step Unit := do
  let t ← next
  if t.kind = kind then return () else throw (error t)

def takeBracket : Step Unit := take (.symbol .closeBracket) .closingBracketExpected

def takeParen : Step Unit := take (.symbol .closeParen) .closingParenExpected

def takeKeyword (word : Keyword) : Step Unit := take (.keyword word) (.wordExpected · word.text)

def takeSymbol (symbol : Symbol) : Step Unit := take (.symbol symbol) (.wordExpected · symbol.text)

def depth : Step Nat := return (← get).depth

def setDepth (depth : Nat) : Step Unit := modify (·.withDepth depth)

/-- Goes a level deeper, within the limit. -/
def descend : Step Unit := do
  let s ← get
  if maxDepth ≤ s.depth then throw (.tooDeep (Parser.peek s.context s.tokens))
  else setDepth (s.depth + 1)

/-- Comes back from the last level; no error may stop it. -/
def ascend : StateT State Option Unit := do
  let s ← get
  match s.depth with
  | 0 => failure
  | depth + 1 => set (s.withDepth depth)

/-- Brings a variable into scope. -/
def push (name : String) : StateT State Option Unit :=
  modify fun s => s.withScope (name :: s.context.scope)

/-- Takes the innermost variable out of scope; no error may stop it. -/
def pop : StateT State Option Unit := modify fun s => s.withScope s.context.scope.tail

/-- The node of a variable in scope. -/
def variableStep (t : Token) (name : String) : Step Filter := do
  liftExcept (variableNode (← get).context t name)

/-- A step one level deeper. -/
def nested (m : Step Filter) : Step Filter := do
  descend
  (do
    let result ← m.run
    ascend
    return result : StateT State Option (Except Error Filter))

/-- A step with a variable in scope. -/
def inScope (name : String) (m : Step Filter) : Step Filter :=
  (do
    push name
    let result ← m.run
    pop
    return result : StateT State Option (Except Error Filter))

/-! ## Functions -/

/-- The functions of the machine, each with its arguments. -/
inductive Procedure : Type → Type where
  | pipe : Procedure Filter
  | comma : Procedure Filter
  | alternative : Procedure Filter
  | chain (least : Nat) (left : Filter) : Procedure Filter
  | unary : Procedure Filter
  | postfixed : Procedure Filter
  | bracket (term : Filter) (loc : Range) : Procedure Filter
  | binding (source : Filter) : Procedure Filter
  | primary : Procedure Filter
  /-- What follows the name of a builtin, which stands at this place. -/
  | call (loc : Range) (name : String) : Procedure Filter
  | cond (loc : Range) : Procedure Filter
  | attempt (loc : Range) : Procedure Filter
  | object (loc : Range) : Procedure Filter
  | entry : Procedure (Filter × Filter)
  | entryValue : Procedure Filter

/-- The loops of the functions, each with what the next turn begins with. -/
inductive Loop : Type → Type where
  /-- The operands of commas after the first, and back to the depth before them. -/
  | commaTail (base : Nat) (left : Filter) : Loop Filter
  /-- Operators of at least a given level after a left operand, and back to the depth before them.
  The flag says whether the left operand ends in a comparison of this chain. -/
  | operators (base least : Nat) (compared : Bool) (left : Filter) : Loop Filter
  /-- Operators above a given level after an operand. -/
  | tighter (level : Nat) (right : Filter) : Loop Filter
  /-- The suffixes of a term, and back to the depth before them, also for the body of a binding. -/
  | suffixes (base : Nat) (term : Filter) : Loop Filter
  /-- The arguments of a call up to the closing parenthesis; `taken` holds those before, last
  first. -/
  | arguments (taken : List Filter) : Loop (List Filter)
  /-- The branches of a condition up to `end`; `taken` holds those before, last first. -/
  | branches (loc : Range) (taken : List (Filter × Filter)) : Loop Filter
  /-- The entries of an object up to the closing brace; `taken` holds those before, last first. -/
  | entries (taken : List (Filter × Filter)) : Loop (List (Filter × Filter))
  /-- The stages of an entry's value after the first, and back to the depth before them. -/
  | entryPipes (base : Nat) (left : Filter) : Loop Filter

/-- What the functions and the loops do when they are called. -/
structure Calls where
  run {α : Type} : Procedure α → Step α
  loop {α : Type} : Loop α → Step α

/-- What a function does, by what it calls. -/
def Procedure.body (calls : Calls) {α : Type} : Procedure α → Step α
  | .pipe => nested do
    let left ← calls.run .comma
    if ← peekIs (.symbol .pipe) then
      let t ← next
      let right ← calls.run .pipe
      return .pipe t.range left right
    else return left
  | .comma => do
    let base ← depth
    let left ← calls.run .alternative
    calls.loop (.commaTail base left)
  | .alternative => do
    let first ← calls.run .unary
    let left ← calls.run (.chain 1 first)
    if ← peekIs (.symbol .alternative) then
      let t ← next
      let right ← nested (calls.run .alternative)
      return .alternative t.range left right
    else return left
  | .chain least left => do
    let base ← depth
    calls.loop (.operators base least false left)
  | .unary => do
    if ← peekIs (.symbol .minus) then
      let t ← next
      let operand ← nested (calls.run .unary)
      return .negate t.range operand
    else calls.run .postfixed
  | .postfixed => do
    let base ← depth
    let term ← calls.run .primary
    calls.loop (.suffixes base term)
  | .bracket term loc => do
    if ← peekIs (.symbol .closeBracket) then
      let _ ← next
      return .iterate loc term
    else if ← peekIs (.symbol .colon) then
      let _ ← next
      let high ← calls.run .pipe
      takeBracket
      return .slice loc term none (some high)
    else
      let key ← calls.run .pipe
      if ← peekIs (.symbol .colon) then
        let _ ← next
        if ← peekIs (.symbol .closeBracket) then
          let _ ← next
          return .slice loc term (some key) none
        else
          let high ← calls.run .pipe
          takeBracket
          return .slice loc term (some key) (some high)
      else
        takeBracket
        return .index loc term key
  | .binding source => do
    let t ← next
    let v ← next
    match v.kind with
    | .binding name =>
      takeSymbol .pipe
      let body ← inScope name (calls.run .pipe)
      return .bind t.range source name body
    | _ => throw (.bindingExpected v)
  | .primary => do
    let t ← next
    match t.kind with
    | .symbol .dot =>
      let n ← peek
      match n.kind with
      | .string name =>
        let _ ← next
        return .index t.range (.identity t.range) (.key n.range name)
      | _ => return .identity t.range
    | .symbol .dotDot => return .recurse t.range
    | .field name => return .index t.range (.identity t.range) (.key t.range name)
    | .number n => return .literal t.range (.number n)
    | .string text => return .literal t.range (.string text)
    | .keyword .trueWord => return .literal t.range (.bool true)
    | .keyword .falseWord => return .literal t.range (.bool false)
    | .keyword .nullWord => return .literal t.range .null
    | .binding name => variableStep t name
    | .symbol .openParen =>
      let inner ← calls.run .pipe
      takeParen
      return inner
    | .symbol .openBracket =>
      if ← peekIs (.symbol .closeBracket) then
        let _ ← next
        return .array t.range none
      else
        let body ← calls.run .pipe
        takeBracket
        return .array t.range (some body)
    | .symbol .openBrace => calls.run (.object t.range)
    | .keyword .ifWord => calls.run (.cond t.range)
    | .keyword .tryWord => calls.run (.attempt t.range)
    | .name name => calls.run (.call t.range name)
    | .finish => throw (.unexpectedEnd t)
    | _ => throw (.unexpected t)
  | .call loc name => do
    if ← peekIs (.symbol .openParen) then
      let _ ← next
      let args ← calls.loop (.arguments [])
      liftExcept (callNode ⟨.name name, loc⟩ name args)
    else liftExcept (callNode ⟨.name name, loc⟩ name [])
  | .cond loc => calls.loop (.branches loc [])
  | .attempt loc => do
    let body ← nested (calls.run .postfixed)
    if ← peekIs (.keyword .catchWord) then
      let _ ← next
      let handler ← nested (calls.run .postfixed)
      return .attempt loc body (some handler)
    else return .attempt loc body none
  | .object loc => do
    if ← peekIs (.symbol .closeBrace) then
      let _ ← next
      return .object loc []
    else
      let fields ← calls.loop (.entries [])
      return .object loc fields
  | .entry => do
    let t ← next
    match t.kind with
    | .binding name =>
      let v ← variableStep t name
      return (.key t.range name, v)
    | .symbol .openParen =>
      let key ← calls.run .pipe
      takeParen
      takeSymbol .colon
      let v ← calls.run .entryValue
      return (key, v)
    | .finish => throw (.unexpectedEnd t)
    | kind =>
      match keyWord? kind with
      | none => throw (.unexpected t)
      | some word =>
        if ← peekIs (.symbol .colon) then
          let _ ← next
          let v ← calls.run .entryValue
          return (.key t.range word, v)
        else
          return (.key t.range word, .index t.range (.identity t.range) (.key t.range word))
  | .entryValue => do
    let base ← depth
    let first ← calls.run .alternative
    calls.loop (.entryPipes base first)

/-- What a turn of a loop does, and those after it. -/
def Loop.body (calls : Calls) {α : Type} : Loop α → Step α
  | .commaTail base left => do
    if ← peekIs (.symbol .comma) then
      let t ← next
      descend
      let right ← calls.run .alternative
      calls.loop (.commaTail base (.comma t.range left right))
    else
      setDepth base
      return left
  | .operators base least compared left => do
    let t ← peek
    match Operator.ofKind? t.kind with
    | none =>
      setDepth base
      return left
    | some op =>
      if op.level < least then
        setDepth base
        return left
      else if op.isComparison && compared then throw (.unexpected t)
      else
        let _ ← next
        descend
        let first ← calls.run .unary
        let right ← calls.loop (.tighter op.level first)
        calls.loop (.operators base least op.isComparison (op.apply t.range left right))
  | .tighter level right => do
    let t ← peek
    match Operator.ofKind? t.kind with
    | none => return right
    | some op =>
      if op.level ≤ level then return right
      else
        let right ← calls.run (.chain op.level right)
        calls.loop (.tighter level right)
  | .suffixes base term => do
    let t ← peek
    match t.kind with
    | .field name =>
      descend
      let _ ← next
      calls.loop (.suffixes base (.index t.range term (.key t.range name)))
    | .symbol .dot =>
      descend
      let _ ← next
      let n ← peek
      match n.kind with
      | .string name =>
        let _ ← next
        calls.loop (.suffixes base (.index t.range term (.key n.range name)))
      | .symbol .openBracket =>
        let _ ← next
        let term ← calls.run (.bracket term n.range)
        calls.loop (.suffixes base term)
      | _ => throw (.unexpected n)
    | .symbol .openBracket =>
      descend
      let _ ← next
      let term ← calls.run (.bracket term t.range)
      calls.loop (.suffixes base term)
    | .symbol .question =>
      descend
      let _ ← next
      calls.loop (.suffixes base (.attempt t.range term none))
    | .keyword .asWord =>
      setDepth base
      calls.run (.binding term)
    | _ =>
      setDepth base
      return term
  | .arguments taken => do
    let arg ← calls.run .pipe
    let t ← next
    match t.kind with
    | .symbol .semicolon => calls.loop (.arguments (arg :: taken))
    | .symbol .closeParen => return (arg :: taken).reverse
    | _ => throw (.closingParenExpected t)
  | .branches loc taken => do
    let test ← calls.run .pipe
    takeKeyword .thenWord
    let body ← calls.run .pipe
    let word ← next
    match word.kind with
    | .keyword .elifWord => calls.loop (.branches loc ((test, body) :: taken))
    | .keyword .elseWord =>
      let otherwise ← calls.run .pipe
      takeKeyword .endWord
      return .cond loc ((test, body) :: taken).reverse (some otherwise)
    | .keyword .endWord => return .cond loc ((test, body) :: taken).reverse none
    | _ => throw (.wordExpected word Keyword.endWord.text)
  | .entries taken => do
    let e ← calls.run .entry
    let t ← next
    match t.kind with
    | .symbol .comma => calls.loop (.entries (e :: taken))
    | .symbol .closeBrace => return (e :: taken).reverse
    | _ => throw (.closingBraceExpected t)
  | .entryPipes base left => do
    if ← peekIs (.symbol .pipe) then
      let t ← next
      descend
      let right ← calls.run .alternative
      calls.loop (.entryPipes base (.pipe t.range left right))
    else
      setDepth base
      return left

/-- Functions and loops that call each other, at most so many inside each other; a call beyond that
gives nothing. -/
def Calls.within : Nat → Calls
  | 0 => ⟨fun _ => (failure : StateT State Option _), fun _ => (failure : StateT State Option _)⟩
  | n + 1 => ⟨Procedure.body (within n), Loop.body (within n)⟩

/-- What a function does with so many calls inside each other. -/
def run (n : Nat) {α : Type} (p : Procedure α) : Step α := (Calls.within n).run p

/-- What a loop does with so many calls inside each other. -/
def loop (n : Nat) {α : Type} (l : Loop α) : Step α := (Calls.within n).loop l

theorem run_succ (n : Nat) {α : Type} (p : Procedure α) :
    run (n + 1) p = p.body (Calls.within n) :=
  rfl

theorem loop_succ (n : Nat) {α : Type} (l : Loop α) : loop (n + 1) l = l.body (Calls.within n) :=
  rfl

/-- The whole filter. No token but the end stands for `.`. -/
def program (n : Nat) : Step Filter := do
  let first ← peek
  if first.isFinish then return .identity first.range
  else
    let filter ← run n .pipe
    let t ← next
    if t.isFinish then return filter else throw (.unexpected t)

/-- The state in which the machine begins. -/
def State.initial (globals : List String) (tokens : List Token) : State :=
  ⟨⟨globals, finishOf tokens⟩, 0, 0, tokens⟩

end JsonFilter.Filter.Machine
