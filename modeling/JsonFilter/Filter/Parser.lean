import JsonFilter.Filter.Basic
import JsonFilter.Text.Front
import JsonFilter.Token.Basic

/-!
From tokens to a filter. The levels, loosest first, are: pipe, comma, `//`, `or`, `and`, the
comparisons, `+ -`, `* / %`, unary minus, suffixes. Pipe and `//` nest to the right, comparisons
do not nest, all others nest to the left. Nesting and chains of operators are limited in depth;
names are resolved here, so a parsed filter mentions only known variables and builtins.
-/

namespace JsonFilter.Filter

/-- How deeply filters nest. -/
def maxDepth : Nat := 256

namespace Parser

/-- Why tokens are not a filter; each cause names the token at fault. -/
inductive Error where
  | unexpected (token : Token)
  | unexpectedEnd (token : Token)
  | closingParenExpected (token : Token)
  | closingBracketExpected (token : Token)
  | closingBraceExpected (token : Token)
  | wordExpected (token : Token) (word : String)
  | bindingExpected (token : Token)
  | undefinedBuiltin (token : Token) (name : String) (arity : Nat)
  | undefinedVariable (token : Token) (name : String)
  | tooDeep (token : Token)
  deriving DecidableEq

/-- The token at fault. -/
def Error.token : Error → Token
  | .unexpected t => t
  | .unexpectedEnd t => t
  | .closingParenExpected t => t
  | .closingBracketExpected t => t
  | .closingBraceExpected t => t
  | .wordExpected t _ => t
  | .bindingExpected t => t
  | .undefinedBuiltin t _ _ => t
  | .undefinedVariable t _ => t
  | .tooDeep t => t

/-- What parsing a part of a filter depends on: the variables in scope, innermost first, and the
token that stands for the end. -/
structure Context where
  scope : List String
  finish : Token

/-- The result of parsing from the front of some tokens. -/
abbrev Parsing (α : Type) (s : List Token) := Except Error (Front α s)

/-- The next token; at the end, the one that stands for it. -/
def peek (ctx : Context) (s : List Token) : Token := s.headD ctx.finish

/-- Nesting may go one level deeper. -/
def checkDepth (ctx : Context) (depth : Nat) (s : List Token) : Except Error Unit :=
  if maxDepth ≤ depth then .error (.tooDeep (peek ctx s)) else .ok ()

/-- Takes a token of a given kind. -/
def expect (ctx : Context) (kind : Token.Kind) (error : Token → Error) (s : List Token) :
    Except Error { r : List Token // r.length < s.length } :=
  match s with
  | t :: r => if t.kind = kind then .ok ⟨r, Front.tail_lt _⟩ else .error (error t)
  | [] => .error (error ctx.finish)

/-- Takes a closing bracket. -/
def expectBracket (ctx : Context) (s : List Token) :=
  expect ctx (.symbol .closeBracket) .closingBracketExpected s

/-- Takes a closing parenthesis. -/
def expectParen (ctx : Context) (s : List Token) :=
  expect ctx (.symbol .closeParen) .closingParenExpected s

/-- Takes a keyword. -/
def expectKeyword (ctx : Context) (word : Keyword) (s : List Token) :=
  expect ctx (.keyword word) (.wordExpected · word.text) s

/-- Takes a symbol that no bracket needs. -/
def expectSymbol (ctx : Context) (symbol : Symbol) (s : List Token) :=
  expect ctx (.symbol symbol) (.wordExpected · symbol.text) s

/-! ## Operators between two operands -/

/-- The operators of the levels between `//` and unary minus. -/
inductive Operator where
  | or
  | and
  | binary (op : BinaryOp)
  deriving DecidableEq

namespace Operator

/-- The operator that a token stands for. -/
def ofKind? : Token.Kind → Option Operator
  | .keyword .orWord => some .or
  | .keyword .andWord => some .and
  | .symbol .equal => some (.binary .eq)
  | .symbol .notEqual => some (.binary .ne)
  | .symbol .less => some (.binary .lt)
  | .symbol .atMost => some (.binary .le)
  | .symbol .greater => some (.binary .gt)
  | .symbol .atLeast => some (.binary .ge)
  | .symbol .plus => some (.binary .add)
  | .symbol .minus => some (.binary .sub)
  | .symbol .times => some (.binary .mul)
  | .symbol .slash => some (.binary .div)
  | .symbol .percent => some (.binary .rem)
  | _ => none

/-- How tightly an operator binds. -/
def level : Operator → Nat
  | .or => 1
  | .and => 2
  | .binary .add => 4
  | .binary .sub => 4
  | .binary .mul => 5
  | .binary .div => 5
  | .binary .rem => 5
  | .binary _ => 3

/-- Comparisons share a level and do not chain. -/
def isComparison (op : Operator) : Bool := op.level == 3

/-- The filter of an operator and its operands. -/
def apply (op : Operator) (loc : Range) (left right : Filter) : Filter :=
  match op with
  | .or => .or loc left right
  | .and => .and loc left right
  | .binary b => .binary loc b left right

end Operator

/-! ## Leaves -/

/-- A variable, if it is in scope. -/
def variableNode (ctx : Context) (t : Token) (name : String) : Except Error Filter :=
  if ctx.scope.contains name then .ok (.var t.range name)
  else .error (.undefinedVariable t name)

/-- A call, if the builtin takes that many arguments. -/
def callNode (t : Token) (name : String) (args : List Filter) : Except Error Filter :=
  match Builtin.find? name args.length with
  | some b => .ok (.call t.range b args)
  | none => .error (.undefinedBuiltin t name args.length)

/-- The words and strings that can be written as a key without parentheses. -/
def keyWord? : Token.Kind → Option String
  | .string s => some s
  | .name w => some w
  | .keyword k => some k.text
  | _ => none

/-! ## Filters -/

mutual

/-- `comma ["|" pipe]` -/
def parsePipe (ctx : Context) (depth : Nat) (s : List Token) : Parsing Filter s := do
  checkDepth ctx depth s
  let left ← parseComma ctx (depth + 1) s
  have := left.shorter
  match h : left.rest with
  | ⟨.symbol .pipe, loc⟩ :: r =>
    have : r.length < left.rest.length := by simp [h]
    let right ← parsePipe ctx (depth + 1) r
    return ⟨.pipe loc left.value right.value, right.rest, by have := right.shorter; omega⟩
  | _ => return left
termination_by (s.length, 9)

/-- `alternative ("," alternative)*` -/
def parseComma (ctx : Context) (depth : Nat) (s : List Token) : Parsing Filter s := do
  let first ← parseAlternative ctx depth s
  have := first.shorter
  parseCommaTail s ctx depth first.value first.rest first.shorter
termination_by (s.length, 8)

/-- The operands after the first; each takes a level more. -/
def parseCommaTail (whole : List Token) (ctx : Context) (depth : Nat) (left : Filter)
    (s : List Token) (h : s.length < whole.length) : Parsing Filter whole :=
  match s with
  | ⟨.symbol .comma, loc⟩ :: r => do
    checkDepth ctx depth r
    let right ← parseAlternative ctx (depth + 1) r
    have := right.shorter
    parseCommaTail whole ctx (depth + 1) (.comma loc left right.value) right.rest
      (by simp only [List.length_cons] at h; omega)
  | s => return ⟨left, s, h⟩
termination_by (s.length, 0)

/-- `operation ["//" alternative]` -/
def parseAlternative (ctx : Context) (depth : Nat) (s : List Token) : Parsing Filter s := do
  let first ← parseUnary ctx depth s
  have := first.shorter
  let left ← parseOperators s ctx depth 1 false first.value first.rest first.shorter
  have := left.shorter
  match h : left.rest with
  | ⟨.symbol .alternative, loc⟩ :: r =>
    have : r.length < left.rest.length := by simp [h]
    checkDepth ctx depth r
    let right ← parseAlternative ctx (depth + 1) r
    return ⟨.alternative loc left.value right.value, right.rest, by
      have := right.shorter
      omega⟩
  | _ => return left
termination_by (s.length, 7)

/-- Operators of at least a given level after a left operand; each takes a level of depth more. The
flag says whether the left operand ends in a comparison of this chain. -/
def parseOperators (whole : List Token) (ctx : Context) (depth least : Nat) (compared : Bool)
    (left : Filter) (s : List Token) (h : s.length < whole.length) : Parsing Filter whole :=
  match s with
  | [] => return ⟨left, [], h⟩
  | t :: r =>
    match Operator.ofKind? t.kind with
    | none => return ⟨left, t :: r, h⟩
    | some op =>
      if op.level < least then return ⟨left, t :: r, h⟩
      else if op.isComparison && compared then .error (.unexpected t)
      else do
        let next ← parseOperation ctx depth op t.range left r
        have := next.shorter
        parseOperators whole ctx (depth + 1) least op.isComparison next.value next.rest
          (by simp only [List.length_cons] at h; omega)
termination_by (s.length, 0)

/-- The right operand of an operator, with the tighter operators that follow it. -/
def parseOperation (ctx : Context) (depth : Nat) (op : Operator) (loc : Range) (left : Filter)
    (s : List Token) : Parsing Filter s := do
  checkDepth ctx depth s
  let first ← parseUnary ctx (depth + 1) s
  have := first.shorter
  let right ← parseTighter s ctx (depth + 1) op.level first.value first.rest first.shorter
  return right.map (op.apply loc left)
termination_by (s.length, 7)

/-- Operators above a given level after an operand. -/
def parseTighter (whole : List Token) (ctx : Context) (depth level : Nat) (left : Filter)
    (s : List Token) (h : s.length < whole.length) : Parsing Filter whole :=
  match s with
  | [] => return ⟨left, [], h⟩
  | t :: r =>
    match Operator.ofKind? t.kind with
    | none => return ⟨left, t :: r, h⟩
    | some op =>
      if op.level ≤ level then return ⟨left, t :: r, h⟩
      else do
        let next ← parseOperation ctx depth op t.range left r
        have := next.shorter
        let chain ← parseOperators r ctx (depth + 1) op.level op.isComparison next.value next.rest
          next.shorter
        have := chain.shorter
        parseTighter whole ctx depth level chain.value chain.rest
          (by simp only [List.length_cons] at h; omega)
termination_by (s.length, 1)

/-- `"-" unary` or `postfix` -/
def parseUnary (ctx : Context) (depth : Nat) (s : List Token) : Parsing Filter s :=
  match s with
  | ⟨.symbol .minus, loc⟩ :: r => do
    checkDepth ctx depth r
    let operand ← parseUnary ctx (depth + 1) r
    return ⟨.negate loc operand.value, operand.rest, Nat.lt_succ_of_lt operand.shorter⟩
  | s => parsePostfix ctx depth s
termination_by (s.length, 6)

/-- `primary suffix*` -/
def parsePostfix (ctx : Context) (depth : Nat) (s : List Token) : Parsing Filter s := do
  let term ← parsePrimary ctx depth s
  have := term.shorter
  parseSuffixes s ctx depth depth term.value term.rest term.shorter
termination_by (s.length, 5)

/-- The suffixes of a term; each takes a level more, but a binding starts again at `base`. -/
def parseSuffixes (whole : List Token) (ctx : Context) (base depth : Nat) (term : Filter)
    (s : List Token) (h : s.length < whole.length) : Parsing Filter whole :=
  match s with
  | ⟨.field name, loc⟩ :: r => do
    checkDepth ctx depth (⟨.field name, loc⟩ :: r)
    parseSuffixes whole ctx base (depth + 1) (.index loc term (.key loc name)) r
      (by simp only [List.length_cons] at h; omega)
  | ⟨.symbol .dot, loc⟩ :: ⟨.string name, keyLoc⟩ :: r => do
    checkDepth ctx depth (⟨.symbol .dot, loc⟩ :: r)
    parseSuffixes whole ctx base (depth + 1) (.index loc term (.key keyLoc name)) r
      (by simp only [List.length_cons] at h; omega)
  | ⟨.symbol .dot, loc⟩ :: ⟨.symbol .openBracket, bracket⟩ :: r => do
    checkDepth ctx depth (⟨.symbol .dot, loc⟩ :: r)
    let next ← parseBracket ctx (depth + 1) term bracket r
    have := next.shorter
    parseSuffixes whole ctx base (depth + 1) next.value next.rest
      (by simp only [List.length_cons] at h; omega)
  | ⟨.symbol .dot, loc⟩ :: r => do
    checkDepth ctx depth (⟨.symbol .dot, loc⟩ :: r)
    .error (.unexpected (peek ctx r))
  | ⟨.symbol .openBracket, bracket⟩ :: r => do
    checkDepth ctx depth (⟨.symbol .openBracket, bracket⟩ :: r)
    let next ← parseBracket ctx (depth + 1) term bracket r
    have := next.shorter
    parseSuffixes whole ctx base (depth + 1) next.value next.rest
      (by simp only [List.length_cons] at h; omega)
  | ⟨.symbol .question, loc⟩ :: r => do
    checkDepth ctx depth (⟨.symbol .question, loc⟩ :: r)
    parseSuffixes whole ctx base (depth + 1) (.attempt loc term none) r
      (by simp only [List.length_cons] at h; omega)
  | ⟨.keyword .asWord, loc⟩ :: r => do
    let body ← parseBinding ctx base term loc r
    return body.widen (by simp only [List.length_cons] at h; omega)
  | s => return ⟨term, s, h⟩
termination_by (s.length, 0)

/-- What follows an opening bracket after a term: `]`, `key]`, `low:]`, `:high]` or `low:high]`. -/
def parseBracket (ctx : Context) (depth : Nat) (term : Filter) (loc : Range) (s : List Token) :
    Parsing Filter s :=
  match s with
  | ⟨.symbol .closeBracket, _⟩ :: r => return ⟨.iterate loc term, r, Front.tail_lt _⟩
  | ⟨.symbol .colon, _⟩ :: r => do
    let high ← parsePipe ctx depth r
    let ⟨t, ht⟩ ← expectBracket ctx high.rest
    return ⟨.slice loc term none (some high.value), t, by
      have := high.shorter
      simp only [List.length_cons]
      omega⟩
  | s => do
    let key ← parsePipe ctx depth s
    have := key.shorter
    match h : key.rest with
    | ⟨.symbol .colon, _⟩ :: ⟨.symbol .closeBracket, _⟩ :: r =>
      have : key.rest.length = r.length + 2 := by simp [h]
      return ⟨.slice loc term (some key.value) none, r, by omega⟩
    | ⟨.symbol .colon, _⟩ :: r =>
      have : key.rest.length = r.length + 1 := by simp [h]
      let high ← parsePipe ctx depth r
      have := high.shorter
      let ⟨t, ht⟩ ← expectBracket ctx high.rest
      return ⟨.slice loc term (some key.value) (some high.value), t, by omega⟩
    | r =>
      let ⟨t, ht⟩ ← expectBracket ctx r
      return ⟨.index loc term key.value, t, by
        have : key.rest.length = r.length := by rw [h]
        omega⟩
termination_by (s.length, 10)

/-- What follows `as`: `$name "|" pipe`, with the name in scope in the pipe only. -/
def parseBinding (ctx : Context) (depth : Nat) (source : Filter) (loc : Range) (s : List Token) :
    Parsing Filter s :=
  match s with
  | ⟨.binding name, _⟩ :: r => do
    let ⟨t, ht⟩ ← expectSymbol ctx .pipe r
    let body ← parsePipe ⟨name :: ctx.scope, ctx.finish⟩ depth t
    return ⟨.bind loc source name body.value, body.rest, by
      have := body.shorter
      simp only [List.length_cons]
      omega⟩
  | s => .error (.bindingExpected (peek ctx s))
termination_by (s.length, 0)

/-- A filter that no operator joins. -/
def parsePrimary (ctx : Context) (depth : Nat) (s : List Token) : Parsing Filter s :=
  match s with
  | [] => .error (.unexpectedEnd ctx.finish)
  | ⟨.symbol .dot, loc⟩ :: ⟨.string name, keyLoc⟩ :: r =>
    return ⟨.index loc (.identity loc) (.key keyLoc name), r, by
      simp only [List.length_cons]
      omega⟩
  | ⟨.symbol .dot, loc⟩ :: r => return ⟨.identity loc, r, Front.tail_lt _⟩
  | ⟨.symbol .dotDot, loc⟩ :: r => return ⟨.recurse loc, r, Front.tail_lt _⟩
  | ⟨.field name, loc⟩ :: r =>
    return ⟨.index loc (.identity loc) (.key loc name), r, Front.tail_lt _⟩
  | ⟨.number n, loc⟩ :: r => return ⟨.literal loc (.number n), r, Front.tail_lt _⟩
  | ⟨.string text, loc⟩ :: r => return ⟨.literal loc (.string text), r, Front.tail_lt _⟩
  | ⟨.keyword .trueWord, loc⟩ :: r => return ⟨.literal loc (.bool true), r, Front.tail_lt _⟩
  | ⟨.keyword .falseWord, loc⟩ :: r => return ⟨.literal loc (.bool false), r, Front.tail_lt _⟩
  | ⟨.keyword .nullWord, loc⟩ :: r => return ⟨.literal loc .null, r, Front.tail_lt _⟩
  | ⟨.binding name, loc⟩ :: r => do
    let v ← variableNode ctx ⟨.binding name, loc⟩ name
    return ⟨v, r, Front.tail_lt _⟩
  | ⟨.symbol .openParen, _⟩ :: r => do
    let inner ← parsePipe ctx depth r
    let ⟨t, ht⟩ ← expectParen ctx inner.rest
    return ⟨inner.value, t, by
      have := inner.shorter
      simp only [List.length_cons]
      omega⟩
  | ⟨.symbol .openBracket, loc⟩ :: ⟨.symbol .closeBracket, _⟩ :: r =>
    return ⟨.array loc none, r, by simp only [List.length_cons]; omega⟩
  | ⟨.symbol .openBracket, loc⟩ :: r => do
    let body ← parsePipe ctx depth r
    let ⟨t, ht⟩ ← expectBracket ctx body.rest
    return ⟨.array loc (some body.value), t, by
      have := body.shorter
      simp only [List.length_cons]
      omega⟩
  | ⟨.symbol .openBrace, loc⟩ :: ⟨.symbol .closeBrace, _⟩ :: r =>
    return ⟨.object loc [], r, by simp only [List.length_cons]; omega⟩
  | ⟨.symbol .openBrace, loc⟩ :: r => do
    let entries ← parseEntries r ctx depth [] r (Front.whole_le _)
    return ⟨.object loc entries.value, entries.rest, Nat.lt_succ_of_lt entries.shorter⟩
  | ⟨.keyword .ifWord, loc⟩ :: r => do
    let cond ← parseBranches r ctx depth loc [] r (Front.whole_le _)
    return cond.widen (by simp)
  | ⟨.keyword .tryWord, loc⟩ :: r => do
    checkDepth ctx depth r
    let body ← parsePostfix ctx (depth + 1) r
    have := body.shorter
    match h : body.rest with
    | ⟨.keyword .catchWord, _⟩ :: t =>
      have : body.rest.length = t.length + 1 := by simp [h]
      checkDepth ctx depth t
      let handler ← parsePostfix ctx (depth + 1) t
      return ⟨.attempt loc body.value (some handler.value), handler.rest, by
        have := handler.shorter
        simp only [List.length_cons]
        omega⟩
    | _ =>
      return ⟨.attempt loc body.value none, body.rest, by simp only [List.length_cons]; omega⟩
  | ⟨.name name, loc⟩ :: ⟨.symbol .openParen, _⟩ :: r => do
    let args ← parseArgs r ctx depth [] r (Front.whole_le _)
    let call ← callNode ⟨.name name, loc⟩ name args.value
    return ⟨call, args.rest, by
      have := args.shorter
      simp only [List.length_cons]
      omega⟩
  | ⟨.name name, loc⟩ :: r => do
    let call ← callNode ⟨.name name, loc⟩ name []
    return ⟨call, r, Front.tail_lt _⟩
  | ⟨.finish, loc⟩ :: _ => .error (.unexpectedEnd ⟨.finish, loc⟩)
  | t :: _ => .error (.unexpected t)
termination_by (s.length, 4)

/-- The arguments of a call up to the closing parenthesis; `taken` holds those before, last
first. -/
def parseArgs (whole : List Token) (ctx : Context) (depth : Nat) (taken : List Filter)
    (s : List Token) (h : s.length ≤ whole.length) : Parsing (List Filter) whole := do
  let arg ← parsePipe ctx depth s
  have := arg.shorter
  match hr : arg.rest with
  | ⟨.symbol .semicolon, _⟩ :: r =>
    have : arg.rest.length = r.length + 1 := by simp [hr]
    parseArgs whole ctx depth (arg.value :: taken) r (by omega)
  | ⟨.symbol .closeParen, _⟩ :: r =>
    have : arg.rest.length = r.length + 1 := by simp [hr]
    return ⟨(arg.value :: taken).reverse, r, by omega⟩
  | r => .error (.closingParenExpected (peek ctx r))
termination_by (s.length, 10)

/-- The branches of a condition up to `end`; `taken` holds those before, last first. -/
def parseBranches (whole : List Token) (ctx : Context) (depth : Nat) (loc : Range)
    (taken : List (Filter × Filter)) (s : List Token) (h : s.length ≤ whole.length) :
    Parsing Filter whole := do
  let test ← parsePipe ctx depth s
  have := test.shorter
  let ⟨r, hr⟩ ← expectKeyword ctx .thenWord test.rest
  let body ← parsePipe ctx depth r
  have := body.shorter
  let branches := (test.value, body.value) :: taken
  match hb : body.rest with
  | ⟨.keyword .elifWord, _⟩ :: t =>
    have : body.rest.length = t.length + 1 := by simp [hb]
    parseBranches whole ctx depth loc branches t (by omega)
  | ⟨.keyword .elseWord, _⟩ :: t =>
    have : body.rest.length = t.length + 1 := by simp [hb]
    let otherwise ← parsePipe ctx depth t
    have := otherwise.shorter
    let ⟨u, hu⟩ ← expectKeyword ctx .endWord otherwise.rest
    return ⟨.cond loc branches.reverse (some otherwise.value), u, by omega⟩
  | ⟨.keyword .endWord, _⟩ :: t =>
    have : body.rest.length = t.length + 1 := by simp [hb]
    return ⟨.cond loc branches.reverse none, t, by omega⟩
  | t => .error (.wordExpected (peek ctx t) Keyword.endWord.text)
termination_by (s.length, 10)

/-- The entries of an object up to the closing brace; `taken` holds those before, last first. -/
def parseEntries (whole : List Token) (ctx : Context) (depth : Nat)
    (taken : List (Filter × Filter)) (s : List Token) (h : s.length ≤ whole.length) :
    Parsing (List (Filter × Filter)) whole := do
  let entry ← parseEntry ctx depth s
  have := entry.shorter
  match hr : entry.rest with
  | ⟨.symbol .comma, _⟩ :: r =>
    have : entry.rest.length = r.length + 1 := by simp [hr]
    parseEntries whole ctx depth (entry.value :: taken) r (by omega)
  | ⟨.symbol .closeBrace, _⟩ :: r =>
    have : entry.rest.length = r.length + 1 := by simp [hr]
    return ⟨(entry.value :: taken).reverse, r, by omega⟩
  | r => .error (.closingBraceExpected (peek ctx r))
termination_by (s.length, 10)

/-- One entry of an object: `$name`, `key`, `key: value` or `(filter): value`. -/
def parseEntry (ctx : Context) (depth : Nat) (s : List Token) : Parsing (Filter × Filter) s :=
  match s with
  | [] => .error (.unexpectedEnd ctx.finish)
  | ⟨.binding name, loc⟩ :: r => do
    let v ← variableNode ctx ⟨.binding name, loc⟩ name
    return ⟨(.key loc name, v), r, Front.tail_lt _⟩
  | ⟨.symbol .openParen, _⟩ :: r => do
    let key ← parsePipe ctx depth r
    have := key.shorter
    let ⟨t, ht⟩ ← expectParen ctx key.rest
    let ⟨u, hu⟩ ← expectSymbol ctx .colon t
    let v ← parseEntryValue ctx depth u
    return ⟨(key.value, v.value), v.rest, by
      have := v.shorter
      simp only [List.length_cons]
      omega⟩
  | ⟨.finish, loc⟩ :: _ => .error (.unexpectedEnd ⟨.finish, loc⟩)
  | ⟨kind, loc⟩ :: r =>
    match keyWord? kind with
    | none => .error (.unexpected ⟨kind, loc⟩)
    | some word =>
      match r with
      | ⟨.symbol .colon, _⟩ :: t => do
        let v ← parseEntryValue ctx depth t
        return ⟨(.key loc word, v.value), v.rest, by
          have := v.shorter
          simp only [List.length_cons]
          omega⟩
      | r =>
        return ⟨(.key loc word, .index loc (.identity loc) (.key loc word)), r,
          Front.tail_lt _⟩
termination_by (s.length, 9)

/-- The value of an entry: `alternative ("|" alternative)*`, which ends at a comma. -/
def parseEntryValue (ctx : Context) (depth : Nat) (s : List Token) : Parsing Filter s := do
  let first ← parseAlternative ctx depth s
  have := first.shorter
  parseEntryPipes s ctx depth first.value first.rest first.shorter
termination_by (s.length, 8)

/-- The stages of an entry's value after the first; each takes a level more. -/
def parseEntryPipes (whole : List Token) (ctx : Context) (depth : Nat) (left : Filter)
    (s : List Token) (h : s.length < whole.length) : Parsing Filter whole :=
  match s with
  | ⟨.symbol .pipe, loc⟩ :: r => do
    checkDepth ctx depth r
    let right ← parseAlternative ctx (depth + 1) r
    have := right.shorter
    parseEntryPipes whole ctx (depth + 1) (.pipe loc left right.value) right.rest
      (by simp only [List.length_cons] at h; omega)
  | s => return ⟨left, s, h⟩
termination_by (s.length, 0)

end

/-- The token that stands for the end of some tokens. -/
def finishOf (tokens : List Token) : Token :=
  match tokens.getLast? with
  | some t => if t.isFinish then t else ⟨.finish, default⟩
  | none => ⟨.finish, default⟩

end Parser

open JsonFilter.Filter.Parser in
/-- The filter of some tokens, with variables of these names in scope. No token but the end stands
for `.`. -/
def ofTokens (globals : List String) (tokens : List Token) : Except Parser.Error Filter := do
  let ctx : Context := ⟨globals, finishOf tokens⟩
  let first := peek ctx tokens
  if first.isFinish then return .identity first.range
  let filter ← parsePipe ctx 0 tokens
  let next := peek ctx filter.rest
  if next.isFinish then return filter.value else .error (.unexpected next)

end JsonFilter.Filter
