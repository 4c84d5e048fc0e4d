import JsonFilter.Filter.Parser

/-!
The grammar of filters as a relation. `Derives fits scope depth part s r` says that the tokens `s`
begin with a part of a filter, that `r` is what follows it, and which filter the part is. A part is
taken as long as possible, so every rule that may stop says which token does not come next.

The levels of nesting are those of the parser, and `fits` says which of them may be gone beyond:
`(· < maxDepth)` gives the derivations within the limit, and `fun _ => True` all of them.
-/

namespace JsonFilter.Filter.Parser

/-- The kind of the next token. -/
def nextKind? (s : List Token) : Option Token.Kind := s.head?.map Token.kind

/-- The operator that comes next. -/
def nextOperator? (s : List Token) : Option Operator := (nextKind? s).bind Operator.ofKind?

/-- The level that the left operand of an operator has at least: that of the operator, and one more
for a comparison, whose operands are no comparisons. -/
def Operator.leftLevel (op : Operator) : Nat := if op.isComparison then op.level + 1 else op.level

theorem Operator.leftLevel_of_not_isComparison {op : Operator} (h : op.isComparison = false) :
    op.leftLevel = op.level := by
  rw [leftLevel, h]
  rfl

theorem Operator.level_le_leftLevel (op : Operator) : op.level ≤ op.leftLevel := by
  unfold leftLevel
  split
  · exact Nat.le_succ _
  · exact Nat.le_refl _

/-- The level of an operand that no operator joins. -/
def topLevel : Nat := 6

theorem Operator.level_lt_topLevel (op : Operator) : op.level < topLevel := by
  rcases op with _ | _ | ⟨op⟩
  · decide
  · decide
  · cases op <;> decide

theorem Operator.leftLevel_le_topLevel (op : Operator) : op.leftLevel ≤ topLevel := by
  have hlevel := op.level_lt_topLevel
  unfold leftLevel
  split
  · exact hlevel
  · exact Nat.le_of_lt hlevel

/-- Whether a term goes on with a token of this kind. -/
def opensSuffix : Token.Kind → Bool
  | .field _ => true
  | .symbol .dot => true
  | .symbol .openBracket => true
  | .symbol .question => true
  | .keyword .asWord => true
  | _ => false

@[simp] theorem nextKind?_nil : nextKind? [] = none := rfl

@[simp] theorem nextKind?_cons (t : Token) (s : List Token) : nextKind? (t :: s) = some t.kind := rfl

@[simp] theorem nextOperator?_nil : nextOperator? [] = none := rfl

@[simp] theorem nextOperator?_cons (t : Token) (s : List Token) :
    nextOperator? (t :: s) = Operator.ofKind? t.kind := rfl

/-- What is derived from tokens: a filter by one of the levels of the grammar, or what a chain that
was begun before makes of its left operand. -/
inductive Part where
  | pipe (f : Filter)
  | comma (f : Filter)
  | commaTail (left f : Filter)
  | alternative (f : Filter)
  | operators (least : Nat) (compared : Bool) (left f : Filter)
  | operation (op : Operator) (loc : Range) (left f : Filter)
  | tighter (level : Nat) (left f : Filter)
  | unary (f : Filter)
  | term (f : Filter)
  | suffixes (base : Nat) (left f : Filter)
  | binding (source : Filter) (loc : Range) (f : Filter)
  | bracket (target : Filter) (loc : Range) (f : Filter)
  | primary (f : Filter)
  | args (fs : List Filter)
  | branches (bs : List (Filter × Filter)) (otherwise : Option Filter)
  | entries (es : List (Filter × Filter))
  | entry (key value : Filter)
  | entryValue (f : Filter)
  | entryPipes (left f : Filter)

/-- The kinds of token that are a filter by themselves, with that filter. -/
def literal? : Token.Kind → Option Literal
  | .number n => some (.number n)
  | .string s => some (.string s)
  | .keyword .trueWord => some (.bool true)
  | .keyword .falseWord => some (.bool false)
  | .keyword .nullWord => some .null
  | _ => none

theorem isFinish_of_ofKind? {t : Token} {op : Operator} (h : Operator.ofKind? t.kind = some op) :
    t.isFinish = false := by
  obtain ⟨kind, loc⟩ := t
  cases kind with
  | finish => cases h
  | _ => rfl

theorem isFinish_of_literal? {kind : Token.Kind} {l : Literal} {loc : Range}
    (h : literal? kind = some l) : (⟨kind, loc⟩ : Token).isFinish = false := by
  cases kind with
  | finish => cases h
  | _ => rfl

theorem isFinish_of_keyWord? {kind : Token.Kind} {word : String} {loc : Range}
    (h : keyWord? kind = some word) : (⟨kind, loc⟩ : Token).isFinish = false := by
  cases kind with
  | finish => cases h
  | _ => rfl

/-- The rules of the grammar. -/
inductive Derives (fits : Nat → Prop) :
    (scope : List String) → (depth : Nat) → Part → (s r : List Token) → Prop where
  -- Pipes and commas
  | pipe_last {scope d f s r} : fits d → Derives fits scope (d + 1) (.comma f) s r →
      nextKind? r ≠ some (.symbol .pipe) → Derives fits scope d (.pipe f) s r
  | pipe_more {scope d f g loc s r u} : fits d →
      Derives fits scope (d + 1) (.comma f) s (⟨.symbol .pipe, loc⟩ :: r) →
      Derives fits scope (d + 1) (.pipe g) r u → Derives fits scope d (.pipe (.pipe loc f g)) s u
  | comma {scope d f g s r u} : Derives fits scope d (.alternative f) s r →
      Derives fits scope d (.commaTail f g) r u → Derives fits scope d (.comma g) s u
  | commaTail_nil {scope d f s} : nextKind? s ≠ some (.symbol .comma) →
      Derives fits scope d (.commaTail f f) s s
  | commaTail_cons {scope d f g h loc s r u} : fits d →
      Derives fits scope (d + 1) (.alternative g) s r →
      Derives fits scope (d + 1) (.commaTail (.comma loc f g) h) r u →
      Derives fits scope d (.commaTail f h) (⟨.symbol .comma, loc⟩ :: s) u
  -- Operators
  | alternative_last {scope d f g s r u} : Derives fits scope d (.unary f) s r →
      Derives fits scope d (.operators 1 false f g) r u →
      nextKind? u ≠ some (.symbol .alternative) → Derives fits scope d (.alternative g) s u
  | alternative_more {scope d f g h loc s r t u} : Derives fits scope d (.unary f) s r →
      Derives fits scope d (.operators 1 false f g) r (⟨.symbol .alternative, loc⟩ :: t) →
      fits d → Derives fits scope (d + 1) (.alternative h) t u →
      Derives fits scope d (.alternative (.alternative loc g h)) s u
  | operators_nil {scope d least compared f s} :
      (∀ op, nextOperator? s = some op → op.level < least) →
      Derives fits scope d (.operators least compared f f) s s
  | operators_cons {scope d least compared f g h op t s r u} :
      Operator.ofKind? t.kind = some op → least ≤ op.level →
      (op.isComparison && compared) = false →
      Derives fits scope d (.operation op t.range f g) s r →
      Derives fits scope (d + 1) (.operators least op.isComparison g h) r u →
      Derives fits scope d (.operators least compared f h) (t :: s) u
  | operation {scope d op loc f g h s r u} : fits d →
      Derives fits scope (d + 1) (.unary g) s r →
      Derives fits scope (d + 1) (.tighter op.level g h) r u →
      Derives fits scope d (.operation op loc f (op.apply loc f h)) s u
  | tighter_nil {scope d level f s} : (∀ op, nextOperator? s = some op → op.level ≤ level) →
      Derives fits scope d (.tighter level f f) s s
  | tighter_cons {scope d level f g h k op t s r u w} :
      Operator.ofKind? t.kind = some op → level < op.level →
      Derives fits scope d (.operation op t.range f g) s r →
      Derives fits scope (d + 1) (.operators op.level op.isComparison g h) r u →
      Derives fits scope d (.tighter level h k) u w →
      Derives fits scope d (.tighter level f k) (t :: s) w
  | unary_minus {scope d f loc s r} : fits d → Derives fits scope (d + 1) (.unary f) s r →
      Derives fits scope d (.unary (.negate loc f)) (⟨.symbol .minus, loc⟩ :: s) r
  | unary_term {scope d f s r} : nextKind? s ≠ some (.symbol .minus) →
      Derives fits scope d (.term f) s r → Derives fits scope d (.unary f) s r
  -- Suffixes
  | term {scope d f g s r u} : Derives fits scope d (.primary f) s r →
      Derives fits scope d (.suffixes d f g) r u → Derives fits scope d (.term g) s u
  | suffixes_nil {scope d base f s} : (∀ k, nextKind? s = some k → opensSuffix k = false) →
      Derives fits scope d (.suffixes base f f) s s
  | suffixes_field {scope d base f g name loc s r} : fits d →
      Derives fits scope (d + 1) (.suffixes base (.index loc f (.key loc name)) g) s r →
      Derives fits scope d (.suffixes base f g) (⟨.field name, loc⟩ :: s) r
  | suffixes_string {scope d base f g name loc keyLoc s r} : fits d →
      Derives fits scope (d + 1) (.suffixes base (.index loc f (.key keyLoc name)) g) s r →
      Derives fits scope d (.suffixes base f g)
        (⟨.symbol .dot, loc⟩ :: ⟨.string name, keyLoc⟩ :: s) r
  | suffixes_dotBracket {scope d base f g h loc bracket s r u} : fits d →
      Derives fits scope (d + 1) (.bracket f bracket g) s r →
      Derives fits scope (d + 1) (.suffixes base g h) r u →
      Derives fits scope d (.suffixes base f h)
        (⟨.symbol .dot, loc⟩ :: ⟨.symbol .openBracket, bracket⟩ :: s) u
  | suffixes_bracket {scope d base f g h bracket s r u} : fits d →
      Derives fits scope (d + 1) (.bracket f bracket g) s r →
      Derives fits scope (d + 1) (.suffixes base g h) r u →
      Derives fits scope d (.suffixes base f h) (⟨.symbol .openBracket, bracket⟩ :: s) u
  | suffixes_question {scope d base f g loc s r} : fits d →
      Derives fits scope (d + 1) (.suffixes base (.attempt loc f none) g) s r →
      Derives fits scope d (.suffixes base f g) (⟨.symbol .question, loc⟩ :: s) r
  | suffixes_binding {scope d base f g loc s r} :
      Derives fits scope base (.binding f loc g) s r →
      Derives fits scope d (.suffixes base f g) (⟨.keyword .asWord, loc⟩ :: s) r
  | binding {scope d f g name loc nameLoc pipeLoc s r} :
      Derives fits (name :: scope) d (.pipe g) s r →
      Derives fits scope d (.binding f loc (.bind loc f name g))
        (⟨.binding name, nameLoc⟩ :: ⟨.symbol .pipe, pipeLoc⟩ :: s) r
  | bracket_iterate {scope d f loc close s} :
      Derives fits scope d (.bracket f loc (.iterate loc f)) (⟨.symbol .closeBracket, close⟩ :: s) s
  | bracket_high {scope d f g loc colon close s r} :
      Derives fits scope d (.pipe g) s (⟨.symbol .closeBracket, close⟩ :: r) →
      Derives fits scope d (.bracket f loc (.slice loc f none (some g)))
        (⟨.symbol .colon, colon⟩ :: s) r
  | bracket_key {scope d f g loc close s r} : nextKind? s ≠ some (.symbol .closeBracket) →
      nextKind? s ≠ some (.symbol .colon) →
      Derives fits scope d (.pipe g) s (⟨.symbol .closeBracket, close⟩ :: r) →
      Derives fits scope d (.bracket f loc (.index loc f g)) s r
  | bracket_low {scope d f g loc colon close s r} : nextKind? s ≠ some (.symbol .closeBracket) →
      nextKind? s ≠ some (.symbol .colon) →
      Derives fits scope d (.pipe g) s
        (⟨.symbol .colon, colon⟩ :: ⟨.symbol .closeBracket, close⟩ :: r) →
      Derives fits scope d (.bracket f loc (.slice loc f (some g) none)) s r
  | bracket_both {scope d f g h loc colon close s r u} :
      nextKind? s ≠ some (.symbol .closeBracket) → nextKind? s ≠ some (.symbol .colon) →
      Derives fits scope d (.pipe g) s (⟨.symbol .colon, colon⟩ :: r) →
      nextKind? r ≠ some (.symbol .closeBracket) →
      Derives fits scope d (.pipe h) r (⟨.symbol .closeBracket, close⟩ :: u) →
      Derives fits scope d (.bracket f loc (.slice loc f (some g) (some h))) s u
  -- Filters that no operator joins
  | primary_string {scope d name loc keyLoc s} :
      Derives fits scope d (.primary (.index loc (.identity loc) (.key keyLoc name)))
        (⟨.symbol .dot, loc⟩ :: ⟨.string name, keyLoc⟩ :: s) s
  | primary_identity {scope d loc s} : (∀ name, nextKind? s ≠ some (.string name)) →
      Derives fits scope d (.primary (.identity loc)) (⟨.symbol .dot, loc⟩ :: s) s
  | primary_recurse {scope d loc s} :
      Derives fits scope d (.primary (.recurse loc)) (⟨.symbol .dotDot, loc⟩ :: s) s
  | primary_field {scope d name loc s} :
      Derives fits scope d (.primary (.index loc (.identity loc) (.key loc name)))
        (⟨.field name, loc⟩ :: s) s
  | primary_literal {scope d kind l loc s} : literal? kind = some l →
      Derives fits scope d (.primary (.literal loc l)) (⟨kind, loc⟩ :: s) s
  | primary_var {scope d name loc s} : name ∈ scope →
      Derives fits scope d (.primary (.var loc name)) (⟨.binding name, loc⟩ :: s) s
  | primary_paren {scope d f openLoc close s r} :
      Derives fits scope d (.pipe f) s (⟨.symbol .closeParen, close⟩ :: r) →
      Derives fits scope d (.primary f) (⟨.symbol .openParen, openLoc⟩ :: s) r
  | primary_emptyArray {scope d loc close s} :
      Derives fits scope d (.primary (.array loc none))
        (⟨.symbol .openBracket, loc⟩ :: ⟨.symbol .closeBracket, close⟩ :: s) s
  | primary_array {scope d f loc close s r} : nextKind? s ≠ some (.symbol .closeBracket) →
      Derives fits scope d (.pipe f) s (⟨.symbol .closeBracket, close⟩ :: r) →
      Derives fits scope d (.primary (.array loc (some f))) (⟨.symbol .openBracket, loc⟩ :: s) r
  | primary_emptyObject {scope d loc close s} :
      Derives fits scope d (.primary (.object loc []))
        (⟨.symbol .openBrace, loc⟩ :: ⟨.symbol .closeBrace, close⟩ :: s) s
  | primary_object {scope d es loc s r} : nextKind? s ≠ some (.symbol .closeBrace) →
      Derives fits scope d (.entries es) s r →
      Derives fits scope d (.primary (.object loc es)) (⟨.symbol .openBrace, loc⟩ :: s) r
  | primary_cond {scope d bs otherwise loc s r} : Derives fits scope d (.branches bs otherwise) s r →
      Derives fits scope d (.primary (.cond loc bs otherwise)) (⟨.keyword .ifWord, loc⟩ :: s) r
  | primary_try {scope d f loc s r} : fits d → Derives fits scope (d + 1) (.term f) s r →
      nextKind? r ≠ some (.keyword .catchWord) →
      Derives fits scope d (.primary (.attempt loc f none)) (⟨.keyword .tryWord, loc⟩ :: s) r
  | primary_tryCatch {scope d f g loc catchLoc s r u} : fits d →
      Derives fits scope (d + 1) (.term f) s (⟨.keyword .catchWord, catchLoc⟩ :: r) →
      Derives fits scope (d + 1) (.term g) r u →
      Derives fits scope d (.primary (.attempt loc f (some g))) (⟨.keyword .tryWord, loc⟩ :: s) u
  | primary_call {scope d name b fs loc openLoc s r} : Derives fits scope d (.args fs) s r →
      Builtin.find? name fs.length = some b →
      Derives fits scope d (.primary (.call loc b fs))
        (⟨.name name, loc⟩ :: ⟨.symbol .openParen, openLoc⟩ :: s) r
  | primary_name {scope d name b loc s} : nextKind? s ≠ some (.symbol .openParen) →
      Builtin.find? name 0 = some b →
      Derives fits scope d (.primary (.call loc b [])) (⟨.name name, loc⟩ :: s) s
  -- Lists of parts
  | args_last {scope d f close s r} :
      Derives fits scope d (.pipe f) s (⟨.symbol .closeParen, close⟩ :: r) →
      Derives fits scope d (.args [f]) s r
  | args_more {scope d f fs semicolon s r u} :
      Derives fits scope d (.pipe f) s (⟨.symbol .semicolon, semicolon⟩ :: r) →
      Derives fits scope d (.args fs) r u → Derives fits scope d (.args (f :: fs)) s u
  | branches_end {scope d f g thenLoc endLoc s r u} :
      Derives fits scope d (.pipe f) s (⟨.keyword .thenWord, thenLoc⟩ :: r) →
      Derives fits scope d (.pipe g) r (⟨.keyword .endWord, endLoc⟩ :: u) →
      Derives fits scope d (.branches [(f, g)] none) s u
  | branches_else {scope d f g h thenLoc elseLoc endLoc s r t u} :
      Derives fits scope d (.pipe f) s (⟨.keyword .thenWord, thenLoc⟩ :: r) →
      Derives fits scope d (.pipe g) r (⟨.keyword .elseWord, elseLoc⟩ :: t) →
      Derives fits scope d (.pipe h) t (⟨.keyword .endWord, endLoc⟩ :: u) →
      Derives fits scope d (.branches [(f, g)] (some h)) s u
  | branches_more {scope d f g bs otherwise thenLoc elifLoc s r t u} :
      Derives fits scope d (.pipe f) s (⟨.keyword .thenWord, thenLoc⟩ :: r) →
      Derives fits scope d (.pipe g) r (⟨.keyword .elifWord, elifLoc⟩ :: t) →
      Derives fits scope d (.branches bs otherwise) t u →
      Derives fits scope d (.branches ((f, g) :: bs) otherwise) s u
  | entries_last {scope d k v close s r} :
      Derives fits scope d (.entry k v) s (⟨.symbol .closeBrace, close⟩ :: r) →
      Derives fits scope d (.entries [(k, v)]) s r
  | entries_more {scope d k v es loc s r u} :
      Derives fits scope d (.entry k v) s (⟨.symbol .comma, loc⟩ :: r) →
      Derives fits scope d (.entries es) r u → Derives fits scope d (.entries ((k, v) :: es)) s u
  -- Entries
  | entry_var {scope d name loc s} : name ∈ scope →
      Derives fits scope d (.entry (.key loc name) (.var loc name)) (⟨.binding name, loc⟩ :: s) s
  | entry_computed {scope d k v openLoc close colon s r u} :
      Derives fits scope d (.pipe k) s
        (⟨.symbol .closeParen, close⟩ :: ⟨.symbol .colon, colon⟩ :: r) →
      Derives fits scope d (.entryValue v) r u →
      Derives fits scope d (.entry k v) (⟨.symbol .openParen, openLoc⟩ :: s) u
  | entry_keyed {scope d kind word v loc colon s r} : keyWord? kind = some word →
      Derives fits scope d (.entryValue v) s r →
      Derives fits scope d (.entry (.key loc word) v) (⟨kind, loc⟩ :: ⟨.symbol .colon, colon⟩ :: s) r
  | entry_short {scope d kind word loc s} : keyWord? kind = some word →
      nextKind? s ≠ some (.symbol .colon) →
      Derives fits scope d
        (.entry (.key loc word) (.index loc (.identity loc) (.key loc word))) (⟨kind, loc⟩ :: s) s
  | entryValue {scope d f g s r u} : Derives fits scope d (.alternative f) s r →
      Derives fits scope d (.entryPipes f g) r u → Derives fits scope d (.entryValue g) s u
  | entryPipes_nil {scope d f s} : nextKind? s ≠ some (.symbol .pipe) →
      Derives fits scope d (.entryPipes f f) s s
  | entryPipes_cons {scope d f g h loc s r u} : fits d →
      Derives fits scope (d + 1) (.alternative g) s r →
      Derives fits scope (d + 1) (.entryPipes (.pipe loc f g) h) r u →
      Derives fits scope d (.entryPipes f h) (⟨.symbol .pipe, loc⟩ :: s) u

end JsonFilter.Filter.Parser
