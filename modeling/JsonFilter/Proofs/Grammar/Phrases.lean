import JsonFilter.Proofs.Grammar.Sound

/-!
The grammar of filters as it is written down, and that the parser keeps to it. `Phrase.Derived p s`
says that the rules derive the phrase `p` from exactly the tokens `s`. Nothing is said of what
follows, of levels of nesting or of names in scope: a rule only puts the tokens of its parts one
after the other and names the filter that they make.

The parser does not build its chains of operators the way the rules nest them. What it holds at
each step is a left operand that the rules derive at some level, and the next operator is never one
that such an operand is too loose for (`Ready`). With that, every filter of some tokens is the one
of a derivation from all tokens before the end (`derived_of_ofTokens`).
-/

namespace JsonFilter.Filter.Parser

/-- A nonterminal of the grammar with the filter that it stands for. -/
inductive Phrase where
  | pipe (f : Filter)
  | comma (f : Filter)
  | alternative (f : Filter)
  /-- Operands joined by operators of at least a level. -/
  | operation (level : Nat) (f : Filter)
  | unary (f : Filter)
  | term (f : Filter)
  /-- A primary filter with any number of suffixes. -/
  | suffixed (f : Filter)
  | suffix (target f : Filter)
  /-- What follows the opening bracket of a suffix. -/
  | bracket (target : Filter) (loc : Range) (f : Filter)
  | primary (f : Filter)
  | args (fs : List Filter)
  | branches (bs : List (Filter × Filter))
  /-- What follows the branches of a condition. -/
  | otherwise (f : Option Filter)
  | entries (es : List (Filter × Filter))
  | entry (key value : Filter)
  | entryValue (f : Filter)

/-- The rules of the grammar. -/
inductive Phrase.Derived : Phrase → List Token → Prop where
  -- `pipe ::= comma ["|" pipe]`
  | pipe_last {f s} : Derived (.comma f) s → Derived (.pipe f) s
  | pipe {f g loc s t} : Derived (.comma f) s → Derived (.pipe g) t →
      Derived (.pipe (.pipe loc f g)) (s ++ ⟨.symbol .pipe, loc⟩ :: t)
  -- `comma ::= alternative {"," alternative}`
  | comma_first {f s} : Derived (.alternative f) s → Derived (.comma f) s
  | comma {f g loc s t} : Derived (.comma f) s → Derived (.alternative g) t →
      Derived (.comma (.comma loc f g)) (s ++ ⟨.symbol .comma, loc⟩ :: t)
  -- `alternative ::= operation ["//" alternative]`
  | alternative_last {f s} : Derived (.operation 1 f) s → Derived (.alternative f) s
  | alternative {f g loc s t} : Derived (.operation 1 f) s → Derived (.alternative g) t →
      Derived (.alternative (.alternative loc f g)) (s ++ ⟨.symbol .alternative, loc⟩ :: t)
  -- Operators of rising level, which nest to the left; comparisons do not nest
  | operand {level f s} : Derived (.unary f) s → Derived (.operation level f) s
  | operation {level f g op t s u} : Operator.ofKind? t.kind = some op → level ≤ op.level →
      Derived (.operation op.leftLevel f) s → Derived (.operation (op.level + 1) g) u →
      Derived (.operation level (op.apply t.range f g)) (s ++ t :: u)
  -- `unary ::= "-" unary | term`
  | negate {f loc s} : Derived (.unary f) s →
      Derived (.unary (.negate loc f)) (⟨.symbol .minus, loc⟩ :: s)
  | unary_term {f s} : Derived (.term f) s → Derived (.unary f) s
  -- `term ::= primary {suffix} ["as" $name "|" pipe]`
  | term {f s} : Derived (.suffixed f) s → Derived (.term f) s
  | bind {f g name loc nameLoc pipeLoc s t} : Derived (.suffixed f) s → Derived (.pipe g) t →
      Derived (.term (.bind loc f name g))
        (s ++ ⟨.keyword .asWord, loc⟩ :: ⟨.binding name, nameLoc⟩ :: ⟨.symbol .pipe, pipeLoc⟩ :: t)
  | suffixed_primary {f s} : Derived (.primary f) s → Derived (.suffixed f) s
  | suffixed {f g s t} : Derived (.suffixed f) s → Derived (.suffix f g) t →
      Derived (.suffixed g) (s ++ t)
  -- `suffix ::= .name | "." string | ["."] "[" bracket | "?"`
  | suffix_field {f name loc} :
      Derived (.suffix f (.index loc f (.key loc name))) [⟨.field name, loc⟩]
  | suffix_string {f name loc keyLoc} : Derived (.suffix f (.index loc f (.key keyLoc name)))
      [⟨.symbol .dot, loc⟩, ⟨.string name, keyLoc⟩]
  | suffix_bracket {f g loc s} : Derived (.bracket f loc g) s →
      Derived (.suffix f g) (⟨.symbol .openBracket, loc⟩ :: s)
  | suffix_dotBracket {f g dot loc s} : Derived (.bracket f loc g) s →
      Derived (.suffix f g) (⟨.symbol .dot, dot⟩ :: ⟨.symbol .openBracket, loc⟩ :: s)
  | suffix_question {f loc} :
      Derived (.suffix f (.attempt loc f none)) [⟨.symbol .question, loc⟩]
  -- `bracket ::= "]" | pipe "]" | pipe ":" "]" | ":" pipe "]" | pipe ":" pipe "]"`
  | bracket_iterate {f loc close} :
      Derived (.bracket f loc (.iterate loc f)) [⟨.symbol .closeBracket, close⟩]
  | bracket_key {f g loc close s} : Derived (.pipe g) s →
      Derived (.bracket f loc (.index loc f g)) (s ++ [⟨.symbol .closeBracket, close⟩])
  | bracket_low {f g loc colon close s} : Derived (.pipe g) s →
      Derived (.bracket f loc (.slice loc f (some g) none))
        (s ++ [⟨.symbol .colon, colon⟩, ⟨.symbol .closeBracket, close⟩])
  | bracket_high {f g loc colon close s} : Derived (.pipe g) s →
      Derived (.bracket f loc (.slice loc f none (some g)))
        (⟨.symbol .colon, colon⟩ :: (s ++ [⟨.symbol .closeBracket, close⟩]))
  | bracket_both {f g h loc colon close s t} : Derived (.pipe g) s → Derived (.pipe h) t →
      Derived (.bracket f loc (.slice loc f (some g) (some h)))
        (s ++ ⟨.symbol .colon, colon⟩ :: (t ++ [⟨.symbol .closeBracket, close⟩]))
  -- Filters that no operator joins
  | identity {loc} : Derived (.primary (.identity loc)) [⟨.symbol .dot, loc⟩]
  | string {name loc keyLoc} : Derived (.primary (.index loc (.identity loc) (.key keyLoc name)))
      [⟨.symbol .dot, loc⟩, ⟨.string name, keyLoc⟩]
  | recurse {loc} : Derived (.primary (.recurse loc)) [⟨.symbol .dotDot, loc⟩]
  | field {name loc} :
      Derived (.primary (.index loc (.identity loc) (.key loc name))) [⟨.field name, loc⟩]
  | literal {kind l loc} : literal? kind = some l →
      Derived (.primary (.literal loc l)) [⟨kind, loc⟩]
  | var {name loc} : Derived (.primary (.var loc name)) [⟨.binding name, loc⟩]
  | paren {f openLoc close s} : Derived (.pipe f) s →
      Derived (.primary f)
        (⟨.symbol .openParen, openLoc⟩ :: (s ++ [⟨.symbol .closeParen, close⟩]))
  | emptyArray {loc close} : Derived (.primary (.array loc none))
      [⟨.symbol .openBracket, loc⟩, ⟨.symbol .closeBracket, close⟩]
  | array {f loc close s} : Derived (.pipe f) s →
      Derived (.primary (.array loc (some f)))
        (⟨.symbol .openBracket, loc⟩ :: (s ++ [⟨.symbol .closeBracket, close⟩]))
  | emptyObject {loc close} : Derived (.primary (.object loc []))
      [⟨.symbol .openBrace, loc⟩, ⟨.symbol .closeBrace, close⟩]
  | object {es loc close s} : Derived (.entries es) s →
      Derived (.primary (.object loc es))
        (⟨.symbol .openBrace, loc⟩ :: (s ++ [⟨.symbol .closeBrace, close⟩]))
  | cond {bs f loc s t} : Derived (.branches bs) s → Derived (.otherwise f) t →
      Derived (.primary (.cond loc bs f)) (⟨.keyword .ifWord, loc⟩ :: (s ++ t))
  | attempt {f loc s} : Derived (.term f) s →
      Derived (.primary (.attempt loc f none)) (⟨.keyword .tryWord, loc⟩ :: s)
  | attemptCatch {f g loc catchLoc s t} : Derived (.term f) s → Derived (.term g) t →
      Derived (.primary (.attempt loc f (some g)))
        (⟨.keyword .tryWord, loc⟩ :: (s ++ ⟨.keyword .catchWord, catchLoc⟩ :: t))
  | name {name b loc} : Builtin.find? name 0 = some b →
      Derived (.primary (.call loc b [])) [⟨.name name, loc⟩]
  | call {name b fs loc openLoc close s} : Derived (.args fs) s →
      Builtin.find? name fs.length = some b →
      Derived (.primary (.call loc b fs))
        (⟨.name name, loc⟩ :: ⟨.symbol .openParen, openLoc⟩ ::
          (s ++ [⟨.symbol .closeParen, close⟩]))
  -- `args ::= pipe {";" pipe}`
  | args_last {f s} : Derived (.pipe f) s → Derived (.args [f]) s
  | args {f fs semicolon s t} : Derived (.pipe f) s → Derived (.args fs) t →
      Derived (.args (f :: fs)) (s ++ ⟨.symbol .semicolon, semicolon⟩ :: t)
  -- `branches ::= pipe "then" pipe {"elif" pipe "then" pipe}`
  | branches_last {f g thenLoc s t} : Derived (.pipe f) s → Derived (.pipe g) t →
      Derived (.branches [(f, g)]) (s ++ ⟨.keyword .thenWord, thenLoc⟩ :: t)
  | branches {f g bs thenLoc elifLoc s t u} : Derived (.pipe f) s → Derived (.pipe g) t →
      Derived (.branches bs) u →
      Derived (.branches ((f, g) :: bs))
        (s ++ ⟨.keyword .thenWord, thenLoc⟩ :: (t ++ ⟨.keyword .elifWord, elifLoc⟩ :: u))
  -- `otherwise ::= ["else" pipe] "end"`
  | otherwise_none {endLoc} : Derived (.otherwise none) [⟨.keyword .endWord, endLoc⟩]
  | otherwise {f elseLoc endLoc s} : Derived (.pipe f) s →
      Derived (.otherwise (some f))
        (⟨.keyword .elseWord, elseLoc⟩ :: (s ++ [⟨.keyword .endWord, endLoc⟩]))
  -- `entries ::= entry {"," entry}`
  | entries_last {k v s} : Derived (.entry k v) s → Derived (.entries [(k, v)]) s
  | entries {k v es loc s t} : Derived (.entry k v) s → Derived (.entries es) t →
      Derived (.entries ((k, v) :: es)) (s ++ ⟨.symbol .comma, loc⟩ :: t)
  -- `entry ::= $name | key [":" entryValue] | "(" pipe ")" ":" entryValue`
  | entry_var {name loc} :
      Derived (.entry (.key loc name) (.var loc name)) [⟨.binding name, loc⟩]
  | entry_short {kind word loc} : keyWord? kind = some word →
      Derived (.entry (.key loc word) (.index loc (.identity loc) (.key loc word))) [⟨kind, loc⟩]
  | entry_keyed {kind word v loc colon s} : keyWord? kind = some word →
      Derived (.entryValue v) s →
      Derived (.entry (.key loc word) v) (⟨kind, loc⟩ :: ⟨.symbol .colon, colon⟩ :: s)
  | entry_computed {k v openLoc close colon s t} : Derived (.pipe k) s →
      Derived (.entryValue v) t →
      Derived (.entry k v)
        (⟨.symbol .openParen, openLoc⟩ ::
          (s ++ ⟨.symbol .closeParen, close⟩ :: ⟨.symbol .colon, colon⟩ :: t))
  -- `entryValue ::= alternative {"|" alternative}`
  | entryValue_first {f s} : Derived (.alternative f) s → Derived (.entryValue f) s
  | entryValue {f g loc s t} : Derived (.entryValue f) s → Derived (.alternative g) t →
      Derived (.entryValue (.pipe loc f g)) (s ++ ⟨.symbol .pipe, loc⟩ :: t)

/-- The filters of a whole text: a pipe, or without any tokens the `.` located at the end. -/
inductive Whole (finish : Range) : Filter → List Token → Prop where
  | nothing : Whole finish (.identity finish) []
  | pipe {f s} : Phrase.Derived (.pipe f) s → Whole finish f s

/-! ## Derivations -/

namespace Phrase

variable {f g : Filter} {s t : List Token} {level l : Nat}

/-- Operands joined by tighter operators only are joined by operators of a lower level. -/
theorem Derived.lower (h : Derived (.operation l f) s) (hle : level ≤ l) :
    Derived (.operation level f) s := by
  cases h with
  | operand h => exact .operand h
  | operation hop hl hf hg => exact .operation hop (Nat.le_trans hle hl) hf hg

/-- No rule takes the token that stands for the end. -/
theorem Derived.all_not_isFinish {p : Phrase} (h : Derived p s) :
    s.all fun t => !t.isFinish := by
  induction h with
  | operation hop _ _ _ ihf ihg =>
    simp only [List.all_append, List.all_cons, ihf, ihg, isFinish_of_ofKind? hop, Bool.not_false,
      Bool.and_self]
  | literal hl =>
    simp only [List.all_cons, isFinish_of_literal? hl, Bool.not_false, List.all_nil, Bool.and_self]
  | entry_short hword =>
    simp only [List.all_cons, isFinish_of_keyWord? hword, Bool.not_false, List.all_nil,
      Bool.and_self]
  | entry_keyed hword _ ih =>
    simp only [List.all_cons, ih, isFinish_of_keyWord? hword, Bool.not_false, Bool.and_true,
      Bool.true_and]
    rfl
  -- All other rules take symbols, words and names besides what their parts take.
  | _ => simp_all [Token.isFinish]

end Phrase

/-! ## From the parser's rules to the grammar -/

/-- A left operand that is derived at level `l` serves the next operator, if that may follow at all:
the flag says that a second comparison may not. -/
def Ready (compared : Bool) (l : Nat) (s : List Token) : Prop :=
  ∀ op, nextOperator? s = some op → (op.isComparison && compared) = false → op.leftLevel ≤ l

/-- No operator follows that binds tighter than a level. -/
def Loose (level : Nat) (s : List Token) : Prop :=
  ∀ op, nextOperator? s = some op → op.level ≤ level

open Phrase (Derived)

/-- What the grammar derives from the tokens that a part takes. A part that continues a left operand
takes its tokens after those of the operand. -/
def Part.Covers : Part → (used rest : List Token) → Prop
  | .pipe f, used, _ => Derived (.pipe f) used
  | .comma f, used, _ => Derived (.comma f) used
  | .commaTail left f, used, _ => ∀ t, Derived (.comma left) t → Derived (.comma f) (t ++ used)
  | .alternative f, used, _ => Derived (.alternative f) used
  | .operators least compared left f, used, rest =>
    (∀ op, nextOperator? rest = some op → op.level < least) ∧
      ∀ t l, Derived (.operation l left) t → least ≤ l → Ready compared l (used ++ rest) →
        Derived (.operation least f) (t ++ used)
  | .operation op loc left f, used, rest => Loose op.level rest ∧
      ∀ t tok, Operator.ofKind? tok.kind = some op → tok.range = loc →
        Derived (.operation op.leftLevel left) t → Derived (.operation op.level f) (t ++ tok :: used)
  | .tighter level left f, used, rest => Loose level rest ∧
      ∀ t l, Derived (.operation l left) t → level < l → Ready false l (used ++ rest) →
        Derived (.operation (level + 1) f) (t ++ used)
  | .unary f, used, _ => Derived (.unary f) used
  | .term f, used, _ => Derived (.term f) used
  | .suffixes _ left f, used, _ => ∀ t, Derived (.suffixed left) t → Derived (.term f) (t ++ used)
  | .binding source loc f, used, _ =>
    ∀ t, Derived (.suffixed source) t → Derived (.term f) (t ++ ⟨.keyword .asWord, loc⟩ :: used)
  | .bracket target loc f, used, _ => Derived (.bracket target loc f) used
  | .primary f, used, _ => Derived (.primary f) used
  | .args fs, used, _ =>
    ∃ s close, used = s ++ [⟨.symbol .closeParen, close⟩] ∧ Derived (.args fs) s
  | .branches bs otherwise, used, _ =>
    ∃ s t, used = s ++ t ∧ Derived (.branches bs) s ∧ Derived (.otherwise otherwise) t
  | .entries es, used, _ =>
    ∃ s close, used = s ++ [⟨.symbol .closeBrace, close⟩] ∧ Derived (.entries es) s
  | .entry k v, used, _ => Derived (.entry k v) used
  | .entryValue f, used, _ => Derived (.entryValue f) used
  | .entryPipes left f, used, _ =>
    ∀ t, Derived (.entryValue left) t → Derived (.entryValue f) (t ++ used)

section
variable {compared : Bool} {l : Nat} {op : Operator} {f g : Filter} {s t u : List Token}

/-- An operand that no operator joins serves every operator. -/
theorem Ready.of_top : Ready compared topLevel s := fun op _ _ => op.leftLevel_le_topLevel

/-- An operation serves every operator that is no tighter, but a comparison no comparison. -/
theorem Ready.of_loose (h : Loose op.level s) : Ready op.isComparison op.level s := by
  intro op' hop' hcompared
  have hle : op'.level ≤ op.level := h op' hop'
  cases hcomparison : op'.isComparison with
  | false =>
    rw [Operator.leftLevel_of_not_isComparison hcomparison]
    exact hle
  | true =>
    -- The comparison follows an operation of another level, so one of a higher level.
    rw [hcomparison, Bool.true_and] at hcompared
    have hthree : op'.level = 3 := by simpa [Operator.isComparison] using hcomparison
    have hother : op.level ≠ 3 := by simpa [Operator.isComparison] using hcompared
    rw [Operator.leftLevel, hcomparison, if_pos rfl]
    omega

/-- Below the level of an operation, a comparison may follow. -/
theorem Ready.of_lt (h : ∀ op', nextOperator? s = some op' → op'.level < l) :
    Ready compared l s := by
  intro op hop _
  have hlt : op.level < l := h op hop
  unfold Operator.leftLevel
  split
  · exact hlt
  · exact Nat.le_of_lt hlt

end

/-- What the rules of the parser derive from the front of some tokens, the grammar derives from the
tokens that are taken, by induction on the derivation. -/
theorem Derives.covers {fits : Nat → Prop} {scope : List String} {d : Nat} {part : Part}
    {s r : List Token} (h : Derives fits scope d part s r) :
    ∃ used, s = used ++ r ∧ part.Covers used r := by
  induction h with
  -- Pipes and commas
  | pipe_last _ _ _ ih =>
    obtain ⟨u, rfl, hu⟩ := ih
    exact ⟨u, rfl, .pipe_last hu⟩
  | pipe_more _ _ _ ih ih' =>
    obtain ⟨v, rfl, hv⟩ := ih'
    obtain ⟨u, rfl, hu⟩ := ih
    exact ⟨_, by rw [List.append_assoc]; rfl, .pipe hu hv⟩
  | comma _ _ ih ih' =>
    obtain ⟨v, rfl, hv⟩ := ih'
    obtain ⟨u, rfl, hu⟩ := ih
    exact ⟨u ++ v, by simp, hv u (.comma_first hu)⟩
  | commaTail_nil _ => exact ⟨[], rfl, fun t ht => by simpa using ht⟩
  | commaTail_cons _ _ _ ih ih' =>
    obtain ⟨v, rfl, hv⟩ := ih'
    obtain ⟨u, rfl, hu⟩ := ih
    refine ⟨_, by rw [List.cons_append, List.append_assoc], fun t ht => ?_⟩
    simpa using hv _ (.comma ht hu)
  -- Operators
  | alternative_last _ _ _ ih ih' =>
    obtain ⟨v, rfl, _, hv⟩ := ih'
    obtain ⟨u, rfl, hu⟩ := ih
    exact ⟨u ++ v, by simp, .alternative_last (hv u topLevel (.operand hu) (by decide) .of_top)⟩
  | alternative_more _ _ _ _ ih ih' ih'' =>
    obtain ⟨w, rfl, hw⟩ := ih''
    obtain ⟨v, rfl, _, hv⟩ := ih'
    obtain ⟨u, rfl, hu⟩ := ih
    exact ⟨_, by simp only [List.append_assoc]; rfl,
      .alternative (hv u topLevel (.operand hu) (by decide) .of_top) hw⟩
  | operators_nil hlow =>
    exact ⟨[], rfl, hlow, fun t l ht hle _ => by simpa using ht.lower hle⟩
  | @operators_cons _ _ least compared _ _ _ op tok _ _ _ hop hlevel hcompared _ _ ih ih' =>
    obtain ⟨v, rfl, hlow, hv⟩ := ih'
    obtain ⟨u, rfl, hloose, hu⟩ := ih
    refine ⟨tok :: (u ++ v), by simp, hlow, fun t l ht hle hready => ?_⟩
    have hleft : Derived (.operation op.leftLevel _) t := ht.lower (hready op hop hcompared)
    have hoperation := hu t tok hop rfl hleft
    have hchain := hv _ op.level hoperation hlevel (.of_loose hloose)
    simpa using hchain
  | operation _ _ _ ih ih' =>
    obtain ⟨v, rfl, hloose, hv⟩ := ih'
    obtain ⟨u, rfl, hu⟩ := ih
    refine ⟨u ++ v, by simp, hloose, fun t tok hop hloc hleft => ?_⟩
    have hright := hv u topLevel (.operand hu) (Operator.level_lt_topLevel _) .of_top
    exact hloc ▸ .operation hop (Nat.le_refl _) hleft hright
  | tighter_nil hlow => exact ⟨[], rfl, hlow, fun t l ht hlt _ => by simpa using ht.lower hlt⟩
  | @tighter_cons _ _ level _ _ _ _ op tok _ _ _ _ hop hlevel _ _ _ ih ih' ih'' =>
    obtain ⟨w, rfl, hlow, hw⟩ := ih''
    obtain ⟨v, rfl, hbelow, hv⟩ := ih'
    obtain ⟨u, rfl, hloose, hu⟩ := ih
    refine ⟨tok :: (u ++ (v ++ w)), by simp, hlow, fun t l ht hlt hready => ?_⟩
    have hleft : Derived (.operation op.leftLevel _) t :=
      ht.lower (hready op hop (Bool.and_false _))
    have hoperation := hu t tok hop rfl hleft
    have hchain := hv _ op.level hoperation (Nat.le_refl _) (.of_loose hloose)
    have hrest := hw _ op.level hchain hlevel (.of_lt hbelow)
    simpa using hrest
  | unary_minus _ _ ih =>
    obtain ⟨u, rfl, hu⟩ := ih
    exact ⟨_, rfl, .negate hu⟩
  | unary_term _ _ ih =>
    obtain ⟨u, rfl, hu⟩ := ih
    exact ⟨u, rfl, .unary_term hu⟩
  -- Suffixes
  | term _ _ ih ih' =>
    obtain ⟨v, rfl, hv⟩ := ih'
    obtain ⟨u, rfl, hu⟩ := ih
    exact ⟨u ++ v, by simp, hv u (.suffixed_primary hu)⟩
  | suffixes_nil _ => exact ⟨[], rfl, fun t ht => by simpa using ht.term⟩
  | suffixes_field _ _ ih =>
    obtain ⟨u, rfl, hu⟩ := ih
    refine ⟨_ :: u, rfl, fun t ht => ?_⟩
    simpa using hu _ (.suffixed ht .suffix_field)
  | suffixes_string _ _ ih =>
    obtain ⟨u, rfl, hu⟩ := ih
    refine ⟨_ :: _ :: u, rfl, fun t ht => ?_⟩
    simpa using hu _ (.suffixed ht .suffix_string)
  | suffixes_dotBracket _ _ _ ih ih' =>
    obtain ⟨v, rfl, hv⟩ := ih'
    obtain ⟨u, rfl, hu⟩ := ih
    refine ⟨_ :: _ :: (u ++ v), by simp only [List.cons_append, List.append_assoc]; rfl,
      fun t ht => ?_⟩
    simpa using hv _ (.suffixed ht (.suffix_dotBracket hu))
  | suffixes_bracket _ _ _ ih ih' =>
    obtain ⟨v, rfl, hv⟩ := ih'
    obtain ⟨u, rfl, hu⟩ := ih
    refine ⟨_ :: (u ++ v), by simp only [List.cons_append, List.append_assoc]; rfl,
      fun t ht => ?_⟩
    simpa using hv _ (.suffixed ht (.suffix_bracket hu))
  | suffixes_question _ _ ih =>
    obtain ⟨u, rfl, hu⟩ := ih
    refine ⟨_ :: u, rfl, fun t ht => ?_⟩
    simpa using hu _ (.suffixed ht .suffix_question)
  | suffixes_binding _ ih =>
    obtain ⟨u, rfl, hu⟩ := ih
    exact ⟨_ :: u, rfl, hu⟩
  | binding _ ih =>
    obtain ⟨u, rfl, hu⟩ := ih
    exact ⟨_ :: _ :: u, rfl, fun t ht => .bind ht hu⟩
  | bracket_iterate => exact ⟨[_], rfl, .bracket_iterate⟩
  | bracket_high _ ih =>
    obtain ⟨u, rfl, hu⟩ := ih
    exact ⟨_, by simp only [List.cons_append, List.append_assoc]; rfl, .bracket_high hu⟩
  | bracket_key _ _ _ ih =>
    obtain ⟨u, rfl, hu⟩ := ih
    exact ⟨_, by simp only [List.cons_append, List.append_assoc]; rfl, .bracket_key hu⟩
  | bracket_low _ _ _ ih =>
    obtain ⟨u, rfl, hu⟩ := ih
    exact ⟨_, by simp only [List.cons_append, List.append_assoc]; rfl, .bracket_low hu⟩
  | bracket_both _ _ _ _ _ ih ih' =>
    obtain ⟨v, rfl, hv⟩ := ih'
    obtain ⟨u, rfl, hu⟩ := ih
    exact ⟨_, by simp only [List.cons_append, List.append_assoc]; rfl, .bracket_both hu hv⟩
  -- Filters that no operator joins
  | primary_string => exact ⟨[_, _], rfl, .string⟩
  | primary_identity _ => exact ⟨[_], rfl, .identity⟩
  | primary_recurse => exact ⟨[_], rfl, .recurse⟩
  | primary_field => exact ⟨[_], rfl, .field⟩
  | primary_literal hl => exact ⟨[_], rfl, .literal hl⟩
  | primary_var _ => exact ⟨[_], rfl, .var⟩
  | primary_paren _ ih =>
    obtain ⟨u, rfl, hu⟩ := ih
    exact ⟨_, by simp only [List.cons_append, List.append_assoc]; rfl, .paren hu⟩
  | primary_emptyArray => exact ⟨[_, _], rfl, .emptyArray⟩
  | primary_array _ _ ih =>
    obtain ⟨u, rfl, hu⟩ := ih
    exact ⟨_, by simp only [List.cons_append, List.append_assoc]; rfl, .array hu⟩
  | primary_emptyObject => exact ⟨[_, _], rfl, .emptyObject⟩
  | primary_object _ _ ih =>
    obtain ⟨_, rfl, u, close, rfl, hu⟩ := ih
    exact ⟨_, rfl, .object hu⟩
  | primary_cond _ ih =>
    obtain ⟨_, rfl, u, v, rfl, hu, hv⟩ := ih
    exact ⟨_, rfl, .cond hu hv⟩
  | primary_try _ _ _ ih =>
    obtain ⟨u, rfl, hu⟩ := ih
    exact ⟨_, rfl, .attempt hu⟩
  | primary_tryCatch _ _ _ ih ih' =>
    obtain ⟨v, rfl, hv⟩ := ih'
    obtain ⟨u, rfl, hu⟩ := ih
    exact ⟨_, by simp only [List.cons_append, List.append_assoc]; rfl, .attemptCatch hu hv⟩
  | primary_call _ hb ih =>
    obtain ⟨_, rfl, u, close, rfl, hu⟩ := ih
    exact ⟨_, rfl, .call hu hb⟩
  | primary_name _ hb => exact ⟨[_], rfl, .name hb⟩
  -- Lists of parts: the closing token is the last one that is taken
  | args_last _ ih =>
    obtain ⟨u, rfl, hu⟩ := ih
    exact ⟨_, by simp only [List.cons_append, List.append_assoc]; rfl, u, _, rfl, .args_last hu⟩
  | args_more _ _ ih ih' =>
    obtain ⟨_, rfl, v, close, rfl, hv⟩ := ih'
    obtain ⟨u, rfl, hu⟩ := ih
    exact ⟨u ++ _ :: (v ++ [_]), by simp only [List.cons_append, List.append_assoc]; rfl,
      u ++ _ :: v, close, by simp only [List.cons_append, List.append_assoc]; rfl, .args hu hv⟩
  | branches_end _ _ ih ih' =>
    obtain ⟨v, rfl, hv⟩ := ih'
    obtain ⟨u, rfl, hu⟩ := ih
    exact ⟨u ++ _ :: (v ++ [_]), by simp only [List.cons_append, List.append_assoc]; rfl,
      u ++ _ :: v, [_], by simp only [List.cons_append, List.append_assoc]; rfl,
      .branches_last hu hv, .otherwise_none⟩
  | branches_else _ _ _ ih ih' ih'' =>
    obtain ⟨w, rfl, hw⟩ := ih''
    obtain ⟨v, rfl, hv⟩ := ih'
    obtain ⟨u, rfl, hu⟩ := ih
    exact ⟨u ++ _ :: (v ++ _ :: (w ++ [_])),
      by simp only [List.cons_append, List.append_assoc]; rfl,
      u ++ _ :: v, _ :: (w ++ [_]), by simp only [List.cons_append, List.append_assoc]; rfl,
      .branches_last hu hv, .otherwise hw⟩
  | branches_more _ _ _ ih ih' ih'' =>
    obtain ⟨_, rfl, w, t, rfl, hw, ht⟩ := ih''
    obtain ⟨v, rfl, hv⟩ := ih'
    obtain ⟨u, rfl, hu⟩ := ih
    exact ⟨u ++ _ :: (v ++ _ :: (w ++ t)),
      by simp only [List.cons_append, List.append_assoc]; rfl,
      u ++ _ :: (v ++ _ :: w), t, by simp only [List.cons_append, List.append_assoc]; rfl,
      .branches hu hv hw, ht⟩
  | entries_last _ ih =>
    obtain ⟨u, rfl, hu⟩ := ih
    exact ⟨_, by simp only [List.cons_append, List.append_assoc]; rfl,
      u, _, rfl, .entries_last hu⟩
  | entries_more _ _ ih ih' =>
    obtain ⟨_, rfl, v, close, rfl, hv⟩ := ih'
    obtain ⟨u, rfl, hu⟩ := ih
    exact ⟨u ++ _ :: (v ++ [_]), by simp only [List.cons_append, List.append_assoc]; rfl,
      u ++ _ :: v, close, by simp only [List.cons_append, List.append_assoc]; rfl, .entries hu hv⟩
  -- Entries
  | entry_var _ => exact ⟨[_], rfl, .entry_var⟩
  | entry_computed _ _ ih ih' =>
    obtain ⟨v, rfl, hv⟩ := ih'
    obtain ⟨u, rfl, hu⟩ := ih
    exact ⟨_, by simp only [List.cons_append, List.append_assoc]; rfl, .entry_computed hu hv⟩
  | entry_keyed hword _ ih =>
    obtain ⟨u, rfl, hu⟩ := ih
    exact ⟨_ :: _ :: u, rfl, .entry_keyed hword hu⟩
  | entry_short hword _ => exact ⟨[_], rfl, .entry_short hword⟩
  | entryValue _ _ ih ih' =>
    obtain ⟨v, rfl, hv⟩ := ih'
    obtain ⟨u, rfl, hu⟩ := ih
    exact ⟨u ++ v, by simp, hv u (.entryValue_first hu)⟩
  | entryPipes_nil _ => exact ⟨[], rfl, fun t ht => by simpa using ht⟩
  | entryPipes_cons _ _ _ ih ih' =>
    obtain ⟨v, rfl, hv⟩ := ih'
    obtain ⟨u, rfl, hu⟩ := ih
    refine ⟨_, by rw [List.cons_append, List.append_assoc], fun t ht => ?_⟩
    simpa using hv _ (.entryValue ht hu)

/-- The tokens before the end are those that are taken, if no token of these is the end. -/
theorem takeWhile_eq_of_isFinish {ctx : Context} {used r : List Token}
    (hused : used.all fun t => !t.isFinish) (hfinish : (peek ctx r).isFinish) :
    (used ++ r).takeWhile (fun t => !t.isFinish) = used := by
  rw [List.takeWhile_append_of_pos (List.all_eq_true.mp hused)]
  cases r with
  | nil => exact List.append_nil used
  | cons t r =>
    have hstop : t.isFinish = true := hfinish
    rw [List.takeWhile_cons_of_neg (by simp [hstop]), List.append_nil]

/-- The filter of some tokens is the one of a derivation from the tokens before the end, from all
of them in their order. -/
theorem derived_of_ofTokens {globals : List String} {tokens : List Token} {f : Filter}
    (h : Filter.ofTokens globals tokens = .ok f) :
    Whole ((tokens.find? Token.isFinish).getD (finishOf tokens)).range f
      (tokens.takeWhile fun t => !t.isFinish) := by
  unfold Filter.ofTokens at h
  dsimp only at h
  split at h
  · next hfirst =>
    obtain rfl := Except.ok.inj h
    cases tokens with
    | nil => exact .nothing
    | cons t s =>
      have hfinish : t.isFinish = true := hfirst
      rw [List.find?_cons_of_pos hfinish, List.takeWhile_cons_of_neg (by simp [hfinish])]
      exact .nothing
  · obtain ⟨filter, hfilter, h⟩ := ok_of_bind h
    obtain ⟨used, hsplit, hderived⟩ := ((soundAt tokens).pipe _ 0 filter hfilter).covers
    split at h
    · next hfinish =>
      obtain rfl := Except.ok.inj h
      have htaken := takeWhile_eq_of_isFinish hderived.all_not_isFinish hfinish
      rw [← hsplit] at htaken
      rw [htaken]
      exact .pipe hderived
    · cases h

/-- The tokens of `.a < -$x, .` before the end, and one token after it. -/
theorem derived_of_ofTokens_mixed :
    Whole (.empty ⟨1, 7⟩)
      (.comma (.empty ⟨1, 5⟩)
        (.binary (.empty ⟨1, 2⟩) .lt
          (.index (.empty ⟨1, 1⟩) (.identity (.empty ⟨1, 1⟩)) (.key (.empty ⟨1, 1⟩) "a"))
          (.negate (.empty ⟨1, 3⟩) (.var (.empty ⟨1, 4⟩) "x")))
        (.identity (.empty ⟨1, 6⟩)))
      [⟨.field "a", .empty ⟨1, 1⟩⟩, ⟨.symbol .less, .empty ⟨1, 2⟩⟩,
        ⟨.symbol .minus, .empty ⟨1, 3⟩⟩, ⟨.binding "x", .empty ⟨1, 4⟩⟩,
        ⟨.symbol .comma, .empty ⟨1, 5⟩⟩, ⟨.symbol .dot, .empty ⟨1, 6⟩⟩] :=
  @derived_of_ofTokens ["x"]
    [⟨.field "a", .empty ⟨1, 1⟩⟩, ⟨.symbol .less, .empty ⟨1, 2⟩⟩,
      ⟨.symbol .minus, .empty ⟨1, 3⟩⟩, ⟨.binding "x", .empty ⟨1, 4⟩⟩,
      ⟨.symbol .comma, .empty ⟨1, 5⟩⟩, ⟨.symbol .dot, .empty ⟨1, 6⟩⟩,
      ⟨.finish, .empty ⟨1, 7⟩⟩, ⟨.symbol .dot, .empty ⟨1, 8⟩⟩] _ (by cbv)

end JsonFilter.Filter.Parser
