import JsonFilter.Proofs.Grammar.Basic

/-!
The parser follows the grammar: what it takes from the front of some tokens is derived from them by
the rules, within the limit of nesting. There is one lemma for each function of the parser, which
takes for granted that the functions are sound on fewer tokens; `soundAt` puts them together.
-/

namespace JsonFilter.Filter.Parser

/-- A derivation within the limit of nesting. -/
abbrev Within : (scope : List String) → (depth : Nat) → Part → (s r : List Token) → Prop :=
  Derives (· < maxDepth)

/-- If parsing succeeds, its result and what is left have a property. -/
def Sound {α : Type} {s : List Token} (x : Parsing α s) (P : α → List Token → Prop) : Prop :=
  ∀ r, x = .ok r → P r.value r.rest

/-! ## Inversion -/

theorem lt_of_checkDepth {ctx : Context} {d : Nat} {s : List Token} {u : Unit}
    (h : checkDepth ctx d s = .ok u) : d < maxDepth := by
  unfold checkDepth at h
  split at h
  · cases h
  · omega

theorem eq_cons_of_expect {ctx : Context} {kind : Token.Kind} {error : Token → Error}
    {s : List Token} {r : { r : List Token // r.length < s.length }}
    (h : expect ctx kind error s = .ok r) : ∃ loc, s = ⟨kind, loc⟩ :: r.1 := by
  unfold expect at h
  split at h
  · next t s' =>
    split at h
    · next hk =>
      obtain rfl := Except.ok.inj h
      exact ⟨t.range, by rw [← hk]⟩
    · cases h
  · cases h

theorem of_variableNode {ctx : Context} {t : Token} {name : String} {f : Filter}
    (h : variableNode ctx t name = .ok f) : name ∈ ctx.scope ∧ f = .var t.range name := by
  unfold variableNode at h
  split at h
  · next hc => exact ⟨by simpa using hc, (Except.ok.inj h).symm⟩
  · cases h

theorem of_callNode {t : Token} {name : String} {args : List Filter} {f : Filter}
    (h : callNode t name args = .ok f) :
    ∃ b, Builtin.find? name args.length = some b ∧ f = .call t.range b args := by
  unfold callNode at h
  split at h
  · next b hb => exact ⟨b, hb, (Except.ok.inj h).symm⟩
  · cases h

theorem nextKind?_ne {k : Token.Kind} {s : List Token} (h : ∀ loc r, s = ⟨k, loc⟩ :: r → False) :
    nextKind? s ≠ some k := by
  cases s with
  | nil => simp only [nextKind?_nil, ne_eq, reduceCtorEq, not_false_eq_true]
  | cons t r =>
    intro hk
    obtain ⟨kind, loc⟩ := t
    obtain rfl : kind = k := Option.some.inj hk
    exact h loc r rfl

/-! ## One lemma for each function of the parser -/

/-- All functions of the parser are sound on these tokens. -/
structure SoundAt (s : List Token) : Prop where
  pipe : ∀ ctx d, Sound (parsePipe ctx d s) fun f r => Within ctx.scope d (.pipe f) s r
  comma : ∀ ctx d, Sound (parseComma ctx d s) fun f r => Within ctx.scope d (.comma f) s r
  commaTail : ∀ whole ctx d left h, Sound (parseCommaTail whole ctx d left s h) fun f r =>
    Within ctx.scope d (.commaTail left f) s r
  alternative : ∀ ctx d, Sound (parseAlternative ctx d s) fun f r =>
    Within ctx.scope d (.alternative f) s r
  operators : ∀ whole ctx d least compared left h,
    Sound (parseOperators whole ctx d least compared left s h) fun f r =>
      Within ctx.scope d (.operators least compared left f) s r
  operation : ∀ ctx d op loc left, Sound (parseOperation ctx d op loc left s) fun f r =>
    Within ctx.scope d (.operation op loc left f) s r
  tighter : ∀ whole ctx d level left h, Sound (parseTighter whole ctx d level left s h) fun f r =>
    Within ctx.scope d (.tighter level left f) s r
  unary : ∀ ctx d, Sound (parseUnary ctx d s) fun f r => Within ctx.scope d (.unary f) s r
  term : ∀ ctx d, Sound (parsePostfix ctx d s) fun f r => Within ctx.scope d (.term f) s r
  suffixes : ∀ whole ctx base d left h,
    Sound (parseSuffixes whole ctx base d left s h) fun f r =>
      Within ctx.scope d (.suffixes base left f) s r
  binding : ∀ ctx d source loc, Sound (parseBinding ctx d source loc s) fun f r =>
    Within ctx.scope d (.binding source loc f) s r
  bracket : ∀ ctx d target loc, Sound (parseBracket ctx d target loc s) fun f r =>
    Within ctx.scope d (.bracket target loc f) s r
  primary : ∀ ctx d, Sound (parsePrimary ctx d s) fun f r => Within ctx.scope d (.primary f) s r
  args : ∀ whole ctx d taken h, Sound (parseArgs whole ctx d taken s h) fun fs r =>
    ∃ gs, fs = taken.reverse ++ gs ∧ Within ctx.scope d (.args gs) s r
  branches : ∀ whole ctx d loc taken h, Sound (parseBranches whole ctx d loc taken s h) fun f r =>
    ∃ bs otherwise, f = .cond loc (taken.reverse ++ bs) otherwise ∧
      Within ctx.scope d (.branches bs otherwise) s r
  entries : ∀ whole ctx d taken h, Sound (parseEntries whole ctx d taken s h) fun es r =>
    ∃ fs, es = taken.reverse ++ fs ∧ Within ctx.scope d (.entries fs) s r
  entry : ∀ ctx d, Sound (parseEntry ctx d s) fun e r => Within ctx.scope d (.entry e.1 e.2) s r
  entryValue : ∀ ctx d, Sound (parseEntryValue ctx d s) fun f r =>
    Within ctx.scope d (.entryValue f) s r
  entryPipes : ∀ whole ctx d left h, Sound (parseEntryPipes whole ctx d left s h) fun f r =>
    Within ctx.scope d (.entryPipes left f) s r

section
variable {s : List Token} (ih : ∀ r : List Token, r.length < s.length → SoundAt r)
include ih

theorem parsePrimary_sound (ctx : Context) (d : Nat) :
    Sound (parsePrimary ctx d s) fun f r => Within ctx.scope d (.primary f) s r := by
  intro r h
  rw [parsePrimary.eq_def] at h
  split at h
  · cases h
  · obtain rfl := Except.ok.inj h
    exact .primary_string
  · next loc t hne =>
    obtain rfl := Except.ok.inj h
    refine .primary_identity fun name hk => ?_
    exact nextKind?_ne (fun keyLoc u hu => hne name keyLoc u hu) hk
  · obtain rfl := Except.ok.inj h
    exact .primary_recurse
  · obtain rfl := Except.ok.inj h
    exact .primary_field
  · obtain rfl := Except.ok.inj h
    exact .primary_literal rfl
  · obtain rfl := Except.ok.inj h
    exact .primary_literal rfl
  · obtain rfl := Except.ok.inj h
    exact .primary_literal rfl
  · obtain rfl := Except.ok.inj h
    exact .primary_literal rfl
  · obtain rfl := Except.ok.inj h
    exact .primary_literal rfl
  · obtain ⟨v, hv, h⟩ := ok_of_bind h
    obtain rfl := Except.ok.inj h
    obtain ⟨hmem, rfl⟩ := of_variableNode hv
    exact .primary_var hmem
  · next openLoc t =>
    obtain ⟨inner, hinner, h⟩ := ok_of_bind h
    obtain ⟨u, hu, h⟩ := ok_of_bind h
    obtain rfl := Except.ok.inj h
    obtain ⟨close, hclose⟩ := eq_cons_of_expect hu
    have hpipe := (ih t (by simp)).pipe ctx d inner hinner
    rw [hclose] at hpipe
    exact .primary_paren hpipe
  · obtain rfl := Except.ok.inj h
    exact .primary_emptyArray
  · next loc t hne =>
    obtain ⟨body, hbody, h⟩ := ok_of_bind h
    obtain ⟨u, hu, h⟩ := ok_of_bind h
    obtain rfl := Except.ok.inj h
    obtain ⟨close, hclose⟩ := eq_cons_of_expect hu
    have hpipe := (ih t (by simp)).pipe ctx d body hbody
    rw [hclose] at hpipe
    exact .primary_array (nextKind?_ne hne) hpipe
  · obtain rfl := Except.ok.inj h
    exact .primary_emptyObject
  · next loc t hne =>
    obtain ⟨entries, hentries, h⟩ := ok_of_bind h
    obtain rfl := Except.ok.inj h
    obtain ⟨es, hes, hderives⟩ := (ih t (by simp)).entries t ctx d [] _ entries hentries
    simp only [List.reverse_nil, List.nil_append] at hes
    rw [← hes] at hderives
    exact .primary_object (nextKind?_ne hne) hderives
  · next loc t =>
    obtain ⟨cond, hcond, h⟩ := ok_of_bind h
    obtain rfl := Except.ok.inj h
    obtain ⟨bs, otherwise, hf, hderives⟩ := (ih t (by simp)).branches t ctx d loc [] _ cond hcond
    simp only [List.reverse_nil, List.nil_append] at hf
    simp only [Front.widen, hf]
    exact .primary_cond hderives
  · next loc t =>
    obtain ⟨_, hfits, h⟩ := ok_of_bind h
    obtain ⟨body, hbody, h⟩ := ok_of_bind h
    have hterm := (ih t (by simp)).term ctx (d + 1) body hbody
    have hshort := body.shorter
    dsimp only at h
    split at h
    · next catchLoc u hu =>
      obtain ⟨_, _, h⟩ := ok_of_bind h
      obtain ⟨handler, hhandler, h⟩ := ok_of_bind h
      obtain rfl := Except.ok.inj h
      rw [hu] at hterm hshort
      have hcatch := (ih u (by simp only [List.length_cons] at hshort ⊢; omega)).term ctx (d + 1)
        handler hhandler
      exact .primary_tryCatch (lt_of_checkDepth hfits) hterm hcatch
    · next hne =>
      obtain rfl := Except.ok.inj h
      exact .primary_try (lt_of_checkDepth hfits) hterm (nextKind?_ne hne)
  · next name loc openLoc t =>
    obtain ⟨args, hargs, h⟩ := ok_of_bind h
    obtain ⟨call, hcall, h⟩ := ok_of_bind h
    obtain rfl := Except.ok.inj h
    obtain ⟨b, hb, rfl⟩ := of_callNode hcall
    obtain ⟨fs, hfs, hderives⟩ :=
      (ih t (by simp only [List.length_cons]; omega)).args t ctx d [] _ args hargs
    simp only [List.reverse_nil, List.nil_append] at hfs
    rw [← hfs] at hderives
    exact .primary_call hderives hb
  · next name loc t hne =>
    obtain ⟨call, hcall, h⟩ := ok_of_bind h
    obtain rfl := Except.ok.inj h
    obtain ⟨b, hb, rfl⟩ := of_callNode hcall
    exact .primary_name (nextKind?_ne hne) hb
  · cases h
  · cases h

theorem parseSuffixes_sound (whole : List Token) (ctx : Context) (base d : Nat) (left : Filter)
    (hs : s.length < whole.length) :
    Sound (parseSuffixes whole ctx base d left s hs) fun f r =>
      Within ctx.scope d (.suffixes base left f) s r := by
  intro r h
  rw [parseSuffixes.eq_def] at h
  split at h
  · next name loc t _ =>
    obtain ⟨_, hfits, h⟩ := ok_of_bind h
    exact .suffixes_field (lt_of_checkDepth hfits)
      ((ih t (by simp)).suffixes whole ctx base (d + 1) _ _ r h)
  · next loc name keyLoc t _ =>
    obtain ⟨_, hfits, h⟩ := ok_of_bind h
    exact .suffixes_string (lt_of_checkDepth hfits)
      ((ih t (by simp only [List.length_cons]; omega)).suffixes whole ctx base (d + 1) _ _ r h)
  · next loc bracket t _ =>
    obtain ⟨_, hfits, h⟩ := ok_of_bind h
    obtain ⟨next, hnext, h⟩ := ok_of_bind h
    have hshort := next.shorter
    exact .suffixes_dotBracket (lt_of_checkDepth hfits)
      ((ih t (by simp only [List.length_cons]; omega)).bracket ctx (d + 1) left bracket next hnext)
      ((ih next.rest (by simp only [List.length_cons]; omega)).suffixes whole ctx base (d + 1) _ _
        r h)
  · obtain ⟨_, _, h⟩ := ok_of_bind h
    cases h
  · next bracket t _ =>
    obtain ⟨_, hfits, h⟩ := ok_of_bind h
    obtain ⟨next, hnext, h⟩ := ok_of_bind h
    have hshort := next.shorter
    exact .suffixes_bracket (lt_of_checkDepth hfits)
      ((ih t (by simp)).bracket ctx (d + 1) left bracket next hnext)
      ((ih next.rest (by simp only [List.length_cons]; omega)).suffixes whole ctx base (d + 1) _ _
        r h)
  · next loc t _ =>
    obtain ⟨_, hfits, h⟩ := ok_of_bind h
    exact .suffixes_question (lt_of_checkDepth hfits)
      ((ih t (by simp)).suffixes whole ctx base (d + 1) _ _ r h)
  · next loc t _ =>
    obtain ⟨body, hbody, h⟩ := ok_of_bind h
    obtain rfl := Except.ok.inj h
    exact .suffixes_binding ((ih t (by simp)).binding ctx base left loc body hbody)
  · next hfield _ _ hdot hbracket hquestion has =>
    obtain rfl := Except.ok.inj h
    refine .suffixes_nil fun k hk => ?_
    cases s with
    | nil => simp only [nextKind?_nil, reduceCtorEq] at hk
    | cons t u =>
      obtain ⟨kind, loc⟩ := t
      obtain rfl : kind = k := Option.some.inj hk
      cases hopens : opensSuffix kind with
      | false => rfl
      | true =>
        unfold opensSuffix at hopens
        split at hopens
        · exact (hfield _ loc u hs rfl HEq.rfl).elim
        · exact (hdot loc u hs rfl HEq.rfl).elim
        · exact (hbracket loc u hs rfl HEq.rfl).elim
        · exact (hquestion loc u hs rfl HEq.rfl).elim
        · exact (has loc u hs rfl HEq.rfl).elim
        · cases hopens

theorem parseTerm_sound (ctx : Context) (d : Nat) :
    Sound (parsePostfix ctx d s) fun f r => Within ctx.scope d (.term f) s r := by
  intro r h
  rw [parsePostfix] at h
  obtain ⟨term, hterm, h⟩ := ok_of_bind h
  exact .term (parsePrimary_sound ih ctx d term hterm)
    ((ih term.rest term.shorter).suffixes s ctx d d _ _ r h)

theorem parseUnary_sound (ctx : Context) (d : Nat) :
    Sound (parseUnary ctx d s) fun f r => Within ctx.scope d (.unary f) s r := by
  intro r h
  rw [parseUnary.eq_def] at h
  split at h
  · next loc t =>
    obtain ⟨_, hfits, h⟩ := ok_of_bind h
    obtain ⟨operand, hoperand, h⟩ := ok_of_bind h
    obtain rfl := Except.ok.inj h
    exact .unary_minus (lt_of_checkDepth hfits)
      ((ih t (by simp)).unary ctx (d + 1) operand hoperand)
  · next hne => exact .unary_term (nextKind?_ne hne) (parseTerm_sound ih ctx d r h)

theorem parseOperation_sound (ctx : Context) (d : Nat) (op : Operator) (loc : Range)
    (left : Filter) :
    Sound (parseOperation ctx d op loc left s) fun f r =>
      Within ctx.scope d (.operation op loc left f) s r := by
  intro r h
  rw [parseOperation] at h
  obtain ⟨_, hfits, h⟩ := ok_of_bind h
  obtain ⟨first, hfirst, h⟩ := ok_of_bind h
  obtain ⟨right, hright, h⟩ := ok_of_bind h
  obtain rfl := Except.ok.inj h
  exact .operation (lt_of_checkDepth hfits) (parseUnary_sound ih ctx (d + 1) first hfirst)
    ((ih first.rest first.shorter).tighter s ctx (d + 1) op.level _ _ right hright)

theorem parseTighter_sound (whole : List Token) (ctx : Context) (d level : Nat) (left : Filter)
    (hs : s.length < whole.length) :
    Sound (parseTighter whole ctx d level left s hs) fun f r =>
      Within ctx.scope d (.tighter level left f) s r := by
  intro r h
  rw [parseTighter.eq_def] at h
  split at h
  · obtain rfl := Except.ok.inj h
    exact .tighter_nil fun op hop => by simp only [nextOperator?_nil, reduceCtorEq] at hop
  · next t u _ =>
    split at h
    · next hnone =>
      obtain rfl := Except.ok.inj h
      exact .tighter_nil fun op hop => by
        simp only [nextOperator?_cons, hnone, reduceCtorEq] at hop
    · next op hop =>
      split at h
      · next hle =>
        obtain rfl := Except.ok.inj h
        refine .tighter_nil fun op' hop' => ?_
        obtain rfl : op = op' := Option.some.inj (hop.symm.trans hop')
        exact hle
      · next hlt =>
        obtain ⟨next, hnext, h⟩ := ok_of_bind h
        obtain ⟨chain, hchain, h⟩ := ok_of_bind h
        have hu : u.length < (t :: u).length := by simp
        have hn := next.shorter
        have hc := chain.shorter
        exact .tighter_cons hop (by omega) ((ih u hu).operation ctx d op t.range left next hnext)
          ((ih next.rest (by omega)).operators u ctx (d + 1) op.level op.isComparison _ _ chain
            hchain)
          ((ih chain.rest (by omega)).tighter whole ctx d level _ _ r h)

theorem parseOperators_sound (whole : List Token) (ctx : Context) (d least : Nat)
    (compared : Bool) (left : Filter) (hs : s.length < whole.length) :
    Sound (parseOperators whole ctx d least compared left s hs) fun f r =>
      Within ctx.scope d (.operators least compared left f) s r := by
  intro r h
  rw [parseOperators.eq_def] at h
  split at h
  · obtain rfl := Except.ok.inj h
    exact .operators_nil fun op hop => by simp only [nextOperator?_nil, reduceCtorEq] at hop
  · next t u _ =>
    split at h
    · next hnone =>
      obtain rfl := Except.ok.inj h
      exact .operators_nil fun op hop => by
        simp only [nextOperator?_cons, hnone, reduceCtorEq] at hop
    · next op hop =>
      split at h
      · next hlt =>
        obtain rfl := Except.ok.inj h
        refine .operators_nil fun op' hop' => ?_
        obtain rfl : op = op' := Option.some.inj (hop.symm.trans hop')
        exact hlt
      · next hle =>
        split at h
        · cases h
        · next hcompared =>
          obtain ⟨next, hnext, h⟩ := ok_of_bind h
          have hu : u.length < (t :: u).length := by simp
          have hn := next.shorter
          exact .operators_cons hop (by omega) (by simpa using hcompared)
            ((ih u hu).operation ctx d op t.range left next hnext)
            ((ih next.rest (by omega)).operators whole ctx (d + 1) least op.isComparison _ _ r h)

theorem parseAlternative_sound (ctx : Context) (d : Nat) :
    Sound (parseAlternative ctx d s) fun f r => Within ctx.scope d (.alternative f) s r := by
  intro r h
  rw [parseAlternative] at h
  obtain ⟨first, hfirst, h⟩ := ok_of_bind h
  obtain ⟨left, hleft, h⟩ := ok_of_bind h
  have hunary := parseUnary_sound ih ctx d first hfirst
  have hoperators := (ih first.rest first.shorter).operators s ctx d 1 false _ _ left hleft
  have hshort := left.shorter
  dsimp only at h
  split at h
  · next loc t ht =>
    obtain ⟨_, hfits, h⟩ := ok_of_bind h
    obtain ⟨right, hright, h⟩ := ok_of_bind h
    obtain rfl := Except.ok.inj h
    rw [ht] at hoperators hshort
    exact .alternative_more hunary hoperators (lt_of_checkDepth hfits)
      ((ih t (by simp only [List.length_cons] at hshort; omega)).alternative ctx (d + 1) right
        hright)
  · next hne =>
    obtain rfl := Except.ok.inj h
    exact .alternative_last hunary hoperators (nextKind?_ne hne)

theorem parseCommaTail_sound (whole : List Token) (ctx : Context) (d : Nat) (left : Filter)
    (hs : s.length < whole.length) :
    Sound (parseCommaTail whole ctx d left s hs) fun f r =>
      Within ctx.scope d (.commaTail left f) s r := by
  intro r h
  rw [parseCommaTail.eq_def] at h
  split at h
  · next loc t _ =>
    obtain ⟨_, hfits, h⟩ := ok_of_bind h
    obtain ⟨right, hright, h⟩ := ok_of_bind h
    have ht : t.length < (⟨.symbol .comma, loc⟩ :: t : List Token).length := by simp
    have hshort := right.shorter
    exact .commaTail_cons (lt_of_checkDepth hfits) ((ih t ht).alternative ctx (d + 1) right hright)
      ((ih right.rest (by omega)).commaTail whole ctx (d + 1) _ _ r h)
  · next hne =>
    obtain rfl := Except.ok.inj h
    exact .commaTail_nil (nextKind?_ne fun loc t ht => hne loc t (ht ▸ hs) ht (by subst ht; rfl))

theorem parseComma_sound (ctx : Context) (d : Nat) :
    Sound (parseComma ctx d s) fun f r => Within ctx.scope d (.comma f) s r := by
  intro r h
  rw [parseComma] at h
  obtain ⟨first, hfirst, h⟩ := ok_of_bind h
  exact .comma (parseAlternative_sound ih ctx d first hfirst)
    ((ih first.rest first.shorter).commaTail s ctx d _ _ r h)

theorem parsePipe_sound (ctx : Context) (d : Nat) :
    Sound (parsePipe ctx d s) fun f r => Within ctx.scope d (.pipe f) s r := by
  intro r h
  rw [parsePipe] at h
  obtain ⟨_, hfits, h⟩ := ok_of_bind h
  obtain ⟨left, hleft, h⟩ := ok_of_bind h
  have hcomma := parseComma_sound ih ctx (d + 1) left hleft
  have hshort := left.shorter
  dsimp only at h
  split at h
  · next loc t ht =>
    obtain ⟨right, hright, h⟩ := ok_of_bind h
    obtain rfl := Except.ok.inj h
    rw [ht] at hcomma hshort
    exact .pipe_more (lt_of_checkDepth hfits) hcomma
      ((ih t (by simp only [List.length_cons] at hshort; omega)).pipe ctx (d + 1) right hright)
  · next hne =>
    obtain rfl := Except.ok.inj h
    exact .pipe_last (lt_of_checkDepth hfits) hcomma (nextKind?_ne hne)

theorem parseBinding_sound (ctx : Context) (d : Nat) (source : Filter) (loc : Range) :
    Sound (parseBinding ctx d source loc s) fun f r =>
      Within ctx.scope d (.binding source loc f) s r := by
  intro r h
  rw [parseBinding.eq_def] at h
  split at h
  · next name nameLoc t =>
    obtain ⟨⟨u, hshort⟩, hu, h⟩ := ok_of_bind h
    obtain ⟨body, hbody, h⟩ := ok_of_bind h
    obtain rfl := Except.ok.inj h
    obtain ⟨pipeLoc, ht⟩ := eq_cons_of_expect hu
    dsimp only at ht
    subst ht
    exact .binding ((ih u (by simp only [List.length_cons]; omega)).pipe
      ⟨name :: ctx.scope, ctx.finish⟩ d body hbody)
  · cases h

theorem parseBracket_sound (ctx : Context) (d : Nat) (target : Filter) (loc : Range) :
    Sound (parseBracket ctx d target loc s) fun f r =>
      Within ctx.scope d (.bracket target loc f) s r := by
  intro r h
  rw [parseBracket.eq_def] at h
  split at h
  · obtain rfl := Except.ok.inj h
    exact .bracket_iterate
  · next colon t =>
    obtain ⟨high, hhigh, h⟩ := ok_of_bind h
    obtain ⟨u, hu, h⟩ := ok_of_bind h
    obtain rfl := Except.ok.inj h
    obtain ⟨close, hclose⟩ := eq_cons_of_expect hu
    have hpipe := (ih t (by simp)).pipe ctx d high hhigh
    rw [hclose] at hpipe
    exact .bracket_high hpipe
  · next hnclose hncolon =>
    obtain ⟨key, hkey, h⟩ := ok_of_bind h
    have hc := nextKind?_ne hnclose
    have hk := nextKind?_ne hncolon
    have hpipe := parsePipe_sound ih ctx d key hkey
    have hshort := key.shorter
    dsimp only at h
    split at h
    · next colon close t ht =>
      obtain rfl := Except.ok.inj h
      rw [ht] at hpipe
      exact .bracket_low hc hk hpipe
    · next colon t hne ht =>
      obtain ⟨high, hhigh, h⟩ := ok_of_bind h
      obtain ⟨u, hu, h⟩ := ok_of_bind h
      obtain rfl := Except.ok.inj h
      obtain ⟨close, hclose⟩ := eq_cons_of_expect hu
      rw [ht] at hpipe hshort
      have hhigh := (ih t (by simp only [List.length_cons] at hshort; omega)).pipe ctx d high hhigh
      rw [hclose] at hhigh
      exact .bracket_both hc hk hpipe (nextKind?_ne hne) hhigh
    · obtain ⟨u, hu, h⟩ := ok_of_bind h
      obtain rfl := Except.ok.inj h
      obtain ⟨close, hclose⟩ := eq_cons_of_expect hu
      rw [hclose] at hpipe
      exact .bracket_key hc hk hpipe

theorem parseArgs_sound (whole : List Token) (ctx : Context) (d : Nat) (taken : List Filter)
    (hs : s.length ≤ whole.length) :
    Sound (parseArgs whole ctx d taken s hs) fun fs r =>
      ∃ gs, fs = taken.reverse ++ gs ∧ Within ctx.scope d (.args gs) s r := by
  intro r h
  rw [parseArgs.eq_def] at h
  obtain ⟨arg, harg, h⟩ := ok_of_bind h
  have hpipe := parsePipe_sound ih ctx d arg harg
  have hshort := arg.shorter
  dsimp only at h
  split at h
  · next loc t ht =>
    rw [ht] at hpipe hshort
    obtain ⟨gs, hgs, hderives⟩ :=
      (ih t (by simp only [List.length_cons] at hshort; omega)).args whole ctx d _ _ r h
    exact ⟨arg.value :: gs, by simp [hgs], .args_more hpipe hderives⟩
  · next loc t ht =>
    obtain rfl := Except.ok.inj h
    rw [ht] at hpipe
    exact ⟨[arg.value], by simp, .args_last hpipe⟩
  · cases h

theorem parseBranches_sound (whole : List Token) (ctx : Context) (d : Nat) (loc : Range)
    (taken : List (Filter × Filter)) (hs : s.length ≤ whole.length) :
    Sound (parseBranches whole ctx d loc taken s hs) fun f r =>
      ∃ bs otherwise, f = .cond loc (taken.reverse ++ bs) otherwise ∧
        Within ctx.scope d (.branches bs otherwise) s r := by
  intro r h
  rw [parseBranches.eq_def] at h
  obtain ⟨test, htest, h⟩ := ok_of_bind h
  obtain ⟨u, hu, h⟩ := ok_of_bind h
  obtain ⟨body, hbody, h⟩ := ok_of_bind h
  obtain ⟨thenLoc, hthen⟩ := eq_cons_of_expect hu
  have htestPipe := parsePipe_sound ih ctx d test htest
  have hu' := u.2
  have hshort := test.shorter
  have hbodyPipe := (ih u.1 (by omega)).pipe ctx d body hbody
  have hbodyShort := body.shorter
  rw [hthen] at htestPipe
  dsimp only at h
  split at h
  · next elifLoc t ht =>
    rw [ht] at hbodyPipe hbodyShort
    obtain ⟨bs, otherwise, hf, hderives⟩ :=
      (ih t (by simp only [List.length_cons] at hbodyShort; omega)).branches whole ctx d loc _ _ r h
    exact ⟨(test.value, body.value) :: bs, otherwise, by simp [hf],
      .branches_more htestPipe hbodyPipe hderives⟩
  · next elseLoc t ht =>
    obtain ⟨otherwise, hotherwise, h⟩ := ok_of_bind h
    obtain ⟨w, hw, h⟩ := ok_of_bind h
    obtain rfl := Except.ok.inj h
    obtain ⟨endLoc, hend⟩ := eq_cons_of_expect hw
    rw [ht] at hbodyPipe hbodyShort
    have helse := (ih t (by simp only [List.length_cons] at hbodyShort; omega)).pipe ctx d otherwise
      hotherwise
    rw [hend] at helse
    exact ⟨[(test.value, body.value)], some otherwise.value, by simp,
      .branches_else htestPipe hbodyPipe helse⟩
  · next endLoc t ht =>
    obtain rfl := Except.ok.inj h
    rw [ht] at hbodyPipe
    exact ⟨[(test.value, body.value)], none, by simp, .branches_end htestPipe hbodyPipe⟩
  · cases h

theorem parseEntryPipes_sound (whole : List Token) (ctx : Context) (d : Nat) (left : Filter)
    (hs : s.length < whole.length) :
    Sound (parseEntryPipes whole ctx d left s hs) fun f r =>
      Within ctx.scope d (.entryPipes left f) s r := by
  intro r h
  rw [parseEntryPipes.eq_def] at h
  split at h
  · next loc t _ =>
    obtain ⟨_, hfits, h⟩ := ok_of_bind h
    obtain ⟨right, hright, h⟩ := ok_of_bind h
    have ht : t.length < (⟨.symbol .pipe, loc⟩ :: t : List Token).length := by simp
    have hshort := right.shorter
    exact .entryPipes_cons (lt_of_checkDepth hfits) ((ih t ht).alternative ctx (d + 1) right hright)
      ((ih right.rest (by omega)).entryPipes whole ctx (d + 1) _ _ r h)
  · next hne =>
    obtain rfl := Except.ok.inj h
    exact .entryPipes_nil (nextKind?_ne fun loc t ht => hne loc t (ht ▸ hs) ht (by subst ht; rfl))

theorem parseEntryValue_sound (ctx : Context) (d : Nat) :
    Sound (parseEntryValue ctx d s) fun f r => Within ctx.scope d (.entryValue f) s r := by
  intro r h
  rw [parseEntryValue] at h
  obtain ⟨first, hfirst, h⟩ := ok_of_bind h
  exact .entryValue (parseAlternative_sound ih ctx d first hfirst)
    ((ih first.rest first.shorter).entryPipes s ctx d _ _ r h)

theorem parseEntry_sound (ctx : Context) (d : Nat) :
    Sound (parseEntry ctx d s) fun e r => Within ctx.scope d (.entry e.1 e.2) s r := by
  intro r h
  rw [parseEntry.eq_def] at h
  split at h
  · cases h
  · obtain ⟨v, hv, h⟩ := ok_of_bind h
    obtain rfl := Except.ok.inj h
    obtain ⟨hmem, rfl⟩ := of_variableNode hv
    exact .entry_var hmem
  · next openLoc t =>
    obtain ⟨key, hkey, h⟩ := ok_of_bind h
    obtain ⟨u, hu, h⟩ := ok_of_bind h
    obtain ⟨w, hw, h⟩ := ok_of_bind h
    obtain ⟨v, hv, h⟩ := ok_of_bind h
    obtain rfl := Except.ok.inj h
    obtain ⟨close, hclose⟩ := eq_cons_of_expect hu
    obtain ⟨colon, hcolon⟩ := eq_cons_of_expect hw
    have hpipe := (ih t (by simp)).pipe ctx d key hkey
    have hkeyShort := key.shorter
    have hu' := u.2
    have hw' := w.2
    rw [hclose, hcolon] at hpipe
    exact .entry_computed hpipe
      ((ih w.1 (by simp only [List.length_cons]; omega)).entryValue ctx d v hv)
  · cases h
  · next kind loc t _ _ _ =>
    split at h
    · cases h
    · next word hword =>
      split at h
      · next colon u =>
        obtain ⟨v, hv, h⟩ := ok_of_bind h
        obtain rfl := Except.ok.inj h
        exact .entry_keyed hword
          ((ih u (by simp only [List.length_cons]; omega)).entryValue ctx d v hv)
      · next hne =>
        obtain rfl := Except.ok.inj h
        exact .entry_short hword (nextKind?_ne fun loc' u hu => hne loc' u hu)

theorem parseEntries_sound (whole : List Token) (ctx : Context) (d : Nat)
    (taken : List (Filter × Filter)) (hs : s.length ≤ whole.length) :
    Sound (parseEntries whole ctx d taken s hs) fun es r =>
      ∃ fs, es = taken.reverse ++ fs ∧ Within ctx.scope d (.entries fs) s r := by
  intro r h
  rw [parseEntries.eq_def] at h
  obtain ⟨entry, hentry, h⟩ := ok_of_bind h
  have hderives := parseEntry_sound ih ctx d entry hentry
  have hshort := entry.shorter
  dsimp only at h
  split at h
  · next loc t ht =>
    rw [ht] at hderives hshort
    obtain ⟨fs, hfs, hrest⟩ :=
      (ih t (by simp only [List.length_cons] at hshort; omega)).entries whole ctx d _ _ r h
    exact ⟨entry.value :: fs, by simp [hfs], .entries_more hderives hrest⟩
  · next loc t ht =>
    obtain rfl := Except.ok.inj h
    rw [ht] at hderives
    exact ⟨[entry.value], by simp, .entries_last hderives⟩
  · cases h

end

/-! ## All functions together -/

/-- The parser is sound on all tokens, by induction on their number. -/
theorem soundAt (s : List Token) : SoundAt s := by
  induction hn : s.length using Nat.strongRecOn generalizing s with
  | ind n ih =>
    have ih : ∀ r : List Token, r.length < s.length → SoundAt r :=
      fun r hr => ih r.length (hn ▸ hr) r rfl
    exact {
      pipe := parsePipe_sound ih
      comma := parseComma_sound ih
      commaTail := parseCommaTail_sound ih
      alternative := parseAlternative_sound ih
      operators := parseOperators_sound ih
      operation := parseOperation_sound ih
      tighter := parseTighter_sound ih
      unary := parseUnary_sound ih
      term := parseTerm_sound ih
      suffixes := parseSuffixes_sound ih
      binding := parseBinding_sound ih
      bracket := parseBracket_sound ih
      primary := parsePrimary_sound ih
      args := parseArgs_sound ih
      branches := parseBranches_sound ih
      entries := parseEntries_sound ih
      entry := parseEntry_sound ih
      entryValue := parseEntryValue_sound ih
      entryPipes := parseEntryPipes_sound ih }

/-- A filter of some tokens is `.`, or what the rules derive from all tokens before the end. -/
theorem derives_of_ofTokens {globals : List String} {tokens : List Token} {f : Filter}
    (h : Filter.ofTokens globals tokens = .ok f) :
    (∃ loc, f = .identity loc) ∨
      ∃ r, Within globals 0 (.pipe f) tokens r ∧ (peek ⟨globals, finishOf tokens⟩ r).isFinish := by
  unfold Filter.ofTokens at h
  dsimp only at h
  split at h
  · exact .inl ⟨_, (Except.ok.inj h).symm⟩
  · obtain ⟨filter, hfilter, h⟩ := ok_of_bind h
    split at h
    · next hfinish =>
      obtain rfl := Except.ok.inj h
      exact .inr ⟨filter.rest, (soundAt tokens).pipe _ 0 filter hfilter, hfinish⟩
    · cases h

end JsonFilter.Filter.Parser
