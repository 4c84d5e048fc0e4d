import JsonFilter.Filter.Parser

/-!
The tokens that the parser blames. An error names one of the tokens that were read or the token that
stands for the end, and what is left of the tokens consists of tokens that were read. Both are kept
when one function of the parser is followed by another, so there is one lemma for each function,
which takes them for granted on fewer tokens; `blamesAt` puts them together.
-/

namespace JsonFilter.Filter.Parser

/-! ## Blame -/

/-- An error of a result names the end or one of the tokens `s`, and what is left is some of `s`. -/
def Blames {α : Type} (finish : Token) (s : List Token) (rest : α → List Token) :
    Except Error α → Prop
  | .error e => e.token = finish ∨ e.token ∈ s
  | .ok a => rest a ⊆ s

namespace Blames

variable {α β : Type} {finish t : Token} {s u : List Token} {rest : α → List Token}

theorem subset {x : Except Error α} (h : Blames finish u rest x) (hu : u ⊆ s) :
    Blames finish s rest x := by
  cases x with
  | error e => exact h.imp id (@hu _)
  | ok a => exact List.Subset.trans h hu

theorem cons {x : Except Error α} (h : Blames finish s rest x) : Blames finish (t :: s) rest x :=
  h.subset (List.subset_cons_self t s)

theorem of_cons {x : Except Error α} (hs : s = t :: u) (h : Blames finish u rest x) :
    Blames finish s rest x := by
  subst hs
  exact h.cons

/-- What comes next may still blame what was read before. -/
theorem bind_whole {x : Except Error β} {f : β → Except Error α} {rest' : β → List Token}
    (hx : Blames finish s rest' x) (hf : ∀ b, rest' b ⊆ s → Blames finish s rest (f b)) :
    Blames finish s rest (x >>= f) := by
  cases x with
  | error e => exact hx
  | ok b => exact hf b hx

/-- What comes next reads what is left. -/
theorem bind {x : Except Error β} {f : β → Except Error α} {rest' : β → List Token}
    (hx : Blames finish s rest' x) (hf : ∀ b, Blames finish (rest' b) rest (f b)) :
    Blames finish s rest (x >>= f) :=
  hx.bind_whole fun b hb => (hf b).subset hb

end Blames

/-- `Blames` for what is read from the front of some tokens. -/
abbrev BlamesFront {α : Type} {whole : List Token} (ctx : Context) (s : List Token)
    (x : Parsing α whole) : Prop :=
  Blames ctx.finish s Front.rest x

theorem peek_eq_or_mem (ctx : Context) (s : List Token) :
    peek ctx s = ctx.finish ∨ peek ctx s ∈ s := by
  cases s with
  | nil => exact .inl rfl
  | cons t s => exact .inr List.mem_cons_self

theorem checkDepth_blames (ctx : Context) (d : Nat) (s : List Token) :
    Blames ctx.finish s (fun _ => s) (checkDepth ctx d s) := by
  unfold checkDepth
  split
  · exact peek_eq_or_mem ctx s
  · exact List.Subset.refl s

theorem expect_blames {ctx : Context} {kind : Token.Kind} {error : Token → Error}
    (herror : ∀ t, (error t).token = t) (s : List Token) :
    Blames ctx.finish s (fun r => r.1) (expect ctx kind error s) := by
  unfold expect
  split
  · next t r =>
    split
    · exact List.subset_cons_self t r
    · refine .inr ?_
      rw [herror]
      exact List.mem_cons_self
  · exact .inl (herror ctx.finish)

theorem variableNode_blames (ctx : Context) (t : Token) (name : String) (s : List Token) :
    Blames ctx.finish (t :: s) (fun _ => s) (variableNode ctx t name) := by
  unfold variableNode
  split
  · exact List.subset_cons_self t s
  · exact .inr List.mem_cons_self

theorem callNode_blames (finish t : Token) (name : String) (args : List Filter) {s : List Token}
    (h : t = finish ∨ t ∈ s) : Blames finish s (fun _ => s) (callNode t name args) := by
  unfold callNode
  split
  · exact List.Subset.refl s
  · exact h

/-! ## One lemma for each function of the parser -/

/-- All functions of the parser blame only the end and tokens among these. -/
structure BlamesAt (s : List Token) : Prop where
  pipe : ∀ ctx d, BlamesFront ctx s (parsePipe ctx d s)
  commaTail : ∀ whole ctx d left h, BlamesFront ctx s (parseCommaTail whole ctx d left s h)
  alternative : ∀ ctx d, BlamesFront ctx s (parseAlternative ctx d s)
  operators : ∀ whole ctx d least compared left h,
    BlamesFront ctx s (parseOperators whole ctx d least compared left s h)
  operation : ∀ ctx d op loc left, BlamesFront ctx s (parseOperation ctx d op loc left s)
  tighter : ∀ whole ctx d level left h, BlamesFront ctx s (parseTighter whole ctx d level left s h)
  unary : ∀ ctx d, BlamesFront ctx s (parseUnary ctx d s)
  term : ∀ ctx d, BlamesFront ctx s (parsePostfix ctx d s)
  suffixes : ∀ whole ctx base d left h,
    BlamesFront ctx s (parseSuffixes whole ctx base d left s h)
  bracket : ∀ ctx d target loc, BlamesFront ctx s (parseBracket ctx d target loc s)
  binding : ∀ ctx d source loc, BlamesFront ctx s (parseBinding ctx d source loc s)
  args : ∀ whole ctx d taken h, BlamesFront ctx s (parseArgs whole ctx d taken s h)
  branches : ∀ whole ctx d loc taken h,
    BlamesFront ctx s (parseBranches whole ctx d loc taken s h)
  entries : ∀ whole ctx d taken h, BlamesFront ctx s (parseEntries whole ctx d taken s h)
  entryValue : ∀ ctx d, BlamesFront ctx s (parseEntryValue ctx d s)
  entryPipes : ∀ whole ctx d left h, BlamesFront ctx s (parseEntryPipes whole ctx d left s h)

section
variable {s : List Token} (ih : ∀ r : List Token, r.length < s.length → BlamesAt r)
include ih

theorem parsePrimary_blames (ctx : Context) (d : Nat) : BlamesFront ctx s (parsePrimary ctx d s) := by
  rw [parsePrimary.eq_def]
  split
  · exact .inl rfl
  · exact fun t ht => List.mem_cons_of_mem _ (List.mem_cons_of_mem _ ht)
  · exact List.subset_cons_self _ _
  · exact List.subset_cons_self _ _
  · exact List.subset_cons_self _ _
  · exact List.subset_cons_self _ _
  · exact List.subset_cons_self _ _
  · exact List.subset_cons_self _ _
  · exact List.subset_cons_self _ _
  · exact List.subset_cons_self _ _
  · next name loc r =>
    exact (variableNode_blames ctx _ name r).bind fun v => List.Subset.refl r
  · next loc r =>
    apply Blames.cons
    apply ((ih r (Front.tail_lt r)).pipe ctx d).bind
    intro inner
    apply (expect_blames (fun _ => rfl) inner.rest).bind
    exact fun t => List.Subset.refl t.1
  · exact fun t ht => List.mem_cons_of_mem _ (List.mem_cons_of_mem _ ht)
  · next loc r hne =>
    apply Blames.cons
    apply ((ih r (Front.tail_lt r)).pipe ctx d).bind
    intro body
    apply (expect_blames (fun _ => rfl) body.rest).bind
    exact fun t => List.Subset.refl t.1
  · exact fun t ht => List.mem_cons_of_mem _ (List.mem_cons_of_mem _ ht)
  · next loc r hne =>
    apply Blames.cons
    apply ((ih r (Front.tail_lt r)).entries r ctx d [] _).bind
    exact fun entries => List.Subset.refl entries.rest
  · next loc r =>
    apply Blames.cons
    apply ((ih r (Front.tail_lt r)).branches r ctx d loc [] _).bind
    exact fun cond => List.Subset.refl cond.rest
  · next loc r =>
    apply Blames.cons
    apply (checkDepth_blames ctx d r).bind
    intro _
    apply ((ih r (Front.tail_lt r)).term ctx (d + 1)).bind
    intro body
    have hshort := body.shorter
    dsimp only
    split
    · next catchLoc t ht =>
      apply Blames.of_cons ht
      apply (checkDepth_blames ctx d t).bind
      intro _
      rw [ht] at hshort
      have hbody := Nat.lt_trans hshort (Front.tail_lt r)
      apply ((ih t (Nat.lt_trans (Front.tail_lt t) hbody)).term ctx (d + 1)).bind
      exact fun handler => List.Subset.refl handler.rest
    · exact List.Subset.refl body.rest
  · next name loc openLoc r =>
    have hshort := Nat.lt_succ_of_lt (Front.tail_lt r)
    apply ((ih r hshort).args r ctx d [] (Front.whole_le _)).cons.cons.bind_whole
    intro args hargs
    apply (callNode_blames ctx.finish _ name args.value (.inr List.mem_cons_self)).bind_whole
    exact fun _ _ => hargs
  · next name loc r hne =>
    apply (callNode_blames ctx.finish _ name [] (.inr List.mem_cons_self)).bind_whole
    exact fun _ _ => List.subset_cons_self _ r
  · exact .inr List.mem_cons_self
  · exact .inr List.mem_cons_self

theorem parseSuffixes_blames (whole : List Token) (ctx : Context) (base d : Nat) (left : Filter)
    (hs : s.length < whole.length) : BlamesFront ctx s (parseSuffixes whole ctx base d left s hs) := by
  rw [parseSuffixes.eq_def]
  split
  · next name loc t _ =>
    apply (checkDepth_blames ctx d _).bind
    intro _
    exact ((ih t (Front.tail_lt _)).suffixes whole ctx base (d + 1) _ _).cons
  · next loc name keyLoc t _ =>
    apply (checkDepth_blames ctx d _).bind_whole
    intro _ _
    have hshort := Nat.lt_succ_of_lt (Front.tail_lt t)
    exact ((ih t hshort).suffixes whole ctx base (d + 1) _ _).cons.cons
  · next loc bracket t _ =>
    apply (checkDepth_blames ctx d _).bind_whole
    intro _ _
    have hshort := Nat.lt_succ_of_lt (Front.tail_lt t)
    apply (((ih t hshort).bracket ctx (d + 1) left bracket).cons.cons).bind
    intro next
    exact (ih next.rest (Nat.lt_trans next.shorter hshort)).suffixes whole ctx base (d + 1) _ _
  · next loc t _ _ _ =>
    apply (checkDepth_blames ctx d _).bind_whole
    intro _ _
    exact (peek_eq_or_mem ctx t).imp id (List.mem_cons_of_mem _)
  · next bracket t _ =>
    apply (checkDepth_blames ctx d _).bind_whole
    intro _ _
    apply (((ih t (Front.tail_lt _)).bracket ctx (d + 1) left bracket).cons).bind
    intro next
    have hshorter : next.rest.length < _ := Nat.lt_trans next.shorter (Front.tail_lt _)
    exact (ih next.rest hshorter).suffixes whole ctx base (d + 1) _ _
  · next loc t _ =>
    apply (checkDepth_blames ctx d _).bind
    intro _
    exact ((ih t (Front.tail_lt _)).suffixes whole ctx base (d + 1) _ _).cons
  · next loc t _ =>
    apply (((ih t (Front.tail_lt _)).binding ctx base left loc).cons).bind
    exact fun body => List.Subset.refl body.rest
  · exact List.Subset.refl s

theorem parsePostfix_blames (ctx : Context) (d : Nat) : BlamesFront ctx s (parsePostfix ctx d s) := by
  rw [parsePostfix]
  apply (parsePrimary_blames ih ctx d).bind
  intro term
  exact (ih term.rest term.shorter).suffixes s ctx d d _ _

theorem parseUnary_blames (ctx : Context) (d : Nat) : BlamesFront ctx s (parseUnary ctx d s) := by
  rw [parseUnary.eq_def]
  split
  · next loc t =>
    apply ((checkDepth_blames ctx d t).bind _).cons
    intro _
    apply ((ih t (Front.tail_lt _)).unary ctx (d + 1)).bind
    exact fun operand => List.Subset.refl operand.rest
  · exact parsePostfix_blames ih ctx d

theorem parseOperation_blames (ctx : Context) (d : Nat) (op : Operator) (loc : Range)
    (left : Filter) : BlamesFront ctx s (parseOperation ctx d op loc left s) := by
  rw [parseOperation]
  apply (checkDepth_blames ctx d s).bind
  intro _
  apply (parseUnary_blames ih ctx (d + 1)).bind
  intro first
  apply ((ih first.rest first.shorter).tighter s ctx (d + 1) op.level _ _).bind
  exact fun right => List.Subset.refl right.rest

theorem parseTighter_blames (whole : List Token) (ctx : Context) (d level : Nat) (left : Filter)
    (hs : s.length < whole.length) : BlamesFront ctx s (parseTighter whole ctx d level left s hs) := by
  rw [parseTighter.eq_def]
  split
  · exact List.Subset.refl _
  · next t u _ =>
    split
    · exact List.Subset.refl _
    · next op hop =>
      split
      · exact List.Subset.refl _
      · have hu := Front.tail_lt u
        apply (((ih u hu).operation ctx d op t.range left).bind _).cons
        intro next
        have hn := Nat.lt_trans next.shorter hu
        apply ((ih next.rest hn).operators u ctx (d + 1) op.level op.isComparison _ _).bind
        intro chain
        exact (ih chain.rest (Nat.lt_trans chain.shorter hu)).tighter whole ctx d level _ _

theorem parseOperators_blames (whole : List Token) (ctx : Context) (d least : Nat)
    (compared : Bool) (left : Filter) (hs : s.length < whole.length) :
    BlamesFront ctx s (parseOperators whole ctx d least compared left s hs) := by
  rw [parseOperators.eq_def]
  split
  · exact List.Subset.refl _
  · next t u _ =>
    split
    · exact List.Subset.refl _
    · next op hop =>
      split
      · exact List.Subset.refl _
      · split
        · exact .inr List.mem_cons_self
        · have hu := Front.tail_lt u
          apply (((ih u hu).operation ctx d op t.range left).bind _).cons
          intro next
          exact (ih next.rest (Nat.lt_trans next.shorter hu)).operators whole ctx (d + 1) least
            op.isComparison _ _

theorem parseAlternative_blames (ctx : Context) (d : Nat) :
    BlamesFront ctx s (parseAlternative ctx d s) := by
  rw [parseAlternative]
  apply (parseUnary_blames ih ctx d).bind
  intro first
  apply ((ih first.rest first.shorter).operators s ctx d 1 false _ _).bind
  intro left
  have hshort := left.shorter
  dsimp only
  split
  · next loc t ht =>
    apply Blames.of_cons ht
    apply (checkDepth_blames ctx d t).bind
    intro _
    rw [ht] at hshort
    apply ((ih t (Nat.lt_trans (Front.tail_lt t) hshort)).alternative ctx (d + 1)).bind
    exact fun right => List.Subset.refl right.rest
  · exact List.Subset.refl left.rest

theorem parseCommaTail_blames (whole : List Token) (ctx : Context) (d : Nat) (left : Filter)
    (hs : s.length < whole.length) : BlamesFront ctx s (parseCommaTail whole ctx d left s hs) := by
  rw [parseCommaTail.eq_def]
  split
  · next loc t _ =>
    have ht := Front.tail_lt t
    apply ((checkDepth_blames ctx d t).bind _).cons
    intro _
    apply ((ih t ht).alternative ctx (d + 1)).bind
    intro right
    exact (ih right.rest (Nat.lt_trans right.shorter ht)).commaTail whole ctx (d + 1) _ _
  · exact List.Subset.refl _

theorem parseComma_blames (ctx : Context) (d : Nat) : BlamesFront ctx s (parseComma ctx d s) := by
  rw [parseComma]
  apply (parseAlternative_blames ih ctx d).bind
  intro first
  exact (ih first.rest first.shorter).commaTail s ctx d _ _

theorem parsePipe_blames (ctx : Context) (d : Nat) : BlamesFront ctx s (parsePipe ctx d s) := by
  rw [parsePipe]
  apply (checkDepth_blames ctx d s).bind
  intro _
  apply (parseComma_blames ih ctx (d + 1)).bind
  intro left
  have hshort := left.shorter
  dsimp only
  split
  · next loc t ht =>
    apply Blames.of_cons ht
    rw [ht] at hshort
    apply ((ih t (Nat.lt_trans (Front.tail_lt t) hshort)).pipe ctx (d + 1)).bind
    exact fun right => List.Subset.refl right.rest
  · exact List.Subset.refl left.rest

theorem parseBinding_blames (ctx : Context) (d : Nat) (source : Filter) (loc : Range) :
    BlamesFront ctx s (parseBinding ctx d source loc s) := by
  rw [parseBinding.eq_def]
  split
  · next name nameLoc t =>
    apply ((expect_blames (fun _ => rfl) t).bind _).cons
    intro u
    have hshort := Nat.lt_trans u.2 (Front.tail_lt t)
    apply ((ih u.1 hshort).pipe ⟨name :: ctx.scope, ctx.finish⟩ d).bind
    exact fun body => List.Subset.refl body.rest
  · exact peek_eq_or_mem ctx s

theorem parseBracket_blames (ctx : Context) (d : Nat) (target : Filter) (loc : Range) :
    BlamesFront ctx s (parseBracket ctx d target loc s) := by
  rw [parseBracket.eq_def]
  split
  · exact List.subset_cons_self _ _
  · next colon t =>
    apply (((ih t (Front.tail_lt _)).pipe ctx d).bind _).cons
    intro high
    apply (expect_blames (fun _ => rfl) high.rest).bind
    exact fun u => List.Subset.refl u.1
  · apply (parsePipe_blames ih ctx d).bind
    intro key
    have hshort := key.shorter
    dsimp only
    split
    · next colon close t ht =>
      apply Blames.of_cons ht
      exact List.subset_cons_self _ _
    · next colon t _ ht =>
      apply Blames.of_cons ht
      rw [ht] at hshort
      apply ((ih t (Nat.lt_trans (Front.tail_lt t) hshort)).pipe ctx d).bind
      intro high
      apply (expect_blames (fun _ => rfl) high.rest).bind
      exact fun u => List.Subset.refl u.1
    · apply (expect_blames (fun _ => rfl) _).bind
      exact fun u => List.Subset.refl u.1

theorem parseArgs_blames (whole : List Token) (ctx : Context) (d : Nat) (taken : List Filter)
    (hs : s.length ≤ whole.length) : BlamesFront ctx s (parseArgs whole ctx d taken s hs) := by
  rw [parseArgs.eq_def]
  apply (parsePipe_blames ih ctx d).bind
  intro arg
  have hshort := arg.shorter
  dsimp only
  split
  · next loc t ht =>
    rw [ht] at hshort
    exact .of_cons ht ((ih t (Nat.lt_trans (Front.tail_lt t) hshort)).args whole ctx d _ _)
  · next loc t ht => exact .of_cons ht (List.Subset.refl t)
  · exact peek_eq_or_mem ctx arg.rest

theorem parseBranches_blames (whole : List Token) (ctx : Context) (d : Nat) (loc : Range)
    (taken : List (Filter × Filter)) (hs : s.length ≤ whole.length) :
    BlamesFront ctx s (parseBranches whole ctx d loc taken s hs) := by
  rw [parseBranches.eq_def]
  apply (parsePipe_blames ih ctx d).bind
  intro test
  apply (expect_blames (fun _ => rfl) test.rest).bind
  intro r
  have hr := Nat.lt_trans r.2 test.shorter
  apply ((ih r.1 hr).pipe ctx d).bind
  intro body
  have hshort := Nat.lt_trans body.shorter hr
  dsimp only
  split
  · next elifLoc t ht =>
    rw [ht] at hshort
    exact .of_cons ht ((ih t (Nat.lt_trans (Front.tail_lt t) hshort)).branches whole ctx d loc _ _)
  · next elseLoc t ht =>
    rw [ht] at hshort
    apply Blames.of_cons ht
    apply ((ih t (Nat.lt_trans (Front.tail_lt t) hshort)).pipe ctx d).bind
    intro otherwise
    apply (expect_blames (fun _ => rfl) otherwise.rest).bind
    exact fun u => List.Subset.refl u.1
  · next endLoc t ht => exact .of_cons ht (List.Subset.refl t)
  · exact peek_eq_or_mem ctx body.rest

theorem parseEntryPipes_blames (whole : List Token) (ctx : Context) (d : Nat) (left : Filter)
    (hs : s.length < whole.length) : BlamesFront ctx s (parseEntryPipes whole ctx d left s hs) := by
  rw [parseEntryPipes.eq_def]
  split
  · next loc t _ =>
    have ht := Front.tail_lt t
    apply ((checkDepth_blames ctx d t).bind _).cons
    intro _
    apply ((ih t ht).alternative ctx (d + 1)).bind
    intro right
    exact (ih right.rest (Nat.lt_trans right.shorter ht)).entryPipes whole ctx (d + 1) _ _
  · exact List.Subset.refl _

theorem parseEntryValue_blames (ctx : Context) (d : Nat) :
    BlamesFront ctx s (parseEntryValue ctx d s) := by
  rw [parseEntryValue]
  apply (parseAlternative_blames ih ctx d).bind
  intro first
  exact (ih first.rest first.shorter).entryPipes s ctx d _ _

theorem parseEntry_blames (ctx : Context) (d : Nat) : BlamesFront ctx s (parseEntry ctx d s) := by
  rw [parseEntry.eq_def]
  split
  · exact .inl rfl
  · next name loc t =>
    exact (variableNode_blames ctx _ name t).bind fun v => List.Subset.refl t
  · next openLoc t =>
    apply (((ih t (Front.tail_lt _)).pipe ctx d).bind _).cons
    intro key
    apply (expect_blames (fun _ => rfl) key.rest).bind
    intro u
    apply (expect_blames (fun _ => rfl) u.1).bind
    intro w
    have hkey := Nat.lt_trans key.shorter (Front.tail_lt t)
    have hshort := Nat.lt_trans (Nat.lt_trans w.2 u.2) hkey
    apply ((ih w.1 hshort).entryValue ctx d).bind
    exact fun v => List.Subset.refl v.rest
  · exact .inr List.mem_cons_self
  · next kind loc t _ _ _ =>
    split
    · exact .inr List.mem_cons_self
    · next word hword =>
      split
      · next colon u =>
        have hshort := Nat.lt_succ_of_lt (Front.tail_lt u)
        apply (((ih u hshort).entryValue ctx d).bind _).cons.cons
        exact fun v => List.Subset.refl v.rest
      · exact List.subset_cons_self _ _

theorem parseEntries_blames (whole : List Token) (ctx : Context) (d : Nat)
    (taken : List (Filter × Filter)) (hs : s.length ≤ whole.length) :
    BlamesFront ctx s (parseEntries whole ctx d taken s hs) := by
  rw [parseEntries.eq_def]
  apply (parseEntry_blames ih ctx d).bind
  intro entry
  have hshort := entry.shorter
  dsimp only
  split
  · next loc t ht =>
    rw [ht] at hshort
    exact .of_cons ht ((ih t (Nat.lt_trans (Front.tail_lt t) hshort)).entries whole ctx d _ _)
  · next loc t ht => exact .of_cons ht (List.Subset.refl t)
  · exact peek_eq_or_mem ctx entry.rest

end

/-- The parser blames only the end and tokens that it read. -/
theorem blamesAt (s : List Token) : BlamesAt s := by
  induction hn : s.length using Nat.strongRecOn generalizing s with
  | ind n ih =>
    subst hn
    have ih' : ∀ r : List Token, r.length < s.length → BlamesAt r := fun r hr => ih _ hr r rfl
    exact {
      pipe := parsePipe_blames ih'
      commaTail := parseCommaTail_blames ih'
      alternative := parseAlternative_blames ih'
      operators := parseOperators_blames ih'
      operation := parseOperation_blames ih'
      tighter := parseTighter_blames ih'
      unary := parseUnary_blames ih'
      term := parsePostfix_blames ih'
      suffixes := parseSuffixes_blames ih'
      bracket := parseBracket_blames ih'
      binding := parseBinding_blames ih'
      args := parseArgs_blames ih'
      branches := parseBranches_blames ih'
      entries := parseEntries_blames ih'
      entryValue := parseEntryValue_blames ih'
      entryPipes := parseEntryPipes_blames ih' }

/-- An error of the parser names a token of the text or the one that stands for its end. -/
theorem ofTokens_blames (globals : List String) (tokens : List Token) :
    Blames (finishOf tokens) tokens (fun _ => []) (Filter.ofTokens globals tokens) := by
  unfold Filter.ofTokens
  dsimp only
  split
  · exact List.nil_subset tokens
  · apply ((blamesAt tokens).pipe ⟨globals, finishOf tokens⟩ 0).bind
    intro filter
    split
    · exact List.nil_subset _
    · exact peek_eq_or_mem ⟨globals, finishOf tokens⟩ filter.rest

end JsonFilter.Filter.Parser
