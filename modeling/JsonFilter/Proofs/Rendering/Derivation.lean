import JsonFilter.Proofs.Grammar.Precedence
import JsonFilter.Proofs.Rendering.Tokens
import JsonFilter.Proofs.Scope

/-!
From the tokens of a filter's text back to the filter. Most texts have brackets of their own or are a
single token, so the rules of the grammar derive the filter wherever its text stands (`Rendered`).
The text of an attempt has none and goes on with what follows, and a key of an object is read by
rules of its own; `isFaithful` says where such a filter stands for itself.
-/

namespace JsonFilter

namespace Builtin

theorem mem_list (b : Builtin) : b ∈ list := by
  cases b <;> decide

theorem name_injective : Function.Injective name := by
  have hnodup : (list.map name).Nodup := by decide +kernel
  intro a b hab
  exact List.inj_on_of_nodup_map hnodup a.mem_list b.mem_list hab

/-- A builtin is found by its name. -/
theorem find?_of_accepts {b : Builtin} {arity : Nat} (h : b.accepts arity) :
    find? b.name arity = some b := by
  have hfound : (find? b.name arity).isSome :=
    List.find?_isSome.mpr ⟨b, b.mem_list, by rw [beq_self_eq_true, h]; rfl⟩
  obtain ⟨a, ha⟩ := Option.isSome_iff_exists.mp hfound
  have hname := List.find?_some ha
  rw [Bool.and_eq_true, beq_iff_eq] at hname
  rw [ha, name_injective hname.1]

end Builtin

namespace Filter

/-! ## Texts that do not end -/

def isAttempt : Filter → Bool
  | .attempt _ _ _ => true
  | _ => false

/-- Whether a `catch` after the text of a filter would belong to an attempt at its end. -/
def dangles : Filter → Bool
  | .attempt _ _ none => true
  | .attempt _ _ (some handler) => handler.dangles
  | _ => false

/-- Whether the text of a filter has parentheses around it. -/
def isEnclosed : Filter → Bool
  | .pipe _ _ _ => true
  | .comma _ _ _ => true
  | .alternative _ _ _ => true
  | .and _ _ _ => true
  | .or _ _ _ => true
  | .binary _ _ _ _ => true
  | .negate _ _ => true
  | .bind _ _ _ _ => true
  | _ => false

/-- Whether the text of a filter is read as this filter where a key of an object stands. -/
def isKey : Filter → Bool
  | .literal _ (.string _) => true
  | f => f.isEnclosed

/-- Whether the parts of a filter stand where their text is read as these parts: no suffix and no
`as` follows an attempt, no `catch` follows one that it does not belong to, and every key of an
object is a string or has parentheses. -/
def isFaithful : Filter → Bool
  | .index _ target _ => !target.isAttempt
  | .slice _ target _ _ => !target.isAttempt
  | .iterate _ target => !target.isAttempt
  | .bind _ source _ _ => !source.isAttempt
  | .attempt _ body (some _) => !body.dangles
  | .object _ entries => entries.all fun e => e.1.isKey
  | _ => true

theorem Joint.strip_apply (j : Joint) (change : Number → Number) (loc : Range) (f g : Filter) :
    (j.apply loc f g).strip change = j.apply default (f.strip change) (g.strip change) := by
  cases j <;> rfl

theorem length_stripList (change : Number → Number) (fs : List Filter) :
    (stripList change fs).length = fs.length := by
  induction fs with
  | nil => rfl
  | cons f fs ih => rw [stripList, List.length_cons, List.length_cons, ih]

namespace Parser

/-! ## What may follow -/

theorem opensSuffix_of_closes {k : Token.Kind} (h : closes k = true) : opensSuffix k = false := by
  unfold closes at h
  split at h
  · cases h
  · cases h
  · cases h
  · simpa using h

/-- The next token continues neither a `.` nor a name. -/
def Plain (r : List Token) : Prop :=
  (∀ name, nextKind? r ≠ some (.string name)) ∧ nextKind? r ≠ some (.symbol .openParen)

/-- The next token may follow a filter, or begins a handler that belongs to an attempt around it. -/
def Stops (dangling : Bool) (r : List Token) : Prop :=
  ∀ k, nextKind? r = some k → closes k = true ∨ k = .keyword .catchWord ∧ dangling = false

section
variable {dangling : Bool} {level : Nat} {k : Token.Kind} {loc : Range} {r : List Token}

theorem Follows.stops (h : Follows level r) : Stops dangling r := fun k hk => .inl (h k hk).1

theorem Stops.plain (h : Stops dangling r) : Plain r := by
  refine ⟨fun name hk => ?_, fun hk => ?_⟩
  · rcases h _ hk with hcloses | ⟨hcatch, _⟩
    · cases hcloses
    · cases hcatch
  · rcases h _ hk with hcloses | ⟨hcatch, _⟩
    · cases hcloses
    · cases hcatch

theorem Stops.suffixes_nil (h : Stops dangling r) {scope : List String} {d : Nat} (base : Nat)
    (f : Filter) : Any scope d (.suffixes base f f) r r := by
  refine .suffixes_nil fun k hk => ?_
  rcases h k hk with hcloses | ⟨rfl, _⟩
  · exact opensSuffix_of_closes hcloses
  · rfl

theorem stops_catch : Stops false (⟨.keyword .catchWord, loc⟩ :: r) := by
  intro k hk
  exact .inr ⟨(Option.some.inj hk).symm, rfl⟩

theorem Stops.mono (h : Stops true r) : Stops dangling r := by
  intro k hk
  rcases h k hk with hcloses | ⟨_, hfalse⟩
  · exact .inl hcloses
  · cases hfalse

theorem plain_cons (h : closes k = true ∨ opensSuffix k = true) : Plain (⟨k, loc⟩ :: r) := by
  refine ⟨fun name hk => ?_, fun hk => ?_⟩ <;>
    obtain rfl := Option.some.inj hk <;> rcases h with h | h <;> cases h

end

/-- An operand that no operator joins, where no operator follows. -/
theorem pipe_of_unary {scope : List String} {f : Filter} {s r : List Token} (hr : Follows 0 r)
    (h : ∀ d, Any scope d (.unary f) s r) (d : Nat) : Any scope d (.pipe f) s r := by
  have hnone (op : Operator) (hop : nextOperator? r = some op) : op.level < 1 := by
    have hle := hr.nextOperator?_le hop
    rw [op.joint_left] at hle
    cases hle
  have halternative : Any scope (d + 1) (.alternative f) s r :=
    .alternative_last (h (d + 1)) (.operators_nil hnone)
      (hr.nextKind?_ne .alternative (by decide))
  exact .pipe_last trivial (.comma halternative (.commaTail_nil (hr.nextKind?_ne .comma (by decide))))
    (hr.nextKind?_ne .pipe (by decide))

/-! ## Filters from their tokens -/

/-- A filter begins with a token of this kind, which is not told for the end of what is around the
filter. -/
def starts (k : Token.Kind) : Bool :=
  match k with
  | .symbol .minus | .symbol .closeBracket | .symbol .colon | .symbol .closeBrace => false
  | _ => true

/-- The tokens of a filter's text derive it: as a term, whatever may follow, with suffixes unless it
is an attempt, and what is in its parentheses, if it has some, as a pipe. -/
structure Rendered (scope : List String) (f g : Filter) (s : List Token) : Prop where
  shown : g.bare = f.shown
  begins : ∃ t u, s = t :: u ∧ starts t.kind = true
  head : f.isAttempt = false → ∀ r, Plain r → ∀ d h u,
    (∀ e, Any scope e (.suffixes d g h) r u) → Any scope d (.term h) (s ++ r) u
  term : ∀ r, Stops f.dangles r → ∀ d, Any scope d (.term g) (s ++ r) r
  enclosed : f.isEnclosed = true → ∃ openLoc u close,
    s = ⟨.symbol .openParen, openLoc⟩ :: (u ++ [⟨.symbol .closeParen, close⟩]) ∧ Taken scope 0 g u

/-- What the rules derive from the arguments of a call. -/
def ArgsRendered (scope : List String) (fs gs : List Filter) (s : List Token) : Prop :=
  stripList id gs = stripList Number.capped fs ∧
    ∀ close r d, Any scope d (.args gs) (s ++ ⟨.symbol .closeParen, close⟩ :: r) r

/-- What the rules derive from the entries of an object. -/
structure EntriesRendered (scope : List String) (es fs : List (Filter × Filter)) (s : List Token) :
    Prop where
  shown : stripPairs id fs = stripPairs Number.capped es
  nextKind?_ne : ∀ r, nextKind? (s ++ r) ≠ some (.symbol .closeBrace)
  entries : ∀ close r d, Any scope d (.entries fs) (s ++ ⟨.symbol .closeBrace, close⟩ :: r) r

/-- A condition ends after its branches: with `end`, or with `else` and what is done otherwise. -/
inductive Closing (scope : List String) (d : Nat) :
    (otherwise : Option Filter) → (r u : List Token) → Prop where
  | last {loc u} : Closing scope d none (⟨.keyword .endWord, loc⟩ :: u) u
  | otherwise {f loc endLoc r u} : Any scope d (.pipe f) r (⟨.keyword .endWord, endLoc⟩ :: u) →
      Closing scope d (some f) (⟨.keyword .elseWord, loc⟩ :: r) u

/-- What the rules derive from the branches of a condition. -/
def BranchesRendered (scope : List String) (bs cs : List (Filter × Filter)) (s : List Token) : Prop :=
  stripPairs id cs = stripPairs Number.capped bs ∧
    ∀ {otherwise r u d}, Closing scope d otherwise r u →
      Any scope d (.branches cs otherwise) (s ++ r) u

namespace Rendered

variable {scope : List String} {f g f' g' : Filter} {s u : List Token} {loc loc' : Range}

theorem nextKind?_ne (h : Rendered scope f g s) {k : Token.Kind} (hk : starts k = false)
    (r : List Token) : nextKind? (s ++ r) ≠ some k := by
  obtain ⟨t, u, rfl, ht⟩ := h.begins
  intro hnext
  obtain rfl : t.kind = k := Option.some.inj hnext
  rw [hk] at ht
  cases ht

theorem taken (h : Rendered scope f g s) (level : Nat) (hl : level ≤ atomLevel) :
    Taken scope level g s := by
  have hatom : Taken scope atomLevel g s :=
    .of_unary fun r hr d => .unary_term (h.nextKind?_ne rfl r) (h.term r hr.stops d)
  exact hatom.of_le hl

theorem pipe (h : Rendered scope f g s) {r : List Token} (hr : Follows 0 r) (d : Nat) :
    Any scope d (.pipe g) (s ++ r) r :=
  h.taken 0 (Nat.zero_le _) r hr d

/-- A filter that any suffix may follow. -/
theorem of_head (hshown : g.bare = f.shown) (hbegins : ∃ t u, s = t :: u ∧ starts t.kind = true)
    (hhead : ∀ r, Plain r → ∀ d h u, (∀ e, Any scope e (.suffixes d g h) r u) →
      Any scope d (.term h) (s ++ r) u)
    (henclosed : f.isEnclosed = true → ∃ openLoc u close,
      s = ⟨.symbol .openParen, openLoc⟩ :: (u ++ [⟨.symbol .closeParen, close⟩]) ∧
        Taken scope 0 g u) : Rendered scope f g s where
  shown := hshown
  begins := hbegins
  head _ := hhead
  term r hr d := hhead r hr.plain d g r fun _ => hr.suffixes_nil d g
  enclosed := henclosed

theorem of_primary (hshown : g.bare = f.shown)
    (hbegins : ∃ t u, s = t :: u ∧ starts t.kind = true) (henclosed : f.isEnclosed = false)
    (hprimary : ∀ r, Plain r → ∀ d, Any scope d (.primary g) (s ++ r) r) :
    Rendered scope f g s := by
  refine of_head hshown hbegins (fun r hr d _ _ hsuffixes => .term (hprimary r hr d) (hsuffixes d))
    fun h => ?_
  rw [henclosed] at h
  cases h

/-- A filter in parentheses. -/
theorem paren (hshown : g.bare = f.shown) (h : Taken scope 0 g s) (openLoc close : Range) :
    Rendered scope f g (⟨.symbol .openParen, openLoc⟩ :: (s ++ [⟨.symbol .closeParen, close⟩])) := by
  refine of_head hshown ⟨_, _, rfl, rfl⟩ (fun r _ d k v hsuffixes => ?_)
    fun _ => ⟨openLoc, s, close, rfl, h⟩
  rw [List.cons_append, List.append_assoc]
  exact .term (.primary_paren (h _ (.of_closes rfl rfl) d)) (hsuffixes d)

theorem joined (j : Joint) (hf : Rendered scope f g s) (hf' : Rendered scope f' g' u)
    (openLoc close : Range) : Rendered scope (j.apply loc f f') (j.apply loc' g g')
      (⟨.symbol .openParen, openLoc⟩ ::
        ((s ++ ⟨j.kind, loc'⟩ :: u) ++ [⟨.symbol .closeParen, close⟩])) := by
  have hjoin : Taken scope j.level (j.apply loc' g g') (s ++ ⟨j.kind, loc'⟩ :: u) :=
    .join j (hf.taken _ j.left_le_atomLevel) (hf'.taken _ j.right_le_atomLevel)
  refine paren ?_ (hjoin.of_le (Nat.zero_le _)) openLoc close
  show strip id _ = strip Number.capped _
  rw [Joint.strip_apply, Joint.strip_apply]
  exact congrArg₂ (j.apply default) hf.shown hf'.shown

theorem negate (hf : Rendered scope f g s) (openLoc close : Range) :
    Rendered scope (.negate loc f) (.negate loc' g)
      (⟨.symbol .openParen, openLoc⟩ ::
        ((⟨.symbol .minus, loc'⟩ :: s) ++ [⟨.symbol .closeParen, close⟩])) := by
  have hnegate : Taken scope negateLevel (.negate loc' g) (⟨.symbol .minus, loc'⟩ :: s) :=
    (hf.taken negateLevel (by decide)).negate
  have hshown : (Filter.negate loc' g).bare = (Filter.negate loc f).shown :=
    congrArg (Filter.negate default) hf.shown
  exact paren hshown (hnegate.of_le (Nat.zero_le _)) openLoc close

/-- A binding in parentheses, which takes all that is before the closing one. -/
theorem bind {name : String} {nameLoc pipe : Range} (hf : Rendered scope f g s)
    (hattempt : f.isAttempt = false) (hf' : Rendered (name :: scope) f' g' u)
    (openLoc close : Range) : Rendered scope (.bind loc f name f') (.bind loc' g name g')
      (⟨.symbol .openParen, openLoc⟩ ::
        ((s ++ ⟨.keyword .asWord, loc'⟩ :: ⟨.binding name, nameLoc⟩ :: ⟨.symbol .pipe, pipe⟩ :: u) ++
          [⟨.symbol .closeParen, close⟩])) := by
  have hshown : (Filter.bind loc' g name g').bare = (Filter.bind loc f name f').shown :=
    congrArg₂ (Filter.bind default · name ·) hf.shown hf'.shown
  refine paren hshown (fun r hr d => ?_) openLoc close
  rw [List.append_assoc]
  refine pipe_of_unary hr (fun e => .unary_term (hf.nextKind?_ne rfl _) ?_) d
  exact hf.head hattempt _ (plain_cons (.inr rfl)) e _ _ fun _ =>
    .suffixes_binding (.binding (hf'.pipe hr e))

theorem suffix {bracket : Range} (hf : Rendered scope f g s) (hattempt : f.isAttempt = false)
    (hshown : g'.bare = f'.shown) (henclosed : f'.isEnclosed = false)
    (hbracket : ∀ r d, Any scope d (.bracket g bracket g') (u ++ r) r) :
    Rendered scope f' g' (s ++ ⟨.symbol .openBracket, bracket⟩ :: u) := by
  obtain ⟨t, v, rfl, ht⟩ := hf.begins
  refine of_head hshown ⟨t, _, rfl, ht⟩ (fun r _ d k w hsuffixes => ?_) fun h => ?_
  · rw [List.append_assoc, List.cons_append]
    exact hf.head hattempt _ (plain_cons (.inr rfl)) d k w fun e =>
      .suffixes_bracket trivial (hbracket r (e + 1)) (hsuffixes (e + 1))
  · rw [henclosed] at h
    cases h

/-! ### Brackets after a filter -/

theorem iterate {bracket close : Range} (hf : Rendered scope f g s)
    (hattempt : f.isAttempt = false) : Rendered scope (.iterate loc f) (.iterate bracket g)
      (s ++ [⟨.symbol .openBracket, bracket⟩, ⟨.symbol .closeBracket, close⟩]) := by
  have hshown : (Filter.iterate bracket g).bare = (Filter.iterate loc f).shown :=
    congrArg (Filter.iterate default) hf.shown
  exact hf.suffix hattempt hshown rfl fun _ _ => .bracket_iterate

section
variable {bracket colon close : Range} (hf : Rendered scope f g s) (hattempt : f.isAttempt = false)
variable {k j k' j' : Filter} {v w : List Token}
include hf hattempt

theorem index (hk : Rendered scope k j v) : Rendered scope (.index loc f k) (.index bracket g j)
    (s ++ ⟨.symbol .openBracket, bracket⟩ :: (v ++ [⟨.symbol .closeBracket, close⟩])) := by
  have hshown : (Filter.index bracket g j).bare = (Filter.index loc f k).shown :=
    congrArg₂ (Filter.index default) hf.shown hk.shown
  refine hf.suffix hattempt hshown rfl fun r d => ?_
  rw [List.append_assoc]
  exact .bracket_key (hk.nextKind?_ne rfl _) (hk.nextKind?_ne rfl _) (hk.pipe (.of_closes rfl rfl) d)

theorem slice_low (hk : Rendered scope k j v) :
    Rendered scope (.slice loc f (some k) none) (.slice bracket g (some j) none)
      (s ++ ⟨.symbol .openBracket, bracket⟩ ::
        ((v ++ [⟨.symbol .colon, colon⟩]) ++ [⟨.symbol .closeBracket, close⟩])) := by
  have hshown : (Filter.slice bracket g (some j) none).bare =
      (Filter.slice loc f (some k) none).shown :=
    congrArg₂ (fun f k => Filter.slice default f (some k) none) hf.shown hk.shown
  refine hf.suffix hattempt hshown rfl fun r d => ?_
  rw [List.append_assoc, List.append_assoc]
  exact .bracket_low (hk.nextKind?_ne rfl _) (hk.nextKind?_ne rfl _) (hk.pipe (.of_closes rfl rfl) d)

theorem slice_high (hk : Rendered scope k j v) :
    Rendered scope (.slice loc f none (some k)) (.slice bracket g none (some j))
      (s ++ ⟨.symbol .openBracket, bracket⟩ ::
        ((⟨.symbol .colon, colon⟩ :: v) ++ [⟨.symbol .closeBracket, close⟩])) := by
  have hshown : (Filter.slice bracket g none (some j)).bare =
      (Filter.slice loc f none (some k)).shown :=
    congrArg₂ (fun f k => Filter.slice default f none (some k)) hf.shown hk.shown
  refine hf.suffix hattempt hshown rfl fun r d => ?_
  rw [List.append_assoc]
  exact .bracket_high (hk.pipe (.of_closes rfl rfl) d)

theorem slice_both (hk : Rendered scope k j v) (hk' : Rendered scope k' j' w) :
    Rendered scope (.slice loc f (some k) (some k')) (.slice bracket g (some j) (some j'))
      (s ++ ⟨.symbol .openBracket, bracket⟩ ::
        ((v ++ ⟨.symbol .colon, colon⟩ :: w) ++ [⟨.symbol .closeBracket, close⟩])) := by
  have hshown : (Filter.slice bracket g (some j) (some j')).bare =
      (Filter.slice loc f (some k) (some k')).shown := by
    show Filter.slice default g.bare (some j.bare) (some j'.bare) = _
    rw [hf.shown, hk.shown, hk'.shown]
    rfl
  refine hf.suffix hattempt hshown rfl fun r d => ?_
  rw [List.append_assoc, List.append_assoc]
  exact .bracket_both (hk.nextKind?_ne rfl _) (hk.nextKind?_ne rfl _)
    (hk.pipe (.of_closes rfl rfl) d) (hk'.nextKind?_ne rfl _) (hk'.pipe (.of_closes rfl rfl) d)

end

/-! ### Filters that begin with a token of their own -/

theorem identity (h : s.map Token.kind = [.symbol .dot]) :
    ∃ g, Rendered scope (.identity loc) g s := by
  obtain ⟨⟨_, loc'⟩, rfl, rfl⟩ := List.map_eq_singleton_iff.mp h
  exact ⟨.identity loc', of_primary rfl ⟨_, _, rfl, rfl⟩ rfl fun r hr _ => .primary_identity hr.1⟩

theorem recurse (h : s.map Token.kind = [.symbol .dotDot]) :
    ∃ g, Rendered scope (.recurse loc) g s := by
  obtain ⟨⟨_, loc'⟩, rfl, rfl⟩ := List.map_eq_singleton_iff.mp h
  exact ⟨.recurse loc', of_primary rfl ⟨_, _, rfl, rfl⟩ rfl fun _ _ _ => .primary_recurse⟩

theorem literal (l : Literal) (h : s.map Token.kind = [literalKind (l.mapNumber Number.capped)]) :
    ∃ g, Rendered scope (.literal loc l) g s := by
  obtain ⟨⟨_, loc'⟩, rfl, rfl⟩ := List.map_eq_singleton_iff.mp h
  have hstarts : starts (literalKind (l.mapNumber Number.capped)) = true := by
    rcases l with _ | (_ | _) | _ | _ <;> rfl
  have hliteral : literal? (literalKind (l.mapNumber Number.capped)) =
      some (l.mapNumber Number.capped) := by
    rcases l with _ | (_ | _) | _ | _ <;> rfl
  have hshown : (Filter.literal loc' (l.mapNumber Number.capped)).bare =
      (Filter.literal loc l).shown := by
    rcases l with _ | _ | _ | _ <;> rfl
  exact ⟨_, of_primary hshown ⟨_, _, rfl, hstarts⟩ rfl fun _ _ _ => .primary_literal hliteral⟩

theorem var {name : String} (hname : name ∈ scope) (h : s.map Token.kind = [.binding name]) :
    ∃ g, Rendered scope (.var loc name) g s := by
  obtain ⟨⟨_, loc'⟩, rfl, rfl⟩ := List.map_eq_singleton_iff.mp h
  exact ⟨.var loc' name, of_primary rfl ⟨_, _, rfl, rfl⟩ rfl fun _ _ _ => .primary_var hname⟩

theorem emptyArray {close : Range} : Rendered scope (.array loc none) (.array loc' none)
    [⟨.symbol .openBracket, loc'⟩, ⟨.symbol .closeBracket, close⟩] :=
  of_primary rfl ⟨_, _, rfl, rfl⟩ rfl fun _ _ _ => .primary_emptyArray

theorem array {close : Range} (hf : Rendered scope f g s) :
    Rendered scope (.array loc (some f)) (.array loc' (some g))
      (⟨.symbol .openBracket, loc'⟩ :: (s ++ [⟨.symbol .closeBracket, close⟩])) := by
  have hshown : (Filter.array loc' (some g)).bare = (Filter.array loc (some f)).shown :=
    congrArg (fun f => Filter.array default (some f)) hf.shown
  refine of_primary hshown ⟨_, _, rfl, rfl⟩ rfl fun r _ d => ?_
  rw [List.cons_append, List.append_assoc]
  exact .primary_array (hf.nextKind?_ne rfl _) (hf.pipe (.of_closes rfl rfl) d)

theorem attempt (hf : Rendered scope f g s) :
    Rendered scope (.attempt loc f none) (.attempt loc' g none) (⟨.keyword .tryWord, loc'⟩ :: s) where
  shown := congrArg (fun f => Filter.attempt default f none) hf.shown
  begins := ⟨_, _, rfl, rfl⟩
  head h := by cases h
  term r hr d := by
    refine .term (.primary_try trivial (hf.term r hr.mono (d + 1)) fun hcatch => ?_)
      (hr.suffixes_nil d _)
    rcases hr _ hcatch with hcloses | ⟨_, hfalse⟩
    · cases hcloses
    · cases hfalse
  enclosed h := by cases h

theorem attempt_catch {catchLoc : Range} (hf : Rendered scope f g s) (hdangles : f.dangles = false)
    (hf' : Rendered scope f' g' u) :
    Rendered scope (.attempt loc f (some f')) (.attempt loc' g (some g'))
      (⟨.keyword .tryWord, loc'⟩ :: (s ++ ⟨.keyword .catchWord, catchLoc⟩ :: u)) where
  shown := congrArg₂ (fun f f' => Filter.attempt default f (some f')) hf.shown hf'.shown
  begins := ⟨_, _, rfl, rfl⟩
  head h := by cases h
  term r hr d := by
    have hbody := hf.term (⟨.keyword .catchWord, catchLoc⟩ :: (u ++ r)) (hdangles ▸ stops_catch) (d + 1)
    rw [List.cons_append, List.append_assoc]
    exact .term (.primary_tryCatch trivial hbody (hf'.term r hr (d + 1))) (hr.suffixes_nil d _)
  enclosed h := by cases h

theorem name {b : Builtin} (hb : b.accepts 0) (h : s.map Token.kind = [.name b.name]) :
    ∃ g, Rendered scope (.call loc b []) g s := by
  obtain ⟨⟨_, loc'⟩, rfl, rfl⟩ := List.map_eq_singleton_iff.mp h
  exact ⟨.call loc' b [], of_primary rfl ⟨_, _, rfl, rfl⟩ rfl fun r hr _ =>
    .primary_name hr.2 (Builtin.find?_of_accepts hb)⟩

/-! ### Filters with lists of parts -/

theorem call {b : Builtin} {fs gs : List Filter} {openLoc close : Range}
    (hb : b.accepts fs.length) (hfs : ArgsRendered scope fs gs s) :
    Rendered scope (.call loc b fs) (.call loc' b gs)
      (⟨.name b.name, loc'⟩ :: ⟨.symbol .openParen, openLoc⟩ ::
        (s ++ [⟨.symbol .closeParen, close⟩])) := by
  have hshown : (Filter.call loc' b gs).bare = (Filter.call loc b fs).shown :=
    congrArg (Filter.call default b) hfs.1
  have hlength : gs.length = fs.length := by
    rw [← length_stripList id gs, hfs.1, length_stripList]
  refine of_primary hshown ⟨_, _, rfl, rfl⟩ rfl fun r _ d => ?_
  rw [List.cons_append, List.cons_append, List.append_assoc]
  exact .primary_call (hfs.2 close r d) (Builtin.find?_of_accepts (hlength ▸ hb))

theorem emptyObject {close : Range} : Rendered scope (.object loc []) (.object loc' [])
    [⟨.symbol .openBrace, loc'⟩, ⟨.symbol .closeBrace, close⟩] :=
  of_primary rfl ⟨_, _, rfl, rfl⟩ rfl fun _ _ _ => .primary_emptyObject

theorem object {es fs : List (Filter × Filter)} {close : Range} (h : EntriesRendered scope es fs s) :
    Rendered scope (.object loc es) (.object loc' fs)
      (⟨.symbol .openBrace, loc'⟩ :: (s ++ [⟨.symbol .closeBrace, close⟩])) := by
  have hshown : (Filter.object loc' fs).bare = (Filter.object loc es).shown :=
    congrArg (Filter.object default) h.shown
  refine of_primary hshown ⟨_, _, rfl, rfl⟩ rfl fun r _ d => ?_
  rw [List.cons_append, List.append_assoc]
  exact .primary_object (h.nextKind?_ne _) (h.entries close r d)

theorem cond {bs cs : List (Filter × Filter)} {o o' : Option Filter}
    (h : BranchesRendered scope bs cs s) (ho : stripOption id o' = stripOption Number.capped o)
    (hclosing : ∀ r d, Closing scope d o' (u ++ r) r) :
    Rendered scope (.cond loc bs o) (.cond loc' cs o') (⟨.keyword .ifWord, loc'⟩ :: (s ++ u)) := by
  have hshown : (Filter.cond loc' cs o').bare = (Filter.cond loc bs o).shown :=
    congrArg₂ (Filter.cond default) h.1 ho
  refine of_primary hshown ⟨_, _, rfl, rfl⟩ rfl fun r _ d => ?_
  rw [List.cons_append, List.append_assoc]
  exact .primary_cond (h.2 (hclosing r d))

end Rendered

/-! ### Lists of parts -/

section
variable {scope : List String} {f g f' g' : Filter} {s u : List Token}

theorem ArgsRendered.last (hf : Rendered scope f g s) : ArgsRendered scope [f] [g] s :=
  ⟨congrArg (fun f => [f]) hf.shown, fun _ _ d => .args_last (hf.pipe (.of_closes rfl rfl) d)⟩

theorem ArgsRendered.cons {fs gs : List Filter} {semicolon : Range} (hf : Rendered scope f g s)
    (hfs : ArgsRendered scope fs gs u) :
    ArgsRendered scope (f :: fs) (g :: gs) (s ++ ⟨.symbol .semicolon, semicolon⟩ :: u) := by
  refine ⟨congrArg₂ List.cons hf.shown hfs.1, fun close r d => ?_⟩
  rw [List.append_assoc]
  exact .args_more (hf.pipe (.of_closes rfl rfl) d) (hfs.2 close r d)

/-- A branch of a condition is a test and what is done if it is true. -/
theorem BranchesRendered.last {thenLoc : Range} (hf : Rendered scope f g s)
    (hf' : Rendered scope f' g' u) :
    BranchesRendered scope [(f, f')] [(g, g')] (s ++ ⟨.keyword .thenWord, thenLoc⟩ :: u) := by
  refine ⟨congrArg₂ (fun f f' => [(f, f')]) hf.shown hf'.shown, fun hclosing => ?_⟩
  rw [List.append_assoc]
  cases hclosing with
  | last =>
    exact .branches_end (hf.pipe (.of_closes rfl rfl) _) (hf'.pipe (.of_closes rfl rfl) _)
  | otherwise hpipe =>
    exact .branches_else (hf.pipe (.of_closes rfl rfl) _) (hf'.pipe (.of_closes rfl rfl) _) hpipe

theorem BranchesRendered.cons {bs cs : List (Filter × Filter)} {v : List Token}
    {thenLoc elifLoc : Range} (hf : Rendered scope f g s) (hf' : Rendered scope f' g' u)
    (hbs : BranchesRendered scope bs cs v) :
    BranchesRendered scope ((f, f') :: bs) ((g, g') :: cs)
      (s ++ ⟨.keyword .thenWord, thenLoc⟩ :: (u ++ ⟨.keyword .elifWord, elifLoc⟩ :: v)) := by
  refine ⟨?_, fun hclosing => ?_⟩
  · show (g.bare, g'.bare) :: stripPairs id cs = _
    rw [hf.shown, hf'.shown, hbs.1]
    rfl
  · rw [List.append_assoc, List.cons_append, List.append_assoc]
    exact .branches_more (hf.pipe (.of_closes rfl rfl) _) (hf'.pipe (.of_closes rfl rfl) _)
      (hbs.2 hclosing)

/-- An entry whose key is a string or has parentheses. -/
structure EntryRendered (scope : List String) (k v k' v' : Filter) (s : List Token) : Prop where
  key : k'.bare = k.shown
  value : v'.bare = v.shown
  nextKind?_ne : ∀ r, nextKind? (s ++ r) ≠ some (.symbol .closeBrace)
  entry : ∀ r, Follows 2 r → nextKind? r ≠ some (.symbol .pipe) → ∀ d,
    Any scope d (.entry k' v') (s ++ r) r

theorem Rendered.entryValue (hf : Rendered scope f g s) {r : List Token} (hr : Follows 2 r)
    (hpipe : nextKind? r ≠ some (.symbol .pipe)) (d : Nat) :
    Any scope d (.entryValue g) (s ++ r) r :=
  .entryValue (hf.taken 2 (by decide) r hr d) (.entryPipes_nil hpipe)

theorem EntryRendered.of_string {loc keyLoc colon : Range} {word : String}
    (hf : Rendered scope f g u) : EntryRendered scope (.literal loc (.string word)) f
      (.literal keyLoc (.string word)) g
      (⟨.string word, keyLoc⟩ :: ⟨.symbol .colon, colon⟩ :: u) where
  key := rfl
  value := hf.shown
  nextKind?_ne r := by simp
  entry r hr hpipe d := .entry_keyed rfl (hf.entryValue hr hpipe d)

theorem EntryRendered.of_enclosed {colon : Range} (hf : Rendered scope f g s)
    (henclosed : f.isEnclosed = true) (hf' : Rendered scope f' g' u) :
    EntryRendered scope f f' g g' (s ++ ⟨.symbol .colon, colon⟩ :: u) where
  key := hf.shown
  value := hf'.shown
  nextKind?_ne r := by
    rw [List.append_assoc]
    exact hf.nextKind?_ne rfl _
  entry r hr hpipe d := by
    obtain ⟨openLoc, v, close, rfl, hv⟩ := hf.enclosed henclosed
    rw [List.append_assoc, List.cons_append, List.append_assoc]
    exact .entry_computed (hv _ (.of_closes rfl rfl) d) (hf'.entryValue hr hpipe d)

theorem EntriesRendered.last (h : EntryRendered scope f f' g g' s) :
    EntriesRendered scope [(f, f')] [(g, g')] s where
  shown := congrArg₂ (fun f f' => [(f, f')]) h.key h.value
  nextKind?_ne := h.nextKind?_ne
  entries _ _ d := .entries_last (h.entry _ (.of_closes rfl rfl) (by simp) d)

theorem EntriesRendered.cons {es fs : List (Filter × Filter)} {comma : Range}
    (h : EntryRendered scope f f' g g' s) (hes : EntriesRendered scope es fs u) :
    EntriesRendered scope ((f, f') :: es) ((g, g') :: fs) (s ++ ⟨.symbol .comma, comma⟩ :: u) where
  shown := by
    show (g.bare, g'.bare) :: stripPairs id fs = _
    rw [h.key, h.value, hes.shown]
    rfl
  nextKind?_ne r := by
    rw [List.append_assoc]
    exact h.nextKind?_ne _
  entries close r d := by
    rw [List.append_assoc]
    have hcomma : nextKind? (⟨.symbol .comma, comma⟩ :: (u ++ ⟨.symbol .closeBrace, close⟩ :: r)) ≠
        some (.symbol .pipe) := by simp
    exact .entries_more (h.entry _ (.joint .comma (by decide)) hcomma d) (hes.entries close r d)

end

end Parser

end Filter

end JsonFilter
