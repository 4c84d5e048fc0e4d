import JsonFilter.Proofs.Grammar.Borders

/-!
A scan of the tokens of a filter for its braces. It keeps count, for every opening bracket, of the
commas directly between it and its closing one, without looking at anything else than which
brackets, bindings and `try`s are open. The commas in the body of a binding are counted apart.
-/

namespace JsonFilter.Filter.Parser

/-! ## The scan -/

/-- What is open since an opening bracket, besides further brackets. -/
inductive Pending where
  /-- A `try`, until its `catch`, or until an operator shows that it has none. -/
  | attempt
  /-- The body of a binding, until the closing bracket or the `catch` of a `try` around it. -/
  | binding

/-- What a token means for the bracket that is open. -/
inductive Event where
  | comma
  /-- An operator other than the comma. -/
  | operator
  /-- The end of a part inside of brackets. -/
  | delimiter
  | attempt
  | handler
  | binding
  | nothing

/-- An opening bracket and what stands directly behind it, up to some place before the closing
one. -/
structure Enclosure where
  loc : Range
  /-- The closing brace follows at once. -/
  isEmpty : Bool
  /-- The commas outside of the bodies of bindings. -/
  separating : Nat
  /-- The commas in the bodies of bindings. -/
  taken : Nat
  /-- The bindings that were begun. -/
  bindings : Nat
  /-- The last one that was opened comes first. -/
  pending : List Pending

namespace Enclosure

/-- The bracket at its beginning. -/
def opened (loc : Range) (next : Option Token.Kind) : Enclosure :=
  ⟨loc, next matches some (.symbol .closeBrace), 0, 0, 0, []⟩

/-- The commas directly between the brackets. -/
def commas (b : Enclosure) : Nat := b.separating + b.taken

/-- The entries, if it is a brace. -/
def entries (b : Enclosure) : Nat := if b.isEmpty then 0 else b.separating + 1

/-- A `catch` ends the innermost `try` and all bindings inside of it. -/
def dropAttempt : List Pending → List Pending
  | [] => []
  | .attempt :: pending => pending
  | .binding :: pending => dropAttempt pending

/-- An operator ends every `try` since the last binding. -/
def dropAttempts : List Pending → List Pending
  | .attempt :: pending => dropAttempts pending
  | pending => pending

/-- The bracket after an event. -/
def after (b : Enclosure) : Event → Enclosure
  | .comma =>
    match dropAttempts b.pending with
    | [] => { b with separating := b.separating + 1, pending := [] }
    | pending => { b with taken := b.taken + 1, pending }
  | .operator => { b with pending := dropAttempts b.pending }
  | .delimiter => { b with pending := [] }
  | .attempt => { b with pending := .attempt :: b.pending }
  | .handler => { b with pending := dropAttempt b.pending }
  | .binding => { b with bindings := b.bindings + 1, pending := .binding :: b.pending }
  | .nothing => b

end Enclosure

/-- What a token is to the scan. -/
inductive Role where
  | opening
  | closing
  | closingBrace
  | inner (e : Event)
  | finish

/-- A word after this token may be a key. -/
def opensKey : Token.Kind → Bool
  | .symbol .openBrace => true
  | .symbol .comma => true
  | _ => false

/-- The role of a token, by the next one, and by whether it comes right behind an opening brace or a
comma. Words of the language are keys too, and have no role then. -/
def role (fresh : Bool) (next : Option Token.Kind) : Token.Kind → Role
  | .symbol .openParen => .opening
  | .symbol .openBracket => .opening
  | .symbol .openBrace => .opening
  | .keyword .ifWord => if closesKey next then .inner .nothing else .opening
  | .symbol .closeParen => .closing
  | .symbol .closeBracket => .closing
  | .keyword .endWord => if fresh then .inner .nothing else .closing
  | .symbol .closeBrace => .closingBrace
  | .symbol .comma => .inner .comma
  | .symbol .colon => .inner .delimiter
  | .symbol .semicolon => .inner .delimiter
  | .keyword .thenWord => .inner .delimiter
  | .keyword .elifWord => .inner .delimiter
  | .keyword .elseWord => .inner .delimiter
  | .keyword .tryWord => if closesKey next then .inner .nothing else .inner .attempt
  | .keyword .catchWord => if fresh then .inner .nothing else .inner .handler
  | .keyword .asWord => if next matches some (.binding _) then .inner .binding else .inner .nothing
  | .finish => .finish
  | kind => if (joint? kind).isSome then .inner .operator else .inner .nothing

/-- The braces of some tokens, each at its closing one. The tokens are read behind the innermost
open bracket `top`, and the brackets around it are `below`. -/
def scan (fresh : Bool) (top : Enclosure) (below : List Enclosure) : List Token → List Enclosure
  | [] => []
  | t :: s =>
    match role fresh (nextKind? s) t.kind with
    | .opening => scan (opensKey t.kind) (.opened t.range (nextKind? s)) (top :: below) s
    | .closing => scan false (below.headD top) below.tail s
    | .closingBrace => top :: scan false (below.headD top) below.tail s
    | .inner e => scan (opensKey t.kind) (top.after e) below s
    | .finish => []

/-- The braces of some tokens up to the end, in the order of their closing ones. -/
def braces (tokens : List Token) : List Enclosure := scan false (.opened default none) [] tokens

example : (braces [⟨.symbol .openBrace, default⟩, ⟨.name "a", default⟩, ⟨.symbol .comma, default⟩,
    ⟨.keyword .ifWord, default⟩, ⟨.symbol .comma, default⟩, ⟨.keyword .endWord, default⟩,
    ⟨.symbol .colon, default⟩, ⟨.number 1, default⟩,
    ⟨.symbol .closeBrace, default⟩]).map Enclosure.entries = [3] := by rfl

variable {s r : List Token}

/-! ## What is pending -/

namespace Enclosure

/-- What an entry of the list of constructions says of a brace. -/
def shown (b : Enclosure) : Range × Nat := (b.loc, b.entries)

/-- No `try` is open that an operator would end. -/
def Settled (b : Enclosure) : Prop := b.pending.head? ≠ some .attempt

theorem dropAttempts_append {n p : List Pending} (h : .binding ∉ n) :
    dropAttempts (n ++ p) = dropAttempts p := by
  induction n with
  | nil => rfl
  | cons a n ih =>
    cases a with
    | attempt => exact ih fun hn => h (.tail _ hn)
    | binding => exact absurd (.head _) h

theorem dropAttempt_append {n p : List Pending} (h : .attempt ∉ n) :
    dropAttempt (n ++ .attempt :: p) = p := by
  induction n with
  | nil => rfl
  | cons a n ih =>
    cases a with
    | attempt => exact absurd (.head _) h
    | binding => exact ih fun hn => h (.tail _ hn)

theorem dropAttempts_of_settled {b : Enclosure} (h : b.Settled) :
    dropAttempts b.pending = b.pending := by
  unfold Settled at h
  cases hp : b.pending with
  | nil => rfl
  | cons a p =>
    cases a with
    | attempt => exact absurd (by rw [hp]; rfl) h
    | binding => rfl

theorem settled_operator (b : Enclosure) : (b.after .operator).Settled := by
  show (dropAttempts b.pending).head? ≠ _
  induction b.pending with
  | nil => simp [dropAttempts]
  | cons a p ih =>
    cases a with
    | attempt => exact ih
    | binding => simp [dropAttempts]

theorem settled_of_nil {b : Enclosure} (h : b.pending = []) : b.Settled := by
  simp [Settled, h]

theorem after_comma_of_nil {b : Enclosure} (h : dropAttempts b.pending = []) :
    b.after .comma = { b with separating := b.separating + 1, pending := [] } := by
  simp only [after, h]

theorem after_comma_of_cons {b : Enclosure} {a : Pending} {p : List Pending}
    (h : dropAttempts b.pending = a :: p) :
    b.after .comma = { b with taken := b.taken + 1, pending := a :: p } := by
  simp only [after, h]

theorem settled_comma (b : Enclosure) : (b.after .comma).Settled := by
  have hsettled := b.settled_operator
  cases h : dropAttempts b.pending with
  | nil =>
    rw [after_comma_of_nil h]
    exact settled_of_nil rfl
  | cons a p =>
    rw [after_comma_of_cons h, Settled, ← h]
    exact hsettled

theorem isEmpty_opened {loc : Range} {next : Option Token.Kind}
    (h : next ≠ some (.symbol .closeBrace)) : (opened loc next).isEmpty = false := by
  unfold opened
  dsimp only
  split
  · exact absurd rfl h
  · rfl

theorem after_operator_of_nil {b : Enclosure} (h : b.pending = []) : b.after .operator = b := by
  cases b
  cases h
  rfl

theorem after_delimiter_of_nil {b : Enclosure} (h : b.pending = []) : b.after .delimiter = b := by
  cases b
  cases h
  rfl

/-- A bracket after more has been seen: some are pending in addition, and all commas were taken. -/
structure Extends (n : List Pending) (base b : Enclosure) : Prop where
  loc : b.loc = base.loc
  isEmpty : b.isEmpty = base.isEmpty
  separating : b.separating = base.separating
  pending : b.pending = n ++ base.pending

theorem Extends.refl (b : Enclosure) : Extends [] b b := ⟨rfl, rfl, rfl, rfl⟩

theorem Extends.trans {m n : List Pending} {a b c : Enclosure} (h : Extends m a b)
    (h' : Extends n b c) : Extends (n ++ m) a c where
  loc := h'.loc.trans h.loc
  isEmpty := h'.isEmpty.trans h.isEmpty
  separating := h'.separating.trans h.separating
  pending := by rw [h'.pending, h.pending, List.append_assoc]

end Enclosure

open Enclosure (Settled Extends)

/-- What a part may leave pending before some tokens. Nothing that is pending is ended wrongly by
the next token: a handler belongs to no `try` in the part, an operator to the body of no binding,
and a suffix to neither. -/
structure Open (n : List Pending) (r : List Token) : Prop where
  handler : nextKind? r = some (.keyword .catchWord) → .attempt ∉ n
  operator : ∀ k j, nextKind? r = some k → joint? k = some j → .binding ∉ n
  suffix : n ≠ [] → NoSuffix r

theorem Open.nil : Open [] r :=
  ⟨fun _ => List.not_mem_nil, fun _ _ _ _ => List.not_mem_nil, fun h => absurd rfl h⟩

/-- A bracket after more has been seen, where only what may be pending before `r` was added. -/
def Kept (base top : Enclosure) (r : List Token) : Prop := ∃ n, Extends n base top ∧ Open n r

/-- The body of a binding goes on to the bracket's end. -/
def InBinding (b : Enclosure) : Prop := b.pending.head? = some .binding

namespace Kept

variable {base top top' : Enclosure} {t : Token} {j : Joint}

theorem of_extends (h : Extends [] base top) : Kept base top r := ⟨[], h, .nil⟩

theorem refl : Kept top top r := .of_extends (.refl top)

theorem after_extends (h : Extends [] base top) (h' : Kept top top' r) : Kept base top' r := by
  obtain ⟨n, hext, hopen⟩ := h'
  exact ⟨n, (List.append_nil n) ▸ h.trans hext, hopen⟩

/-- A suffix continues a filter that leaves nothing pending. -/
theorem suffix (h : Kept base top (t :: r)) (ht : opensSuffix t.kind = true) :
    Extends [] base top := by
  obtain ⟨n, hext, hopen⟩ := h
  by_cases hn : n = []
  · exact hn ▸ hext
  · exact absurd ((hopen.suffix hn _ rfl).symm.trans ht) Bool.false_ne_true

/-- An operator, or a comma, ends what its left operand leaves pending. -/
theorem dropAttempts_eq (h : Kept base top (t :: r)) (hj : joint? t.kind = some j) :
    Enclosure.dropAttempts top.pending = Enclosure.dropAttempts base.pending := by
  obtain ⟨n, hext, hopen⟩ := h
  rw [hext.pending, Enclosure.dropAttempts_append (hopen.operator _ j rfl hj)]

theorem operator (h : Kept base top (t :: r)) (hj : joint? t.kind = some j)
    (hsettled : base.Settled) : Extends [] base (top.after .operator) := by
  have hdrop := h.dropAttempts_eq hj
  obtain ⟨n, hext, -⟩ := h
  exact
    ⟨hext.loc, hext.isEmpty, hext.separating,
      hdrop.trans (Enclosure.dropAttempts_of_settled hsettled)⟩

/-- A comma in the body of a binding is taken by it. -/
theorem comma {loc : Range} (h : Kept base top (⟨.symbol .comma, loc⟩ :: r))
    (hbase : InBinding base) : Extends [] base (top.after .comma) := by
  have hdrop := h.dropAttempts_eq (j := .comma) rfl
  obtain ⟨n, hext, -⟩ := h
  obtain ⟨p, hp⟩ : ∃ p, base.pending = .binding :: p := List.head?_eq_some_iff.mp hbase
  rw [hp] at hdrop
  rw [Enclosure.after_comma_of_cons hdrop]
  exact ⟨hext.loc, hext.isEmpty, hext.separating, hp.symm⟩

/-- A comma behind an entry separates it from the next one. -/
theorem separates {loc : Range} (h : Kept base top (⟨.symbol .comma, loc⟩ :: r))
    (hbase : base.pending = []) :
    top.after .comma = { top with separating := base.separating + 1, pending := [] } := by
  have hdrop := h.dropAttempts_eq (j := .comma) rfl
  obtain ⟨n, hext, -⟩ := h
  rw [hbase] at hdrop
  rw [Enclosure.after_comma_of_nil hdrop, hext.separating]

/-- Behind a binding, its body goes on. -/
theorem binding (h : Extends [] base top) (h' : Kept (top.after .binding) top' r)
    (hr : Below 0 r) : Kept base top' r := by
  obtain ⟨n, hext, hopen⟩ := h'
  have hbegun : Extends [.binding] base (top.after .binding) :=
    ⟨h.loc, h.isEmpty, h.separating, congrArg (List.cons _) h.pending⟩
  exact
    ⟨n ++ [.binding], hbegun.trans hext,
      { handler := fun hr hn => hopen.handler hr (by simpa using hn)
        operator := fun k j hk hj => absurd (hr.operator k j hk hj) (Nat.not_lt_zero _)
        suffix := fun _ => hr.suffix }⟩

/-- Without a handler, a `try` goes on until an operator. -/
theorem attempt (h : Kept (top.after .attempt) top' r)
    (hcatch : nextKind? r ≠ some (.keyword .catchWord)) (hr : NoSuffix r) : Kept top top' r := by
  obtain ⟨n, hext, hopen⟩ := h
  have hbegun : Extends [.attempt] top (top.after .attempt) := ⟨rfl, rfl, rfl, rfl⟩
  exact
    ⟨n ++ [.attempt], hbegun.trans hext,
      { handler := fun hr => absurd hr hcatch
        operator := fun k j hk hj hn => hopen.operator k j hk hj (by simpa using hn)
        suffix := fun _ => hr }⟩

/-- A handler ends the `try` that it belongs to. -/
theorem handler {loc : Range}
    (h : Kept (top.after .attempt) top' (⟨.keyword .catchWord, loc⟩ :: r)) :
    Extends [] top (top'.after .handler) := by
  obtain ⟨n, hext, hopen⟩ := h
  refine ⟨hext.loc, hext.isEmpty, hext.separating, ?_⟩
  show Enclosure.dropAttempt top'.pending = top.pending
  rw [hext.pending]
  exact Enclosure.dropAttempt_append (hopen.handler rfl)

end Kept

/-! ## Runs of the scan -/

section
variable {cs cs' : List (Range × Nat)} {fresh : Bool} {top top' top'' b : Enclosure}
  {below : List Enclosure} {t : Token} {u : List Token}

theorem scan_inner {e : Event} (hrole : role fresh (nextKind? s) t.kind = .inner e)
    (hkey : opensKey t.kind = false) :
    scan fresh top below (t :: s) = scan false (top.after e) below s := by
  rw [scan, hrole, hkey]

theorem scan_opening (hrole : role fresh (nextKind? s) t.kind = .opening) :
    scan fresh top below (t :: s) =
      scan (opensKey t.kind) (.opened t.range (nextKind? s)) (top :: below) s := by
  rw [scan, hrole]

theorem scan_closing (hrole : role fresh (nextKind? s) t.kind = .closing) :
    scan fresh top (b :: below) (t :: s) = scan false b below s := by
  rw [scan, hrole]
  rfl

/-- All braces of a scan are those of some constructions and the rest. -/
def Reports (cs : List (Range × Nat)) (all rest : List Enclosure) : Prop :=
  ∃ out, out.map Enclosure.shown = cs ∧ all = out ++ rest

theorem Reports.append {all more rest : List Enclosure} (h : Reports cs all more)
    (h' : Reports cs' more rest) : Reports (cs ++ cs') all rest := by
  obtain ⟨out, rfl, rfl⟩ := h
  obtain ⟨out', rfl, rfl⟩ := h'
  exact ⟨out ++ out', List.map_append, (List.append_assoc _ _ _).symm⟩

/-- From the front of some tokens the scan reports some constructions, and goes on from there. -/
def Passes (cs : List (Range × Nat)) (fresh : Bool) (top : Enclosure) (below : List Enclosure)
    (s : List Token) (top' : Enclosure) (r : List Token) : Prop :=
  Reports cs (scan fresh top below s) (scan false top' below r)

/-- From the front of some tokens the scan reports some constructions, and goes on behind the
closing bracket of `top`. -/
def Closes (cs : List (Range × Nat)) (fresh : Bool) (top b : Enclosure) (below : List Enclosure)
    (s r : List Token) : Prop :=
  Reports cs (scan fresh top (b :: below) s) (scan false b below r)

theorem Passes.refl : Passes [] false top below s top s := ⟨[], rfl, rfl⟩

theorem Passes.append (h : Passes cs fresh top below s top' r)
    (h' : Passes cs' false top' below r top'' u) : Passes (cs ++ cs') fresh top below s top'' u :=
  Reports.append h h'

theorem Passes.inner {e : Event} (hrole : role fresh (nextKind? s) t.kind = .inner e)
    (hkey : opensKey t.kind = false) (h : Passes cs false (top.after e) below s top' r) :
    Passes cs fresh top below (t :: s) top' r := by
  rw [Passes, scan_inner hrole hkey]
  exact h

theorem Passes.comma {loc : Range} (h : Passes cs true (top.after .comma) below s top' r) :
    Passes cs fresh top below (⟨.symbol .comma, loc⟩ :: s) top' r := h

/-- The part between two brackets. -/
theorem Passes.opening (hrole : role fresh (nextKind? s) t.kind = .opening)
    (h : Closes cs (opensKey t.kind) (.opened t.range (nextKind? s)) top below s r) :
    Passes cs fresh top below (t :: s) top r := by
  rw [Passes, scan_opening hrole]
  exact h

theorem Passes.closing (h : Passes cs fresh top (b :: below) s top' (t :: r))
    (hrole : role false (nextKind? r) t.kind = .closing) : Closes cs fresh top b below s r := by
  rw [Passes, scan_closing hrole] at h
  exact h

theorem Passes.closes (h : Passes cs fresh top (b :: below) s top' r)
    (h' : Closes cs' false top' b below r u) : Closes (cs ++ cs') fresh top b below s u :=
  Reports.append h h'

theorem Closes.inner {e : Event} (hrole : role fresh (nextKind? s) t.kind = .inner e)
    (hkey : opensKey t.kind = false) (h : Closes cs false (top.after e) b below s r) :
    Closes cs fresh top b below (t :: s) r := by
  rw [Closes, scan_inner hrole hkey]
  exact h

theorem Closes.comma {loc : Range} (h : Closes cs true (top.after .comma) b below s r) :
    Closes cs fresh top b below (⟨.symbol .comma, loc⟩ :: s) r := h

/-- The closing brace reports its construction. -/
theorem Closes.brace {loc : Range} :
    Closes [top.shown] fresh top b below (⟨.symbol .closeBrace, loc⟩ :: s) s := ⟨[top], rfl, rfl⟩

end

/-! ## Counting -/

namespace Enclosure

/-- Only a binding takes commas. -/
def Untaken (b : Enclosure) : Prop := b.bindings = 0 → b.taken = 0 ∧ .binding ∉ b.pending

theorem untaken_opened (loc : Range) (next : Option Token.Kind) : (opened loc next).Untaken :=
  fun _ => ⟨rfl, List.not_mem_nil⟩

theorem dropAttempt_sublist (p : List Pending) : List.Sublist (dropAttempt p) p := by
  induction p with
  | nil => exact .slnil
  | cons a p ih =>
    cases a with
    | attempt => exact List.sublist_cons_self _ p
    | binding => exact ih.cons _

theorem dropAttempts_sublist (p : List Pending) : List.Sublist (dropAttempts p) p := by
  induction p with
  | nil => exact .slnil
  | cons a p ih =>
    cases a with
    | attempt => exact ih.cons _
    | binding => exact .refl _

theorem dropAttempts_eq_nil {p : List Pending} (h : .binding ∉ p) :
    dropAttempts p = [] := by
  have hdrop := dropAttempts_append (p := []) h
  rwa [List.append_nil] at hdrop

theorem Untaken.after {b : Enclosure} (h : b.Untaken) (e : Event) : (b.after e).Untaken := by
  intro hzero
  cases e with
  | comma =>
    cases hdrop : dropAttempts b.pending with
    | nil =>
      rw [after_comma_of_nil hdrop] at hzero ⊢
      exact ⟨(h hzero).1, List.not_mem_nil⟩
    | cons a p =>
      rw [after_comma_of_cons hdrop] at hzero
      rw [dropAttempts_eq_nil (h hzero).2] at hdrop
      cases hdrop
  | operator =>
    obtain ⟨htaken, hpending⟩ := h hzero
    exact ⟨htaken, fun hmem => hpending ((dropAttempts_sublist _).subset hmem)⟩
  | delimiter => exact ⟨(h hzero).1, List.not_mem_nil⟩
  | attempt =>
    obtain ⟨htaken, hpending⟩ := h hzero
    exact ⟨htaken, by simpa [Enclosure.after] using hpending⟩
  | handler =>
    obtain ⟨htaken, hpending⟩ := h hzero
    exact ⟨htaken, fun hmem => hpending ((dropAttempt_sublist _).subset hmem)⟩
  | binding => exact absurd hzero (Nat.succ_ne_zero _)
  | nothing => exact h hzero

end Enclosure

theorem untaken_of_mem_scan {fresh : Bool} {top b : Enclosure} {below : List Enclosure}
    (htop : top.Untaken) (hbelow : ∀ b ∈ below, b.Untaken) (hb : b ∈ scan fresh top below s) :
    b.Untaken := by
  induction s generalizing fresh top below with
  | nil => cases hb
  | cons t s ih =>
    have hhead : (below.headD top).Untaken := by
      cases below with
      | nil => exact htop
      | cons c below => exact hbelow c (.head _)
    have htail : ∀ b ∈ below.tail, b.Untaken := fun b hb => hbelow b (List.mem_of_mem_tail hb)
    unfold scan at hb
    split at hb
    · exact ih (Enclosure.untaken_opened _ _) (List.forall_mem_cons.mpr ⟨htop, hbelow⟩) hb
    · exact ih hhead htail hb
    · rcases List.mem_cons.mp hb with rfl | hb
      · exact htop
      · exact ih hhead htail hb
    · exact ih (htop.after _) hbelow hb
    · cases hb

theorem scan_of_isFinish {ctx : Context} {fresh : Bool} {top : Enclosure} {below : List Enclosure}
    (h : (peek ctx s).isFinish) : scan fresh top below s = [] := by
  cases s with
  | nil => rfl
  | cons t s =>
    have hkind : t.kind = .finish := eq_of_beq h
    rw [scan, hkind]
    rfl

end JsonFilter.Filter.Parser
