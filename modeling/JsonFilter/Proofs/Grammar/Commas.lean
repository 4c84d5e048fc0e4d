import JsonFilter.Proofs.Constructions
import JsonFilter.Proofs.Grammar.Brackets
import JsonFilter.Proofs.Grammar.Sound

/-!
The commas of object constructions. The scan of the tokens of a filter reports its object
constructions, and how many entries each of them has: one more than there are commas directly
between its braces, save for those in the body of a binding, which takes them for itself.
-/

namespace JsonFilter.Filter.Parser

open Enclosure (Settled Extends)

variable {fits : Nat → Prop} {scope : List String} {d : Nat} {part : Part} {s r : List Token}

/-! ## The scan of derived parts -/

theorem InBinding.settled {b : Enclosure} (h : InBinding b) : b.Settled := by
  unfold InBinding at h
  simp [Settled, h]

theorem Enclosure.Extends.settled {base top : Enclosure} (h : Extends [] base top)
    (hbase : base.Settled) : top.Settled := by
  rw [Settled, h.pending]
  exact hbase

theorem Enclosure.Extends.inBinding {base top : Enclosure} (h : Extends [] base top)
    (hbase : InBinding base) : InBinding top := by
  rw [InBinding, h.pending]
  exact hbase

/-- A filter that may go on with commas takes them if the body of a binding does. -/
def ScansFilter (f : Filter) (s r : List Token) : Prop :=
  ∀ (top : Enclosure) (below : List Enclosure), top.Settled →
    ∃ top', Passes f.constructions false top below s top' r ∧ (InBinding top → Kept top top' r)

/-- A chain of commas behind its first operand. -/
def ScansCommas (left f : Filter) (s r : List Token) : Prop :=
  ∃ cs, f.constructions = left.constructions ++ cs ∧ ∀ (top : Enclosure) (below : List Enclosure),
    ∃ top', Passes cs false top below s top' r ∧
      ∀ base, InBinding base → Kept base top s → Kept base top' r

/-- Where a term may stand. -/
def Anywhere (_ : Enclosure) : Prop := True

/-- A filter without commas of its own, wherever `ok` says that it may stand: an operand where no
`try` is open that its operators would end, and a term anywhere. -/
def Scans (ok : Enclosure → Prop) (f : Filter) (s r : List Token) : Prop :=
  ∀ (fresh : Bool) (top : Enclosure) (below : List Enclosure), ok top →
    ∃ top', Passes f.constructions fresh top below s top' r ∧ Kept top top' r

/-- What goes on with such a filter: further operators, or suffixes. -/
def Continues (ok : Enclosure → Prop) (left f : Filter) (s r : List Token) : Prop :=
  ∃ cs, f.constructions = left.constructions ++ cs ∧
    ∀ (base top : Enclosure) (below : List Enclosure), ok base → Kept base top s →
      ∃ top', Passes cs false top below s top' r ∧ Kept base top' r

/-- What stands between brackets other than braces, with the closing one. -/
def ScansInside (cs : List (Range × Nat)) (s r : List Token) : Prop :=
  ∀ (top b : Enclosure) (below : List Enclosure), top.Settled → Closes cs false top b below s r

/-- A key and its value, up to a comma or the closing brace. -/
def ScansEntry (cs : List (Range × Nat)) (s r : List Token) : Prop :=
  closesKey (nextKind? r) = true → ∀ (top : Enclosure) (below : List Enclosure), top.pending = [] →
    ∃ top', Passes cs true top below s top' r ∧ Kept top top' r

/-- Entries and the closing brace behind them, which reports one entry more than commas. -/
def ScansEntries (es : List (Filter × Filter)) (s r : List Token) : Prop :=
  ∀ (top b : Enclosure) (below : List Enclosure), top.pending = [] → top.isEmpty = false →
    Closes (constructionsPairs es ++ [(top.loc, top.separating + es.length)]) true top b below s r

section
variable {f g h left : Filter} {t : Token} {u : List Token} {cs cs' : List (Range × Nat)}
  {ok : Enclosure → Prop}

theorem Scans.append (hfirst : Scans ok f s r) (hrest : Continues ok f g r u) :
    Scans ok g s u := by
  obtain ⟨cs, hcs, hscan⟩ := hrest
  intro fresh top below hok
  obtain ⟨top₁, hpass, hkept⟩ := hfirst fresh top below hok
  obtain ⟨top₂, hpass', hkept'⟩ := hscan top top₁ below hok hkept
  exact ⟨top₂, hcs ▸ hpass.append hpass', hkept'⟩

theorem Scans.settled (hterm : Scans Anywhere f s r) : Scans Settled f s r :=
  fun fresh top below _ => hterm fresh top below trivial

theorem Continues.nil : Continues ok f f s s :=
  ⟨[], (List.append_nil _).symm, fun _ top _ _ hkept => ⟨top, .refl, hkept⟩⟩

theorem Continues.trans (hfirst : Continues ok f g s r) (hrest : Continues ok g h r u) :
    Continues ok f h s u := by
  obtain ⟨cs, hcs, hscan⟩ := hfirst
  obtain ⟨cs', hcs', hscan'⟩ := hrest
  refine ⟨cs ++ cs', by rw [hcs', hcs, List.append_assoc], fun base top below hok hkept => ?_⟩
  obtain ⟨top₁, hpass, hkept₁⟩ := hscan base top below hok hkept
  obtain ⟨top₂, hpass', hkept₂⟩ := hscan' base top₁ below hok hkept₁
  exact ⟨top₂, hpass.append hpass', hkept₂⟩

/-! ### Operators -/

theorem role_of_joint? {j : Joint} {fresh : Bool} {next : Option Token.Kind} {kind : Token.Kind}
    (hj : joint? kind = some j) (hcomma : j ≠ .comma) :
    role fresh next kind = .inner .operator := by
  obtain rfl := kind_of_joint? hj
  rcases j with _ | _ | _ | _ | _ | _ | _ <;> first | rfl | exact absurd rfl hcomma

theorem opensKey_of_joint? {j : Joint} {kind : Token.Kind} (hj : joint? kind = some j)
    (hcomma : j ≠ .comma) : opensKey kind = false := by
  obtain rfl := kind_of_joint? hj
  rcases j with _ | _ | _ | _ | _ | _ | _ <;> first | rfl | exact absurd rfl hcomma

theorem ScansFilter.of_commas (hfirst : Scans Settled f s r) (hrest : ScansCommas f g r u) :
    ScansFilter g s u := by
  obtain ⟨cs, hcs, hscan⟩ := hrest
  intro top below hsettled
  obtain ⟨top₁, hpass, hkept⟩ := hfirst false top below hsettled
  obtain ⟨top₂, hpass', hkept'⟩ := hscan top₁ below
  exact ⟨top₂, hcs ▸ hpass.append hpass', fun hbind => hkept' top hbind hkept⟩

theorem ScansFilter.pipe {loc : Range} (hleft : ScansFilter f s (⟨.symbol .pipe, loc⟩ :: r))
    (hright : ScansFilter g r u) : ScansFilter (.pipe loc f g) s u := by
  intro top below hsettled
  obtain ⟨top₁, hpass, hkept⟩ := hleft top below hsettled
  obtain ⟨top₂, hpass', hkept'⟩ := hright (top₁.after .operator) below top₁.settled_operator
  refine ⟨top₂, hpass.append (.inner rfl rfl hpass'), fun hbind => ?_⟩
  have hext := (hkept hbind).operator rfl hsettled
  exact .after_extends hext (hkept' (hext.inBinding hbind))

theorem ScansCommas.nil : ScansCommas f f s s :=
  ⟨[], (List.append_nil _).symm, fun top _ => ⟨top, .refl, fun _ _ hkept => hkept⟩⟩

theorem ScansCommas.cons {loc : Range} (hright : Scans Settled g s r)
    (hrest : ScansCommas (.comma loc f g) h r u) :
    ScansCommas f h (⟨.symbol .comma, loc⟩ :: s) u := by
  obtain ⟨cs, hcs, hscan⟩ := hrest
  refine ⟨g.constructions ++ cs, by rw [hcs, constructions, List.append_assoc], fun top below => ?_⟩
  obtain ⟨top₁, hpass, hkept⟩ := hright true (top.after .comma) below top.settled_comma
  obtain ⟨top₂, hpass', hkept'⟩ := hscan top₁ below
  exact
    ⟨top₂, .comma (hpass.append hpass'),
      fun base hbind hbase => hkept' base hbind (.after_extends (hbase.comma hbind) hkept)⟩

/-- An operator and its right operand. -/
theorem Continues.operator {j : Joint} (hj : joint? t.kind = some j) (hcomma : j ≠ .comma)
    (hf : f.constructions = left.constructions ++ g.constructions) (hright : Scans Settled g s r) :
    Continues Settled left f (t :: s) r := by
  refine ⟨g.constructions, hf, fun base top below hsettled hkept => ?_⟩
  have hext := hkept.operator hj hsettled
  obtain ⟨top₁, hpass, hkept₁⟩ := hright false (top.after .operator) below (hext.settled hsettled)
  exact
    ⟨top₁, .inner (role_of_joint? hj hcomma) (opensKey_of_joint? hj hcomma) hpass,
      .after_extends hext hkept₁⟩

theorem Continues.operation {op : Operator} (hop : Operator.ofKind? t.kind = some op)
    (h : ∃ g, f.constructions = left.constructions ++ g.constructions ∧ Scans Settled g s r) :
    Continues Settled left f (t :: s) r := by
  obtain ⟨g, hf, hright⟩ := h
  refine .operator (joint?_of_ofKind? hop) ?_ hf hright
  rcases op with _ | _ | _ <;> rintro ⟨⟩

theorem Operator.constructions_apply (op : Operator) (loc : Range) :
    (op.apply loc f g).constructions = f.constructions ++ g.constructions := by
  rcases op with _ | _ | _ <;> rfl

theorem Scans.minus {loc : Range} (hoperand : Scans Settled f s r) :
    Scans Settled (.negate loc f) (⟨.symbol .minus, loc⟩ :: s) r := by
  intro fresh top below hsettled
  have hkept : Kept top top (⟨.symbol .minus, loc⟩ :: s) := .refl
  have hext := hkept.operator rfl hsettled
  obtain ⟨top₁, hpass, hkept⟩ := hoperand false (top.after .operator) below (hext.settled hsettled)
  exact ⟨top₁, .inner rfl rfl hpass, .after_extends hext hkept⟩

/-! ### Suffixes and terms -/

/-- A term of brackets and what is inside of them. -/
theorem Scans.of_passes (hpass : ∀ (fresh : Bool) (top : Enclosure) (below : List Enclosure),
    Passes f.constructions fresh top below s top r) : Scans ok f s r :=
  fun fresh top below _ => ⟨top, hpass fresh top below, .refl⟩

theorem role_of_literal? {fresh : Bool} {next : Option Token.Kind} {kind : Token.Kind} {l : Literal}
    (h : literal? kind = some l) : role fresh next kind = .inner .nothing := by
  cases kind with
  | number => rfl
  | string => rfl
  | keyword k => cases k <;> first | rfl | cases h
  | _ => cases h

theorem opensKey_of_literal? {kind : Token.Kind} {l : Literal} (h : literal? kind = some l) :
    opensKey kind = false := by
  cases kind with
  | symbol => cases h
  | _ => rfl

/-- A suffix with what is inside of it. -/
theorem Continues.suffix (ht : opensSuffix t.kind = true)
    (hf : f.constructions = left.constructions ++ cs)
    (hpass : ∀ (top : Enclosure) (below : List Enclosure),
      Passes cs false top below (t :: s) top r) : Continues Anywhere left f (t :: s) r :=
  ⟨cs, hf, fun _ top below _ hkept =>
    ⟨top, hpass top below, .of_extends (hkept.suffix ht)⟩⟩

theorem Continues.binding {name : String} {loc nameLoc pipeLoc : Range}
    (hbody : ScansFilter g s r) (hbelow : Below 0 r) :
    Continues Anywhere f (.bind loc f name g)
      (⟨.keyword .asWord, loc⟩ :: ⟨.binding name, nameLoc⟩ :: ⟨.symbol .pipe, pipeLoc⟩ :: s) r := by
  refine ⟨g.constructions, rfl, fun base top below _ hkept => ?_⟩
  have hbind : InBinding (top.after .binding) := rfl
  obtain ⟨top₁, hpass, hkept₁⟩ := hbody _ below hbind.settled
  exact
    ⟨top₁, .inner rfl rfl (.inner rfl rfl (.inner rfl rfl hpass)),
      .binding (hkept.suffix rfl) (hkept₁ hbind) hbelow⟩

theorem role_tryWord {fresh : Bool} {next : Option Token.Kind} (h : closesKey next = false) :
    role fresh next (.keyword .tryWord) = .inner .attempt := if_neg (Bool.eq_false_iff.mp h)

theorem Scans.attempt {loc : Range} (hbody : Scans Anywhere f s r)
    (hbegins : closesKey (nextKind? s) = false)
    (hcatch : nextKind? r ≠ some (.keyword .catchWord)) (hr : NoSuffix r) :
    Scans Anywhere (.attempt loc f none) (⟨.keyword .tryWord, loc⟩ :: s) r := by
  intro fresh top below _
  obtain ⟨top₁, hpass, hkept⟩ := hbody false (top.after .attempt) below trivial
  refine ⟨top₁, ?_, hkept.attempt hcatch hr⟩
  simp only [constructions, constructionsOr, List.append_nil]
  exact .inner (role_tryWord hbegins) rfl hpass

theorem Scans.attemptCatch {loc catchLoc : Range}
    (hbody : Scans Anywhere f s (⟨.keyword .catchWord, catchLoc⟩ :: r))
    (hbegins : closesKey (nextKind? s) = false) (hhandler : Scans Anywhere g r u) :
    Scans Anywhere (.attempt loc f (some g)) (⟨.keyword .tryWord, loc⟩ :: s) u := by
  intro fresh top below _
  obtain ⟨top₁, hpass, hkept⟩ := hbody false (top.after .attempt) below trivial
  obtain ⟨top₂, hpass', hkept'⟩ := hhandler false (top₁.after .handler) below trivial
  refine ⟨top₂, .inner (role_tryWord hbegins) rfl ?_, .after_extends hkept.handler hkept'⟩
  exact hpass.append (.inner rfl rfl hpass')

/-! ### Brackets -/

theorem role_ifWord {fresh : Bool} {next : Option Token.Kind} (h : closesKey next = false) :
    role fresh next (.keyword .ifWord) = .opening := if_neg (Bool.eq_false_iff.mp h)

theorem ScansInside.passes (hinside : ScansInside cs s r)
    (hrole : ∀ fresh, role fresh (nextKind? s) t.kind = .opening) (hkey : opensKey t.kind = false)
    (fresh : Bool) (top : Enclosure) (below : List Enclosure) :
    Passes cs fresh top below (t :: s) top r :=
  .opening (hrole fresh) (hkey ▸ hinside _ top below (Enclosure.settled_of_nil rfl))

theorem ScansInside.closing (hrole : role false (nextKind? s) t.kind = .closing) :
    ScansInside [] (t :: s) s :=
  fun _ _ _ _ => Passes.refl.closing hrole

theorem ScansInside.delimiter (hrole : role false (nextKind? s) t.kind = .inner .delimiter)
    (hkey : opensKey t.kind = false) (hrest : ScansInside cs s r) : ScansInside cs (t :: s) r :=
  fun _ b below _ => .inner hrole hkey (hrest _ b below (Enclosure.settled_of_nil rfl))

/-- A filter with its closing bracket. -/
theorem ScansFilter.closing (hf : ScansFilter f s (t :: r))
    (hrole : role false (nextKind? r) t.kind = .closing) : ScansInside f.constructions s r := by
  intro top b below hsettled
  obtain ⟨top₁, hpass, -⟩ := hf top (b :: below) hsettled
  exact hpass.closing hrole

/-- A filter and what a delimiter separates it from. -/
theorem ScansFilter.delimiter (hf : ScansFilter f s (t :: r))
    (hrole : role false (nextKind? r) t.kind = .inner .delimiter) (hkey : opensKey t.kind = false)
    (hrest : ScansInside cs r u) : ScansInside (f.constructions ++ cs) s u := by
  intro top b below hsettled
  obtain ⟨top₁, hpass, -⟩ := hf top (b :: below) hsettled
  exact hpass.closes (.inner hrole hkey (hrest _ b below (Enclosure.settled_of_nil rfl)))

/-! ### Entries -/

/-- A word that is a key is nothing else. -/
theorem role_of_keyWord? {kind : Token.Kind} {word : String} {next : Option Token.Kind}
    (hword : keyWord? kind = some word) (hnext : closesKey next = true) :
    opensKey kind = false ∧ ∃ e, role true next kind = .inner e ∧
      ∀ top : Enclosure, top.pending = [] → top.after e = top := by
  cases kind with
  | string => exact ⟨rfl, .nothing, rfl, fun _ _ => rfl⟩
  | name => exact ⟨rfl, .nothing, rfl, fun _ _ => rfl⟩
  | keyword k =>
    refine ⟨rfl, ?_⟩
    cases k with
    | andWord | orWord => exact ⟨.operator, rfl, fun _ => Enclosure.after_operator_of_nil⟩
    | thenWord | elifWord | elseWord =>
      exact ⟨.delimiter, rfl, fun _ => Enclosure.after_delimiter_of_nil⟩
    | ifWord | tryWord => exact ⟨.nothing, if_pos hnext, fun _ _ => rfl⟩
    | asWord =>
      refine ⟨.nothing, ?_, fun _ _ => rfl⟩
      unfold closesKey at hnext
      split at hnext <;> first | rfl | cases hnext
    | catchWord | endWord | trueWord | falseWord | nullWord =>
      exact ⟨.nothing, rfl, fun _ _ => rfl⟩
  | _ => cases hword

theorem ScansEntry.key {kind : Token.Kind} {loc : Range} {word : String}
    (hword : keyWord? kind = some word) (hnext : closesKey (nextKind? s) = true)
    (hrest : ∀ (top : Enclosure) (below : List Enclosure), top.pending = [] →
      ∃ top', Passes cs false top below s top' r ∧ Kept top top' r) :
    ScansEntry cs (⟨kind, loc⟩ :: s) r := by
  intro _ top below hnil
  obtain ⟨hkey, e, hrole, hafter⟩ := role_of_keyWord? hword hnext
  obtain ⟨top₁, hpass, hkept⟩ := hrest top below hnil
  exact ⟨top₁, .inner hrole hkey ((hafter top hnil).symm ▸ hpass), hkept⟩

/-- The colon of an entry and its value. -/
theorem Scans.value (hvalue : Scans Settled f s r) (loc : Range) (top : Enclosure)
    (below : List Enclosure) (hnil : top.pending = []) :
    ∃ top', Passes f.constructions false top below (⟨.symbol .colon, loc⟩ :: s) top' r ∧
      Kept top top' r := by
  obtain ⟨top₁, hpass, hkept⟩ := hvalue false top below (Enclosure.settled_of_nil hnil)
  exact ⟨top₁, .inner rfl rfl ((Enclosure.after_delimiter_of_nil hnil).symm ▸ hpass), hkept⟩

theorem ScansEntry.computed {openLoc close colon : Range}
    (hkey : ScansFilter f s (⟨.symbol .closeParen, close⟩ :: ⟨.symbol .colon, colon⟩ :: r))
    (hvalue : Scans Settled g r u) :
    ScansEntry (f.constructions ++ g.constructions) (⟨.symbol .openParen, openLoc⟩ :: s) u := by
  intro _ top below hnil
  obtain ⟨top₁, hpass, hkept⟩ := hvalue.value colon top below hnil
  have hparen := (hkey.closing rfl).passes (t := ⟨.symbol .openParen, openLoc⟩) (fun _ => rfl) rfl
  exact ⟨top₁, (hparen true top below).append hpass, hkept⟩

theorem ScansEntries.last {loc : Range}
    (hentry : ScansEntry (f.constructions ++ g.constructions) s
      (⟨.symbol .closeBrace, loc⟩ :: r)) : ScansEntries [(f, g)] s r := by
  intro top b below hnil hempty
  obtain ⟨top₁, hpass, n, hext, -⟩ := hentry rfl top (b :: below) hnil
  have hshown : top₁.shown = (top.loc, top.separating + 1) := by
    simp [Enclosure.shown, Enclosure.entries, hext.loc, hext.isEmpty, hext.separating, hempty]
  have hclose := hpass.closes Closes.brace
  rw [hshown] at hclose
  simpa using hclose

theorem ScansEntries.more {es : List (Filter × Filter)} {loc : Range}
    (hentry : ScansEntry (f.constructions ++ g.constructions) s (⟨.symbol .comma, loc⟩ :: r))
    (hrest : ScansEntries es r u) : ScansEntries ((f, g) :: es) s u := by
  intro top b below hnil hempty
  obtain ⟨top₁, hpass, hkept⟩ := hentry rfl top (b :: below) hnil
  have hafter := hkept.separates hnil
  obtain ⟨n, hext, -⟩ := hkept
  have hclose := hrest (top₁.after .comma) b below (by rw [hafter])
    (by rw [hafter]; exact hext.isEmpty.trans hempty)
  have hlast : ((top₁.after .comma).loc, (top₁.after .comma).separating + es.length) =
      (top.loc, top.separating + (es.length + 1)) := by
    rw [hafter, hext.loc]
    exact congrArg (Prod.mk _) (Nat.succ_add_eq_add_succ _ _)
  rw [hlast] at hclose
  simpa using hpass.closes (Closes.comma hclose)

/-- An object with entries. -/
theorem Scans.object {es : List (Filter × Filter)} {loc : Range}
    (hne : nextKind? s ≠ some (.symbol .closeBrace)) (hentries : ScansEntries es s r) :
    Scans Anywhere (.object loc es) (⟨.symbol .openBrace, loc⟩ :: s) r := by
  refine .of_passes fun fresh top below => .opening rfl ?_
  have hclose := hentries (.opened loc (nextKind? s)) top below rfl (Enclosure.isEmpty_opened hne)
  have hlength : (Enclosure.opened loc (nextKind? s)).separating + es.length = es.length :=
    Nat.zero_add _
  rw [hlength] at hclose
  exact hclose

theorem Scans.emptyObject {loc close : Range} :
    Scans Anywhere (.object loc [])
      (⟨.symbol .openBrace, loc⟩ :: ⟨.symbol .closeBrace, close⟩ :: s) s :=
  .of_passes fun _ _ _ => .opening rfl ⟨[_], rfl, rfl⟩

end

/-- What the scan does with the tokens of a part. -/
def Part.Scanned (s r : List Token) : Part → Prop
  | .pipe f => ScansFilter f s r
  | .comma f => ScansFilter f s r
  | .commaTail left f => ScansCommas left f s r
  | .alternative f => Scans Settled f s r
  | .operators _ _ left f => Continues Settled left f s r
  | .operation _ _ left f =>
    ∃ g, f.constructions = left.constructions ++ g.constructions ∧ Scans Settled g s r
  | .tighter _ left f => Continues Settled left f s r
  | .unary f => Scans Settled f s r
  | .term f => Scans Anywhere f s r
  | .suffixes _ left f => Continues Anywhere left f s r
  | .binding source loc f => Continues Anywhere source f (⟨.keyword .asWord, loc⟩ :: s) r
  | .bracket target _ f =>
    ∃ cs, f.constructions = target.constructions ++ cs ∧ ScansInside cs s r
  | .primary f => Scans Anywhere f s r
  | .args fs => ScansInside (constructionsList fs) s r
  | .branches bs otherwise =>
    ScansInside (constructionsPairs bs ++ constructionsOr otherwise) s r
  | .entries es => ScansEntries es s r
  | .entry k v => ScansEntry (k.constructions ++ v.constructions) s r
  | .entryValue f => Scans Settled f s r
  | .entryPipes left f => Continues Settled left f s r

/-- The scan goes through the tokens of every part that the rules derive. -/
theorem Derives.scanned (h : Derives fits scope d part s r) : part.Scanned s r := by
  -- By the rules. Every case leaves the bracket around the part `Kept`, so the token behind the
  -- part means to the scan what it means to the rule: a comma, say, goes to the last binding if one
  -- is open, and to the object otherwise.
  induction h with
  -- Pipes and commas
  | pipe_last _ _ _ ih => exact ih
  | pipe_more _ _ _ ih ih' => exact ih.pipe ih'
  | comma _ _ ih ih' => exact .of_commas ih ih'
  | commaTail_nil _ => exact .nil
  | commaTail_cons _ _ _ ih ih' => exact .cons ih ih'
  -- Operators
  | alternative_last _ _ _ ih ih' => exact Scans.append ih ih'
  | alternative_more _ _ _ _ ih ih' ih'' =>
    exact Scans.append ih (ih'.trans (.operator (j := .alternative) rfl (by rintro ⟨⟩) rfl ih''))
  | operators_nil _ => exact .nil
  | operators_cons hop _ _ _ _ ih ih' => exact (Continues.operation hop ih).trans ih'
  | @operation _ _ op loc _ _ _ _ _ _ _ _ _ ih ih' =>
    exact ⟨_, op.constructions_apply loc, Scans.append ih ih'⟩
  | tighter_nil _ => exact .nil
  | tighter_cons hop _ _ _ _ ih ih' ih'' =>
    exact ((Continues.operation hop ih).trans ih').trans ih''
  | unary_minus _ _ ih => exact .minus ih
  | unary_term _ _ ih => exact Scans.settled ih
  -- Suffixes
  | term _ _ ih ih' => exact Scans.append ih ih'
  | suffixes_nil _ => exact .nil
  | suffixes_field _ _ ih => exact .trans (.suffix rfl rfl fun _ _ => .inner rfl rfl .refl) ih
  | suffixes_string _ _ ih =>
    exact .trans (.suffix rfl rfl fun _ _ => .inner rfl rfl (.inner rfl rfl .refl)) ih
  | suffixes_dotBracket _ _ _ ih ih' =>
    obtain ⟨cs, hcs, hinside⟩ := ih
    refine .trans (.suffix rfl hcs fun top below => ?_) ih'
    exact .inner rfl rfl (hinside.passes (fun _ => rfl) rfl false top below)
  | suffixes_bracket _ _ _ ih ih' =>
    obtain ⟨cs, hcs, hinside⟩ := ih
    exact .trans (.suffix rfl hcs (hinside.passes (fun _ => rfl) rfl _)) ih'
  | suffixes_question _ _ ih => exact .trans (.suffix rfl rfl fun _ _ => .inner rfl rfl .refl) ih
  | suffixes_binding _ ih => exact ih
  | binding hbody ih => exact .binding ih hbody.ends
  | bracket_iterate => exact ⟨[], (List.append_nil _).symm, .closing rfl⟩
  | bracket_high _ ih => exact ⟨_, rfl, .delimiter rfl rfl (ih.closing rfl)⟩
  | bracket_key _ _ _ ih => exact ⟨_, rfl, ih.closing rfl⟩
  | bracket_low _ _ _ ih => exact ⟨_, rfl, ih.delimiter rfl rfl (.closing rfl)⟩
  | bracket_both _ _ _ _ _ ih ih' => exact ⟨_, rfl, ih.delimiter rfl rfl (ih'.closing rfl)⟩
  -- Filters that no operator joins
  | primary_string => exact .of_passes fun _ _ _ => .inner rfl rfl (.inner rfl rfl .refl)
  | primary_identity _ => exact .of_passes fun _ _ _ => .inner rfl rfl .refl
  | primary_recurse => exact .of_passes fun _ _ _ => .inner rfl rfl .refl
  | primary_field => exact .of_passes fun _ _ _ => .inner rfl rfl .refl
  | primary_literal hl =>
    exact .of_passes fun _ _ _ => .inner (role_of_literal? hl) (opensKey_of_literal? hl) .refl
  | primary_var _ => exact .of_passes fun _ _ _ => .inner rfl rfl .refl
  | primary_paren _ ih => exact .of_passes ((ih.closing rfl).passes (fun _ => rfl) rfl)
  | primary_emptyArray =>
    exact .of_passes ((ScansInside.closing rfl).passes (fun _ => rfl) rfl)
  | primary_array _ _ ih => exact .of_passes ((ih.closing rfl).passes (fun _ => rfl) rfl)
  | primary_emptyObject => exact .emptyObject
  | primary_object hne _ ih => exact .object hne ih
  | primary_cond hbranches ih =>
    exact .of_passes (ih.passes (fun _ => role_ifWord hbranches.begins) rfl)
  | primary_try _ hbody hcatch ih => exact .attempt ih hbody.begins hcatch hbody.ends
  | primary_tryCatch _ hbody _ ih ih' => exact .attemptCatch ih hbody.begins ih'
  | primary_call _ _ ih =>
    exact .of_passes fun _ top below =>
      .inner rfl rfl (ih.passes (fun _ => rfl) rfl false top below)
  | primary_name _ _ => exact .of_passes fun _ _ _ => .inner rfl rfl .refl
  -- Lists of parts
  | args_last _ ih => simpa [Part.Scanned] using ih.closing rfl
  | args_more _ _ ih ih' => exact ih.delimiter rfl rfl ih'
  | branches_end _ _ ih ih' =>
    simpa [Part.Scanned] using ih.delimiter rfl rfl (ih'.closing rfl)
  | branches_else _ _ _ ih ih' ih'' =>
    simpa [Part.Scanned] using ih.delimiter rfl rfl (ih'.delimiter rfl rfl (ih''.closing rfl))
  | branches_more _ _ _ ih ih' ih'' =>
    simpa [Part.Scanned] using ih.delimiter rfl rfl (ih'.delimiter rfl rfl ih'')
  | entries_last _ ih => exact .last ih
  | entries_more _ _ ih ih' => exact .more ih ih'
  -- Entries
  | entry_var _ => exact fun _ top _ _ => ⟨top, .inner rfl rfl .refl, .refl⟩
  | entry_computed _ _ ih ih' => exact .computed ih ih'
  | entry_keyed hword _ ih => exact .key hword rfl (ih.value _)
  | entry_short hword _ =>
    exact fun hnext => ScansEntry.key hword hnext (fun top _ _ => ⟨top, .refl, .refl⟩) hnext
  | entryValue _ _ ih ih' => exact Scans.append ih ih'
  | entryPipes_nil _ => exact .nil
  | entryPipes_cons _ _ _ ih ih' =>
    exact .trans (.operator (j := .pipe) rfl (by rintro ⟨⟩) rfl ih) ih'

/-! ## The entries of object constructions -/

/-- The braces of the tokens of a filter are its object constructions. -/
theorem constructions_of_ofTokens {globals : List String} {tokens : List Token} {f : Filter}
    (h : Filter.ofTokens globals tokens = .ok f) :
    f.constructions = (braces tokens).map Enclosure.shown := by
  unfold Filter.ofTokens at h
  dsimp only at h
  split at h
  · next hfirst =>
    obtain rfl := Except.ok.inj h
    rw [braces, scan_of_isFinish hfirst]
    rfl
  · obtain ⟨filter, hfilter, h⟩ := ok_of_bind h
    split at h
    · next hfinish =>
      obtain rfl := Except.ok.inj h
      have hderives : Derives (· < maxDepth) globals 0 (.pipe filter.value) tokens filter.rest :=
        (soundAt tokens).pipe _ 0 filter hfilter
      obtain ⟨top, ⟨out, hout, hscan⟩, -⟩ :=
        hderives.scanned (.opened default none) [] (Enclosure.settled_of_nil rfl)
      rw [braces, hscan, scan_of_isFinish hfinish, List.append_nil, hout]
    · cases h

/-- The filter of some tokens has an object construction for every closing brace. Each has as many
entries as the commas directly between its braces separate, if there are any entries, and those
are all of its commas but the ones in the bodies of bindings. -/
theorem entries_of_commas {globals : List String} {tokens : List Token} {f : Filter}
    (h : Filter.ofTokens globals tokens = .ok f) :
    f.constructions = (braces tokens).map Enclosure.shown ∧
      (∀ loc es, OccursIn (.object loc es) f →
        ∃ b ∈ braces tokens, b.loc = loc ∧ b.entries = es.length) ∧
      ∀ b ∈ braces tokens, b.isEmpty = false →
        b.entries + b.taken = b.commas + 1 ∧ (b.bindings = 0 → b.entries = b.commas + 1) := by
  have hshown := constructions_of_ofTokens h
  refine ⟨hshown, fun loc es hobject => ?_, fun b hb hempty => ?_⟩
  · have hmem := hobject.mem_constructions
    rw [hshown] at hmem
    obtain ⟨b, hb, heq⟩ := List.mem_map.mp hmem
    obtain ⟨hloc, hentries⟩ := Prod.mk.inj heq
    exact ⟨b, hb, hloc, hentries⟩
  · have hentries : b.entries = b.separating + 1 := if_neg (Bool.eq_false_iff.mp hempty)
    have hcommas : b.commas = b.separating + b.taken := rfl
    have huntaken : b.Untaken :=
      untaken_of_mem_scan (Enclosure.untaken_opened _ _) (List.forall_mem_nil _) hb
    refine ⟨by omega, fun hbindings => ?_⟩
    have htaken := (huntaken hbindings).1
    omega

/-- The comma of `{a: 1 as $x | 2, "b"}` lies in the body of the binding, which takes it. -/
theorem entries_of_commas_taken :
    let tokens : List Token := [⟨.symbol .openBrace, .empty ⟨1, 1⟩⟩, ⟨.name "a", .empty ⟨1, 2⟩⟩,
      ⟨.symbol .colon, .empty ⟨1, 3⟩⟩, ⟨.number 1, .empty ⟨1, 4⟩⟩,
      ⟨.keyword .asWord, .empty ⟨1, 5⟩⟩, ⟨.binding "x", .empty ⟨1, 6⟩⟩,
      ⟨.symbol .pipe, .empty ⟨1, 7⟩⟩, ⟨.number 2, .empty ⟨1, 8⟩⟩,
      ⟨.symbol .comma, .empty ⟨1, 9⟩⟩, ⟨.string "b", .empty ⟨1, 10⟩⟩,
      ⟨.symbol .closeBrace, .empty ⟨1, 11⟩⟩]
    let body : Filter := .comma (.empty ⟨1, 9⟩) (.literal (.empty ⟨1, 8⟩) (.number 2))
      (.literal (.empty ⟨1, 10⟩) (.string "b"))
    let value : Filter := .bind (.empty ⟨1, 5⟩) (.literal (.empty ⟨1, 4⟩) (.number 1)) "x" body
    let object : Filter := .object (.empty ⟨1, 1⟩) [(.key (.empty ⟨1, 2⟩) "a", value)]
    Filter.ofTokens [] tokens = .ok object ∧
      object.constructions = (braces tokens).map Enclosure.shown ∧
      (braces tokens).map (fun b => (b.commas, b.taken, b.entries)) = [(1, 1, 1)] := by
  intro tokens body value object
  have h : Filter.ofTokens [] tokens = .ok object := by cbv
  exact ⟨h, (entries_of_commas h).1, rfl⟩

end JsonFilter.Filter.Parser
