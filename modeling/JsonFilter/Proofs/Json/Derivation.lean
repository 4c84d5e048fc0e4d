import JsonFilter.Eval
import JsonFilter.Proofs.Grammar.Basic
import JsonFilter.Proofs.Json.Value
import JsonFilter.Proofs.Outputs

/-!
JSON text as a filter. From the tokens of a value the rules of the grammar derive a filter whose only
output, for every input, is that value as it is read back. Items of an array are derived as a chain
of commas, and fields as entries whose keys are strings.
-/

namespace JsonFilter.Filter

/-! ## Constant filters -/

/-- A filter gives these values for every input. -/
def Yields (f : Filter) (vs : List Value) : Prop :=
  ∀ horizon env x, eval horizon f env x = .ofList vs

/-- Entries give one object, whatever fields there are before: those fields and then their own. -/
def EntriesYield (es : List (Filter × Filter)) (fs : Fields Value) : Prop :=
  ∀ horizon env x (before : Fields Value), (Fields.keys (before ++ fs)).Nodup →
    evalEntries horizon es before env x = .value (.object (before ++ fs))

theorem Yields.literal (loc : Range) (l : Literal) : Yields (.literal loc l) [l.toValue] :=
  fun _ _ _ => by rw [eval]; rfl

theorem Yields.negate (loc : Range) {f : Filter} {n : Number} (h : f.Yields [.number n]) :
    Yields (.negate loc f) [.number (-n)] := by
  intro horizon env x
  rw [eval, h horizon env x]
  rfl

theorem Yields.comma (loc : Range) {f g : Filter} {vs ws : List Value} (hf : f.Yields vs)
    (hg : g.Yields ws) : Yields (.comma loc f g) (vs ++ ws) := by
  intro horizon env x
  rw [eval, hf horizon env x, hg horizon env x, Outputs.ofList_append]

theorem collect_ofList {ε : Type} (taken vs : List Value) :
    ((Outputs.ofList vs).collect taken : Outputs ε (List Value)) =
      .value (taken.reverse ++ vs) := by
  induction vs generalizing taken with
  | nil => rw [List.append_nil]; rfl
  | cons v vs ih =>
    show (Outputs.ofList vs).collect (v :: taken) = _
    rw [ih, List.reverse_cons, List.append_assoc, List.singleton_append]

theorem Yields.array (loc : Range) {f : Filter} {vs : List Value} (h : f.Yields vs) :
    Yields (.array loc (some f)) [.array vs] := by
  intro horizon env x
  rw [eval, h horizon env x, collect_ofList]
  rfl

theorem EntriesYield.nil : EntriesYield [] [] := by
  intro horizon env x before _
  rw [evalEntries, List.append_nil]

theorem EntriesYield.cons (loc : Range) {k : String} {f : Filter} {v : Value}
    {es : List (Filter × Filter)} {fs : Fields Value} (hf : f.Yields [v]) (h : EntriesYield es fs) :
    EntriesYield ((.key loc k, f) :: es) ((k, v) :: fs) := by
  intro horizon env x before hnodup
  have hkey : k ∉ Fields.keys before := by
    intro hk
    rw [Fields.keys, List.map_append] at hnodup
    exact (List.nodup_append.mp hnodup).2.2 k hk k List.mem_cons_self rfl
  rw [evalEntries, key, eval]
  show (Outputs.value (Value.string k)).bind _ = _
  rw [Outputs.value_bind]
  dsimp only
  rw [hf horizon env x]
  show (Outputs.value v).bind _ = _
  rw [Outputs.value_bind, Fields.insert_of_not_mem hkey]
  rw [List.append_cons] at hnodup
  have hrest := h horizon env x (before ++ [(k, v)]) hnodup
  rw [List.append_assoc, List.singleton_append] at hrest
  exact hrest

theorem EntriesYield.object (loc : Range) {es : List (Filter × Filter)} {fs : Fields Value}
    (h : EntriesYield es fs) (hkeys : (Fields.keys fs).Nodup) :
    Yields (.object loc es) [.object fs] := by
  intro horizon env x
  rw [eval]
  exact h horizon env x [] hkeys

namespace Parser

/-! ## Terms without operators -/

/-- What may follow a value. -/
def closingKinds : List Token.Kind :=
  [.symbol .comma, .symbol .closeBracket, .symbol .closeBrace, .finish]

/-- Tokens that go on with what may follow a value, if they go on at all. -/
def Ended (r : List Token) : Prop := ∀ k, nextKind? r = some k → k ∈ closingKinds

section
variable {fits : Nat → Prop} {scope : List String} {d : Nat} {f : Filter} {s r : List Token}

theorem Ended.of_nextKind? {k : Token.Kind} (hnext : nextKind? r = some k) (hk : k ∈ closingKinds) :
    Ended r := by
  intro k' hk'
  obtain rfl := Option.some.inj (hnext.symm.trans hk')
  exact hk

theorem ended_closeBracket (close : Range) (r : List Token) :
    Ended (⟨.symbol .closeBracket, close⟩ :: r) :=
  .of_nextKind? rfl (by simp [closingKinds])

theorem ended_closeBrace (close : Range) (r : List Token) :
    Ended (⟨.symbol .closeBrace, close⟩ :: r) :=
  .of_nextKind? rfl (by simp [closingKinds])

theorem Ended.nextKind?_ne (h : Ended r) {k : Token.Kind} (hk : k ∉ closingKinds) :
    nextKind? r ≠ some k :=
  fun hnext => hk (h k hnext)

theorem Ended.nextOperator?_eq (h : Ended r) : nextOperator? r = none := by
  cases hnext : nextKind? r with
  | none => rw [nextOperator?, hnext]; rfl
  | some k =>
    have hall : ∀ k ∈ closingKinds, Operator.ofKind? k = none := by
      simp [closingKinds, Operator.ofKind?]
    rw [nextOperator?, hnext]
    exact hall k (h k hnext)

theorem term_of_primary (h : Derives fits scope d (.primary f) s r) (hr : Ended r) :
    Derives fits scope d (.term f) s r := by
  have hall : ∀ k ∈ closingKinds, opensSuffix k = false := by simp [closingKinds, opensSuffix]
  exact .term h (.suffixes_nil fun k hk => hall k (hr k hk))

theorem alternative_of_unary (h : Derives fits scope d (.unary f) s r) (hr : Ended r) :
    Derives fits scope d (.alternative f) s r := by
  refine .alternative_last h (.operators_nil fun op hop => ?_)
    (hr.nextKind?_ne (by decide))
  rw [hr.nextOperator?_eq] at hop
  cases hop

theorem alternative_of_primary (h : Derives fits scope d (.primary f) s r)
    (hs : nextKind? s ≠ some (.symbol .minus)) (hr : Ended r) :
    Derives fits scope d (.alternative f) s r :=
  alternative_of_unary (.unary_term hs (term_of_primary h hr)) hr

/-- The pipe in the brackets of an array takes a level. -/
theorem alternative_of_items (loc : Range) {close : Range} (hd : fits d)
    (h : Derives fits scope (d + 1) (.comma f) s (⟨.symbol .closeBracket, close⟩ :: r))
    (hs : nextKind? s ≠ some (.symbol .closeBracket)) (hr : Ended r) :
    Derives fits scope d (.alternative (.array loc (some f))) (⟨.symbol .openBracket, loc⟩ :: s) r :=
  alternative_of_primary (.primary_array hs (.pipe_last hd h (by simp))) (by simp) hr

/-- The entries of an object stay at its level. -/
theorem alternative_of_entries (loc : Range) {es : List (Filter × Filter)}
    (h : Derives fits scope d (.entries es) s r)
    (hs : nextKind? s ≠ some (.symbol .closeBrace)) (hr : Ended r) :
    Derives fits scope d (.alternative (.object loc es)) (⟨.symbol .openBrace, loc⟩ :: s) r :=
  alternative_of_primary (.primary_object hs h) (by simp) hr

/-- A field in JSON text is an entry. -/
theorem entry_of_alternative (k : String) (keyLoc colon : Range)
    (h : Derives fits scope d (.alternative f) s r) (hr : Ended r) :
    Derives fits scope d (.entry (.key keyLoc k) f)
      (⟨.string k, keyLoc⟩ :: ⟨.symbol .colon, colon⟩ :: s) r :=
  .entry_keyed rfl (.entryValue h (.entryPipes_nil (hr.nextKind?_ne (by decide))))

end

/-! ## Values -/

/-- No value begins with a closing bracket. -/
theorem nextKind?_ne_closeBracket {v : Value} {ts : List Token} (h : ts.map Token.kind = v.kinds)
    (r : List Token) : nextKind? (ts ++ r) ≠ some (.symbol .closeBracket) := by
  have hhead : ∃ k ks, v.kinds = k :: ks ∧ k ≠ .symbol .closeBracket := by
    cases v with
    | null => exact ⟨_, _, rfl, by simp⟩
    | bool b => cases b <;> exact ⟨_, _, rfl, by simp⟩
    | number n =>
      rw [Value.kinds, Number.kinds]
      dsimp only
      split
      · exact ⟨_, _, rfl, by simp⟩
      · exact ⟨_, _, rfl, by simp⟩
    | string s => exact ⟨_, _, rfl, by simp⟩
    | array items => cases items <;> exact ⟨_, _, by rw [Value.kinds], by simp⟩
    | object fields =>
      rcases fields with _ | ⟨⟨k, v⟩, fs⟩ <;> exact ⟨_, _, by rw [Value.kinds], by simp⟩
  obtain ⟨k, ks, hkinds, hne⟩ := hhead
  obtain ⟨t, ts, rfl, rfl, _⟩ := List.map_eq_cons_iff.mp (h.trans hkinds)
  intro hnext
  exact hne (Option.some.inj hnext)

theorem ended_items {vs : List Value} {ts r : List Token}
    (h : ts.map Token.kind = Value.itemKinds vs) (hr : Ended r) : Ended (ts ++ r) := by
  cases vs with
  | nil =>
    obtain rfl := List.map_eq_nil_iff.mp h
    exact hr
  | cons v vs =>
    obtain ⟨t, ts, rfl, ht, _⟩ := List.map_eq_cons_iff.mp h
    exact .of_nextKind? (congrArg some ht) (by decide)

theorem ended_fields {fs : List (String × Value)} {ts r : List Token}
    (h : ts.map Token.kind = Value.fieldKinds fs) (hr : Ended r) : Ended (ts ++ r) := by
  cases fs with
  | nil =>
    obtain rfl := List.map_eq_nil_iff.mp h
    exact hr
  | cons f fs =>
    obtain ⟨t, ts, rfl, ht, _⟩ := List.map_eq_cons_iff.mp h
    exact .of_nextKind? (congrArg some ht) (by decide)

theorem derives_literal {fits : Nat → Prop} (scope : List String) (d : Nat) {k : Token.Kind}
    {l : Literal} (hl : literal? k = some l) {ts r : List Token} (hts : ts.map Token.kind = [k])
    (hr : Ended r) : ∃ f, Derives fits scope d (.unary f) (ts ++ r) r ∧ f.Yields [l.toValue] := by
  obtain ⟨⟨_, loc⟩, rfl, rfl⟩ := List.map_eq_singleton_iff.mp hts
  refine ⟨.literal loc l, .unary_term ?_ (term_of_primary (.primary_literal hl) hr), .literal loc l⟩
  rintro hminus
  rw [Option.some.inj hminus] at hl
  cases hl

theorem derives_number {fits : Nat → Prop} (hfits : ∀ d, fits d) (scope : List String) (d : Nat)
    {n m : Number} (h : Number.ofText n.json = .ok m) {ts r : List Token}
    (hts : ts.map Token.kind = n.kinds) (hr : Ended r) :
    ∃ f, Derives fits scope d (.unary f) (ts ++ r) r ∧ f.Yields [.number n.reread] := by
  rcases Number.kinds_of_ofText h with hkinds | ⟨x, hkinds, hx⟩
  · exact derives_literal scope d rfl (hts.trans hkinds) hr
  · obtain ⟨⟨_, loc⟩, ts, rfl, rfl, hsize⟩ := List.map_eq_cons_iff.mp (hts.trans hkinds)
    obtain ⟨f, hf, hyields⟩ := derives_literal scope (d + 1) (show literal? (.number x) = _ from rfl) hsize hr
    exact ⟨.negate loc f, .unary_minus (hfits d) hf, hx ▸ hyields.negate loc⟩

mutual

/-- The tokens of a value are derived as a filter that gives this value as it is read back. -/
theorem derives_value {fits : Nat → Prop} (hfits : ∀ d, fits d) (scope : List String) :
    ∀ (v : Value) (d : Nat) (ts r : List Token), Value.AllRegular v.walk →
      ts.map Token.kind = v.kinds → Ended r →
      ∃ f, Derives fits scope d (.alternative f) (ts ++ r) r ∧ f.Yields [v.reread]
  | .null, d, ts, r, _, hts, hr => by
    obtain ⟨f, hf, hyields⟩ := derives_literal scope d rfl hts hr
    exact ⟨f, alternative_of_unary hf hr, hyields⟩
  | .bool true, d, ts, r, _, hts, hr => by
    obtain ⟨f, hf, hyields⟩ := derives_literal scope d rfl hts hr
    exact ⟨f, alternative_of_unary hf hr, hyields⟩
  | .bool false, d, ts, r, _, hts, hr => by
    obtain ⟨f, hf, hyields⟩ := derives_literal scope d rfl hts hr
    exact ⟨f, alternative_of_unary hf hr, hyields⟩
  | .number n, d, ts, r, h, hts, hr => by
    obtain ⟨hn, _⟩ := Number.of_readsBack h.head
    obtain ⟨f, hf, hyields⟩ := derives_number hfits scope d hn hts hr
    exact ⟨f, alternative_of_unary hf hr, hyields⟩
  | .string s, d, ts, r, _, hts, hr => by
    obtain ⟨f, hf, hyields⟩ := derives_literal scope d rfl hts hr
    exact ⟨f, alternative_of_unary hf hr, hyields⟩
  | .array [], d, ts, r, _, hts, hr => by
    obtain ⟨⟨_, loc⟩, ts, rfl, rfl, hclose⟩ := List.map_eq_cons_iff.mp hts
    obtain ⟨⟨_, close⟩, rfl, rfl⟩ := List.map_eq_singleton_iff.mp hclose
    refine ⟨.array loc none, alternative_of_primary .primary_emptyArray (by simp) hr, ?_⟩
    exact fun _ _ _ => by rw [eval]; rfl
  | .array (v :: vs), d, ts, r, h, hts, hr => by
    rw [Value.kinds] at hts
    obtain ⟨⟨_, loc⟩, ts₁, rfl, rfl, hts₁⟩ := List.map_eq_cons_iff.mp hts
    obtain ⟨tv, ts₂, rfl, htv, hts₂⟩ := List.map_eq_append_iff.mp hts₁
    obtain ⟨tvs, ts₃, rfl, htvs, hts₃⟩ := List.map_eq_append_iff.mp hts₂
    obtain ⟨⟨_, close⟩, rfl, rfl⟩ := List.map_eq_singleton_iff.mp hts₃
    obtain ⟨f, hf, hfy⟩ := derives_value hfits scope v (d + 1) tv _ h.tail.left htv
      (ended_items htvs (ended_closeBracket close r))
    obtain ⟨g, hg, hgy⟩ := derives_items hfits scope vs (d + 1) tvs
      (⟨.symbol .closeBracket, close⟩ :: r) h.tail.right htvs rfl hfy
    have harray := alternative_of_items loc (hfits d) (.comma hf hg)
      (nextKind?_ne_closeBracket htv _) hr
    exact ⟨.array loc (some g), by simpa using harray, hgy.array loc⟩
  | .object [], d, ts, r, _, hts, hr => by
    obtain ⟨⟨_, loc⟩, ts, rfl, rfl, hclose⟩ := List.map_eq_cons_iff.mp hts
    obtain ⟨⟨_, close⟩, rfl, rfl⟩ := List.map_eq_singleton_iff.mp hclose
    refine ⟨.object loc [], alternative_of_primary .primary_emptyObject (by simp) hr, ?_⟩
    exact EntriesYield.nil.object loc List.nodup_nil
  | .object ((k, v) :: fs), d, ts, r, h, hts, hr => by
    rw [Value.kinds] at hts
    obtain ⟨⟨_, loc⟩, ts₁, rfl, rfl, hts₁⟩ := List.map_eq_cons_iff.mp hts
    obtain ⟨⟨_, keyLoc⟩, ts₂, rfl, rfl, hts₂⟩ := List.map_eq_cons_iff.mp hts₁
    obtain ⟨⟨_, colon⟩, ts₃, rfl, rfl, hts₃⟩ := List.map_eq_cons_iff.mp hts₂
    obtain ⟨tv, ts₄, rfl, htv, hts₄⟩ := List.map_eq_append_iff.mp hts₃
    obtain ⟨tfs, ts₅, rfl, htfs, hts₅⟩ := List.map_eq_append_iff.mp hts₄
    obtain ⟨⟨_, close⟩, rfl, rfl⟩ := List.map_eq_singleton_iff.mp hts₅
    have hend := ended_fields htfs (ended_closeBrace close r)
    obtain ⟨f, hf, hfy⟩ := derives_value hfits scope v d tv _ h.tail.left htv hend
    obtain ⟨es, hes, hesy⟩ := derives_fields hfits scope fs d tfs r h.tail.right htfs
      (entry_of_alternative k keyLoc colon hf hend)
    have hobject := alternative_of_entries loc hes (by simp) hr
    have hkeys : (Fields.keys (Value.rereadFields ((k, v) :: fs))).Nodup := by
      rw [Value.keys_rereadFields]
      exact h.head
    exact ⟨_, by simpa using hobject, (hesy.cons keyLoc hfy).object loc hkeys⟩

/-- The items after the first make a longer chain of commas. -/
theorem derives_items {fits : Nat → Prop} (hfits : ∀ d, fits d) (scope : List String) :
    ∀ (vs : List Value) (d : Nat) (ts r : List Token), Value.AllRegular (Value.walkList vs) →
      ts.map Token.kind = Value.itemKinds vs → nextKind? r = some (.symbol .closeBracket) →
      ∀ {left : Filter} {ws : List Value}, left.Yields ws →
      ∃ f, Derives fits scope d (.commaTail left f) (ts ++ r) r ∧
        f.Yields (ws ++ Value.rereadList vs)
  | [], d, ts, r, _, hts, hr, left, ws, hleft => by
    obtain rfl := List.map_eq_nil_iff.mp hts
    refine ⟨left, .commaTail_nil (by rw [List.nil_append, hr]; simp), ?_⟩
    rw [Value.rereadList, List.append_nil]
    exact hleft
  | v :: vs, d, ts, r, h, hts, hr, left, ws, hleft => by
    rw [Value.itemKinds] at hts
    obtain ⟨⟨_, loc⟩, ts₁, rfl, rfl, hts₁⟩ := List.map_eq_cons_iff.mp hts
    obtain ⟨tv, tvs, rfl, htv, htvs⟩ := List.map_eq_append_iff.mp hts₁
    have hend := ended_items htvs (.of_nextKind? hr (by decide))
    obtain ⟨f, hf, hfy⟩ := derives_value hfits scope v (d + 1) tv _ h.left htv hend
    obtain ⟨g, hg, hgy⟩ := derives_items hfits scope vs (d + 1) tvs r h.right htvs hr
      (hleft.comma loc hfy)
    refine ⟨g, by simpa using Derives.commaTail_cons (hfits d) hf hg, ?_⟩
    simpa [Value.rereadList] using hgy

/-- The fields after an entry that is derived already. -/
theorem derives_fields {fits : Nat → Prop} (hfits : ∀ d, fits d) (scope : List String) :
    ∀ (fs : List (String × Value)) (d : Nat) (ts r : List Token),
      Value.AllRegular (Value.walkFields fs) → ts.map Token.kind = Value.fieldKinds fs →
      ∀ {k f : Filter} {close : Range} {s : List Token},
      Derives fits scope d (.entry k f) s (ts ++ ⟨.symbol .closeBrace, close⟩ :: r) →
      ∃ es, Derives fits scope d (.entries ((k, f) :: es)) s r ∧
        EntriesYield es (Value.rereadFields fs)
  | [], d, ts, r, _, hts, k, f, close, s, hentry => by
    obtain rfl := List.map_eq_nil_iff.mp hts
    exact ⟨[], .entries_last hentry, .nil⟩
  | (key, v) :: fs, d, ts, r, h, hts, k, f, close, s, hentry => by
    rw [Value.fieldKinds] at hts
    obtain ⟨⟨_, loc⟩, ts₁, rfl, rfl, hts₁⟩ := List.map_eq_cons_iff.mp hts
    obtain ⟨⟨_, keyLoc⟩, ts₂, rfl, rfl, hts₂⟩ := List.map_eq_cons_iff.mp hts₁
    obtain ⟨⟨_, colon⟩, ts₃, rfl, rfl, hts₃⟩ := List.map_eq_cons_iff.mp hts₂
    obtain ⟨tv, tfs, rfl, htv, htfs⟩ := List.map_eq_append_iff.mp hts₃
    have hend := ended_fields htfs (ended_closeBrace close r)
    obtain ⟨g, hg, hgy⟩ := derives_value hfits scope v d tv _ h.left htv hend
    obtain ⟨es, hes, hesy⟩ := derives_fields hfits scope fs d tfs r h.right htfs
      (entry_of_alternative key keyLoc colon hg hend)
    refine ⟨_, .entries_more (by simpa using hentry) hes, hesy.cons keyLoc hgy⟩

end

end Parser

end JsonFilter.Filter
