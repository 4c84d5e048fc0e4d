import JsonFilter.Proofs.Rendering.Derivation

/-!
The text of a filter as a source. If every part of a filter stands where its text is read as this
part (`isFaithful`), then the text is read back as the filter, without the ranges of its tokens and
with the largest number in place of those beyond it, or it nests too deeply.
-/

namespace JsonFilter.Filter

namespace Parser

/-! ## Cutting tokens -/

section
variable {s : List Token} {k k' : Token.Kind} {ks ls : List Token.Kind}

theorem exists_of_map_cons (h : s.map Token.kind = k :: ks) :
    ∃ loc u, s = ⟨k, loc⟩ :: u ∧ u.map Token.kind = ks := by
  obtain ⟨⟨_, loc⟩, u, rfl, rfl, hu⟩ := List.map_eq_cons_iff.mp h
  exact ⟨loc, u, rfl, hu⟩

theorem exists_of_map_append_cons (h : s.map Token.kind = ks ++ k :: ls) :
    ∃ t loc u, s = t ++ ⟨k, loc⟩ :: u ∧ t.map Token.kind = ks ∧ u.map Token.kind = ls := by
  obtain ⟨t, v, rfl, ht, hv⟩ := List.map_eq_append_iff.mp h
  obtain ⟨loc, u, rfl, hu⟩ := exists_of_map_cons hv
  exact ⟨t, loc, u, rfl, ht, hu⟩

theorem exists_of_map_append_last (h : s.map Token.kind = ks ++ [k]) :
    ∃ t loc, s = t ++ [⟨k, loc⟩] ∧ t.map Token.kind = ks := by
  obtain ⟨t, loc, u, rfl, ht, hu⟩ := exists_of_map_append_cons h
  obtain rfl := List.map_eq_nil_iff.mp hu
  exact ⟨t, loc, rfl, ht⟩

theorem exists_of_map_enclosed (h : s.map Token.kind = k :: (ks ++ [k'])) :
    ∃ loc t close, s = ⟨k, loc⟩ :: (t ++ [⟨k', close⟩]) ∧ t.map Token.kind = ks := by
  obtain ⟨loc, u, rfl, hu⟩ := exists_of_map_cons h
  obtain ⟨t, close, rfl, ht⟩ := exists_of_map_append_last hu
  exact ⟨loc, t, close, rfl, ht⟩

end

/-! ## Filters -/

/-- Tokens of the kinds that the text of a filter has derive the filter. -/
def Renders (scope : List String) (f : Filter) : Prop :=
  ∀ s, s.map Token.kind = f.kinds → ∃ g, Rendered scope f g s

namespace Renders

variable {scope : List String} {f f' : Filter} {loc : Range}

theorem joined (hf : Renders scope f) (j : Joint) (hf' : Renders scope f') :
    Renders scope (j.apply loc f f') := by
  intro s hs
  have hkinds : (j.apply loc f f').kinds = j.kinds f.kinds f'.kinds := by cases j <;> rfl
  rw [hkinds] at hs
  obtain ⟨openLoc, t, close, rfl, ht⟩ := exists_of_map_enclosed hs
  obtain ⟨u, loc', v, rfl, hu, hv⟩ := exists_of_map_append_cons ht
  obtain ⟨g, hg⟩ := hf u hu
  obtain ⟨g', hg'⟩ := hf' v hv
  exact ⟨_, hg.joined j hg' openLoc close⟩

theorem negate (hf : Renders scope f) : Renders scope (.negate loc f) := by
  intro s hs
  obtain ⟨openLoc, t, close, rfl, ht⟩ := exists_of_map_enclosed hs
  obtain ⟨loc', u, rfl, hu⟩ := exists_of_map_cons ht
  obtain ⟨g, hg⟩ := hf u hu
  exact ⟨_, hg.negate openLoc close⟩

theorem bind {name : String} (hf : Renders scope f) (hattempt : f.isAttempt = false)
    (hf' : Renders (name :: scope) f') : Renders scope (.bind loc f name f') := by
  intro s hs
  obtain ⟨openLoc, t, close, rfl, ht⟩ := exists_of_map_enclosed hs
  obtain ⟨u, loc', v, rfl, hu, hv⟩ := exists_of_map_append_cons ht
  obtain ⟨nameLoc, w, rfl, hw⟩ := exists_of_map_cons hv
  obtain ⟨pipe, x, rfl, hx⟩ := exists_of_map_cons hw
  obtain ⟨g, hg⟩ := hf u hu
  obtain ⟨g', hg'⟩ := hf' x hx
  exact ⟨_, hg.bind hattempt hg' openLoc close⟩

/-! ### Brackets after a filter -/

theorem iterate (hf : Renders scope f) (hattempt : f.isAttempt = false) :
    Renders scope (.iterate loc f) := by
  intro s hs
  obtain ⟨t, bracket, u, rfl, ht, hu⟩ := exists_of_map_append_cons hs
  obtain ⟨⟨_, close⟩, rfl, rfl⟩ := List.map_eq_singleton_iff.mp hu
  obtain ⟨g, hg⟩ := hf t ht
  exact ⟨_, hg.iterate hattempt⟩

theorem index (hf : Renders scope f) (hattempt : f.isAttempt = false) (hf' : Renders scope f') :
    Renders scope (.index loc f f') := by
  intro s hs
  obtain ⟨t, bracket, u, rfl, ht, hu⟩ := exists_of_map_append_cons hs
  obtain ⟨v, close, rfl, hv⟩ := exists_of_map_append_last hu
  obtain ⟨g, hg⟩ := hf t ht
  obtain ⟨g', hg'⟩ := hf' v hv
  exact ⟨_, hg.index hattempt hg'⟩

theorem slice {low high : Option Filter} (hf : Renders scope f) (hattempt : f.isAttempt = false)
    (hlow : ∀ g ∈ low, Renders scope g) (hhigh : ∀ g ∈ high, Renders scope g)
    (hbound : (low.isSome || high.isSome) = true) : Renders scope (.slice loc f low high) := by
  intro s hs
  obtain ⟨t, bracket, u, rfl, ht, hu⟩ := exists_of_map_append_cons hs
  obtain ⟨v, close, rfl, hv⟩ := exists_of_map_append_last hu
  obtain ⟨w, colon, x, rfl, hw, hx⟩ := exists_of_map_append_cons hv
  obtain ⟨g, hg⟩ := hf t ht
  cases low with
  | none =>
    obtain rfl := List.map_eq_nil_iff.mp hw
    cases high with
    | none => cases hbound
    | some k =>
      obtain ⟨j, hj⟩ := hhigh k rfl x hx
      exact ⟨_, hg.slice_high hattempt hj⟩
  | some k =>
    obtain ⟨j, hj⟩ := hlow k rfl w hw
    cases high with
    | none =>
      obtain rfl := List.map_eq_nil_iff.mp hx
      exact ⟨_, hg.slice_low hattempt hj⟩
    | some k' =>
      obtain ⟨j', hj'⟩ := hhigh k' rfl x hx
      exact ⟨_, hg.slice_both hattempt hj hj'⟩

/-! ### Filters that begin with a token of their own -/

theorem emptyArray : Renders scope (.array loc none) := by
  intro s hs
  obtain ⟨loc', u, rfl, hu⟩ := exists_of_map_cons hs
  obtain ⟨⟨_, close⟩, rfl, rfl⟩ := List.map_eq_singleton_iff.mp hu
  exact ⟨_, .emptyArray⟩

theorem array (hf : Renders scope f) : Renders scope (.array loc (some f)) := by
  intro s hs
  obtain ⟨loc', t, close, rfl, ht⟩ := exists_of_map_enclosed hs
  obtain ⟨g, hg⟩ := hf t ht
  exact ⟨_, hg.array⟩

theorem attempt (hf : Renders scope f) : Renders scope (.attempt loc f none) := by
  intro s hs
  obtain ⟨loc', t, rfl, ht⟩ := exists_of_map_cons hs
  obtain ⟨g, hg⟩ := hf t ht
  exact ⟨_, hg.attempt⟩

theorem attempt_catch (hf : Renders scope f) (hdangles : f.dangles = false)
    (hf' : Renders scope f') : Renders scope (.attempt loc f (some f')) := by
  intro s hs
  obtain ⟨loc', t, rfl, ht⟩ := exists_of_map_cons hs
  obtain ⟨u, catchLoc, v, rfl, hu, hv⟩ := exists_of_map_append_cons ht
  obtain ⟨g, hg⟩ := hf u hu
  obtain ⟨g', hg'⟩ := hf' v hv
  exact ⟨_, hg.attempt_catch hdangles hg'⟩

/-! ### Filters with lists of parts -/

theorem call {b : Builtin} {arg : Filter} {args : List Filter}
    (hb : b.accepts (arg :: args).length)
    (hargs : ∀ s, s.map Token.kind = argKinds (arg :: args) →
      ∃ gs, ArgsRendered scope (arg :: args) gs s) :
    Renders scope (.call loc b (arg :: args)) := by
  intro s hs
  obtain ⟨loc', t, rfl, ht⟩ := exists_of_map_cons hs
  obtain ⟨openLoc, u, close, rfl, hu⟩ := exists_of_map_enclosed ht
  obtain ⟨gs, hgs⟩ := hargs u hu
  exact ⟨_, .call hb hgs⟩

theorem emptyObject : Renders scope (.object loc []) := by
  intro s hs
  obtain ⟨loc', u, rfl, hu⟩ := exists_of_map_cons hs
  obtain ⟨⟨_, close⟩, rfl, rfl⟩ := List.map_eq_singleton_iff.mp hu
  exact ⟨_, .emptyObject⟩

theorem object {es : List (Filter × Filter)}
    (hes : ∀ s, s.map Token.kind = entryKinds es → ∃ fs, EntriesRendered scope es fs s) :
    Renders scope (.object loc es) := by
  intro s hs
  obtain ⟨loc', t, close, rfl, ht⟩ := exists_of_map_enclosed hs
  obtain ⟨fs, hfs⟩ := hes t ht
  exact ⟨_, .object hfs⟩

/-- An entry of an object, if its key is a string or has parentheses. -/
theorem entry (hf : Renders scope f) (hkey : f.isKey = true) (hf' : Renders scope f')
    {s : List Token} (hs : s.map Token.kind = f.kinds ++ .symbol .colon :: f'.kinds) :
    ∃ g g', EntryRendered scope f f' g g' s := by
  obtain ⟨t, colon, u, rfl, ht, hu⟩ := exists_of_map_append_cons hs
  obtain ⟨g', hg'⟩ := hf' u hu
  unfold isKey at hkey
  split at hkey
  · obtain ⟨⟨_, keyLoc⟩, rfl, rfl⟩ := List.map_eq_singleton_iff.mp ht
    exact ⟨_, g', .of_string hg'⟩
  · obtain ⟨g, hg⟩ := hf t ht
    exact ⟨g, g', .of_enclosed hg hkey hg'⟩

theorem cond {bs : List (Filter × Filter)}
    (hbs : ∀ s, s.map Token.kind = branchKinds bs → ∃ cs, BranchesRendered scope bs cs s) :
    Renders scope (.cond loc bs none) := by
  intro s hs
  obtain ⟨loc', t, close, rfl, ht⟩ := exists_of_map_enclosed hs
  obtain ⟨cs, hcs⟩ := hbs t ht
  exact ⟨_, .cond hcs rfl fun _ _ => .last⟩

theorem cond_else {bs : List (Filter × Filter)}
    (hbs : ∀ s, s.map Token.kind = branchKinds bs → ∃ cs, BranchesRendered scope bs cs s)
    (hf : Renders scope f) : Renders scope (.cond loc bs (some f)) := by
  intro s hs
  obtain ⟨loc', t, rfl, ht⟩ := exists_of_map_cons hs
  obtain ⟨u, elseLoc, v, rfl, hu, hv⟩ := exists_of_map_append_cons ht
  obtain ⟨w, endLoc, rfl, hw⟩ := exists_of_map_append_last hv
  obtain ⟨cs, hcs⟩ := hbs u hu
  obtain ⟨g, hg⟩ := hf w hw
  have hshown : stripOption id (some g) = stripOption Number.capped (some f) :=
    congrArg some hg.shown
  have hclosing (r : List Token) (d : Nat) : Closing scope d (some g)
      (⟨.keyword .elseWord, elseLoc⟩ :: (w ++ [⟨.keyword .endWord, endLoc⟩]) ++ r) r := by
    rw [List.cons_append, List.append_assoc]
    exact .otherwise (hg.pipe (.of_closes rfl rfl) d)
  exact ⟨_, .cond hcs hshown hclosing⟩

end Renders

mutual

/-- The tokens of a filter's text derive the filter, if every part stands where it is read as this
part. -/
theorem renders : ∀ (f : Filter) {scope : List String}, f.all isWritten → f.all isFaithful →
    f.Scoped scope → Renders scope f
  | .identity _, _, _, _, _ => fun _ => Rendered.identity
  | .recurse _, _, _, _, _ => fun _ => Rendered.recurse
  | .literal _ l, _, _, _, _ => fun _ => Rendered.literal l
  | .var _ _, _, _, _, hs => fun _ => Rendered.var hs
  | .index _ target key, _, hw, hf, ⟨ht, hk⟩ => by
    simp only [all, isFaithful, Bool.and_eq_true, Bool.not_eq_true'] at hw hf
    exact (renders target hw.1.2 hf.1.2 ht).index hf.1.1 (renders key hw.2 hf.2 hk)
  | .slice _ target low high, _, hw, hf, ⟨ht, hl, hh⟩ => by
    simp only [all, isFaithful, Bool.and_eq_true, Bool.not_eq_true'] at hw hf
    exact (renders target hw.1.1.2 hf.1.1.2 ht).slice hf.1.1.1 (rendersOption low hw.1.2 hf.1.2 hl)
      (rendersOption high hw.2 hf.2 hh) hw.1.1.1
  | .iterate _ target, _, hw, hf, ht => by
    simp only [all, isFaithful, Bool.and_eq_true, Bool.not_eq_true'] at hw hf
    exact (renders target hw.2 hf.2 ht).iterate hf.1
  | .pipe _ left right, _, hw, hf, ⟨hl, hr⟩ => by
    simp only [all, Bool.and_eq_true] at hw hf
    exact (renders left hw.1.2 hf.1.2 hl).joined .pipe (renders right hw.2 hf.2 hr)
  | .comma _ left right, _, hw, hf, ⟨hl, hr⟩ => by
    simp only [all, Bool.and_eq_true] at hw hf
    exact (renders left hw.1.2 hf.1.2 hl).joined .comma (renders right hw.2 hf.2 hr)
  | .alternative _ left right, _, hw, hf, ⟨hl, hr⟩ => by
    simp only [all, Bool.and_eq_true] at hw hf
    exact (renders left hw.1.2 hf.1.2 hl).joined .alternative (renders right hw.2 hf.2 hr)
  | .and _ left right, _, hw, hf, ⟨hl, hr⟩ => by
    simp only [all, Bool.and_eq_true] at hw hf
    exact (renders left hw.1.2 hf.1.2 hl).joined .and (renders right hw.2 hf.2 hr)
  | .or _ left right, _, hw, hf, ⟨hl, hr⟩ => by
    simp only [all, Bool.and_eq_true] at hw hf
    exact (renders left hw.1.2 hf.1.2 hl).joined .or (renders right hw.2 hf.2 hr)
  | .binary _ op left right, _, hw, hf, ⟨hl, hr⟩ => by
    simp only [all, Bool.and_eq_true] at hw hf
    exact (renders left hw.1.2 hf.1.2 hl).joined (.binary op) (renders right hw.2 hf.2 hr)
  | .negate _ operand, _, hw, hf, hs => by
    simp only [all, Bool.and_eq_true] at hw hf
    exact (renders operand hw.2 hf.2 hs).negate
  | .array _ none, _, _, _, _ => .emptyArray
  | .array _ (some body), _, hw, hf, hs => by
    simp only [all, allOption, Bool.and_eq_true] at hw hf
    exact (renders body hw.2 hf.2 hs).array
  | .object _ [], _, _, _, _ => .emptyObject
  | .object _ (e :: es), _, hw, hf, hs => by
    simp only [all, isFaithful, Bool.and_eq_true, List.all_eq_true] at hw hf
    exact .object (exists_entries (e :: es) (List.cons_ne_nil e es) hw.2 hf.2 hs hf.1)
  | .cond _ branches none, _, hw, hf, ⟨hb, _⟩ => by
    simp only [all, isWritten, Bool.and_eq_true, Bool.not_eq_true', List.isEmpty_eq_false_iff] at hw hf
    exact .cond (exists_branches branches hw.1.1 hw.1.2 hf.1.2 hb)
  | .cond _ branches (some otherwise), _, hw, hf, ⟨hb, ho⟩ => by
    simp only [all, isWritten, allOption, Bool.and_eq_true, Bool.not_eq_true', List.isEmpty_eq_false_iff]
      at hw hf
    exact .cond_else (exists_branches branches hw.1.1 hw.1.2 hf.1.2 hb)
      (renders otherwise hw.2 hf.2 ho)
  | .attempt _ body none, _, hw, hf, ⟨hb, _⟩ => by
    simp only [all, Bool.and_eq_true] at hw hf
    exact (renders body hw.1.2 hf.1.2 hb).attempt
  | .attempt _ body (some handler), _, hw, hf, ⟨hb, hh⟩ => by
    simp only [all, isFaithful, allOption, Bool.and_eq_true, Bool.not_eq_true'] at hw hf
    exact (renders body hw.1.2 hf.1.2 hb).attempt_catch hf.1.1 (renders handler hw.2 hf.2 hh)
  | .bind _ source _ body, _, hw, hf, ⟨hs, hb⟩ => by
    simp only [all, isFaithful, Bool.and_eq_true, Bool.not_eq_true'] at hw hf
    exact (renders source hw.1.2 hf.1.2 hs).bind hf.1.1 (renders body hw.2 hf.2 hb)
  | .call _ _ [], _, _, _, ⟨hb, _⟩ => fun _ => Rendered.name hb
  | .call _ _ (arg :: args), _, hw, hf, ⟨hb, hargs⟩ => by
    simp only [all, Bool.and_eq_true] at hw hf
    exact .call hb (exists_args (arg :: args) (List.cons_ne_nil arg args) hw.2 hf.2 hargs)

theorem rendersOption : ∀ (f : Option Filter) {scope : List String}, allOption isWritten f →
    allOption isFaithful f → ScopedOption f scope → ∀ g ∈ f, Renders scope g
  | none, _, _, _, _ => nofun
  | some f, _, hw, hf, hs => by
    rintro _ ⟨⟩
    exact renders f hw hf hs

theorem exists_args : ∀ (fs : List Filter) {scope : List String}, fs ≠ [] → allList isWritten fs →
    allList isFaithful fs → ScopedList fs scope → ∀ s, s.map Token.kind = argKinds fs →
    ∃ gs, ArgsRendered scope fs gs s
  | [f], _, _, hw, hf, hs, s, hkinds => by
    simp only [allList, Bool.and_eq_true] at hw hf
    obtain ⟨g, hg⟩ := renders f hw.1 hf.1 hs.1 s hkinds
    exact ⟨[g], .last hg⟩
  | f :: f' :: fs, _, _, hw, hf, hs, s, hkinds => by
    rw [allList, Bool.and_eq_true] at hw hf
    obtain ⟨t, semicolon, u, rfl, ht, hu⟩ := exists_of_map_append_cons hkinds
    obtain ⟨g, hg⟩ := renders f hw.1 hf.1 hs.1 t ht
    obtain ⟨gs, hgs⟩ := exists_args (f' :: fs) (List.cons_ne_nil f' fs) hw.2 hf.2 hs.2 u hu
    exact ⟨g :: gs, .cons hg hgs⟩

theorem exists_entries : ∀ (es : List (Filter × Filter)) {scope : List String}, es ≠ [] →
    allPairs isWritten es → allPairs isFaithful es → ScopedPairs es scope →
    (∀ e ∈ es, e.1.isKey = true) → ∀ s, s.map Token.kind = entryKinds es →
    ∃ fs, EntriesRendered scope es fs s
  | [(k, v)], _, _, hw, hf, ⟨hk, hv, _⟩, hkeys, s, hkinds => by
    simp only [allPairs, Bool.and_eq_true] at hw hf
    obtain ⟨g, g', hg⟩ := (renders k hw.1.1 hf.1.1 hk).entry (hkeys (k, v) List.mem_cons_self)
      (renders v hw.1.2 hf.1.2 hv) hkinds
    exact ⟨_, .last hg⟩
  | (k, v) :: e :: es, _, _, hw, hf, ⟨hk, hv, hes⟩, hkeys, s, hkinds => by
    rw [allPairs, Bool.and_eq_true, Bool.and_eq_true] at hw hf
    obtain ⟨hkey, hkeys⟩ := List.forall_mem_cons.mp hkeys
    rw [entryKinds, ← List.cons_append, ← List.append_assoc] at hkinds
    obtain ⟨t, comma, u, rfl, ht, hu⟩ := exists_of_map_append_cons hkinds
    obtain ⟨g, g', hg⟩ := (renders k hw.1.1 hf.1.1 hk).entry hkey (renders v hw.1.2 hf.1.2 hv) ht
    obtain ⟨fs, hfs⟩ := exists_entries (e :: es) (List.cons_ne_nil e es) hw.2 hf.2 hes hkeys u hu
    exact ⟨_, .cons hg hfs⟩

theorem exists_branches : ∀ (bs : List (Filter × Filter)) {scope : List String}, bs ≠ [] →
    allPairs isWritten bs → allPairs isFaithful bs → ScopedPairs bs scope →
    ∀ s, s.map Token.kind = branchKinds bs → ∃ cs, BranchesRendered scope bs cs s
  | [(test, body)], _, _, hw, hf, ⟨ht, hb, _⟩, s, hkinds => by
    simp only [allPairs, Bool.and_eq_true] at hw hf
    obtain ⟨t, thenLoc, u, rfl, htest, hbody⟩ := exists_of_map_append_cons hkinds
    obtain ⟨g, hg⟩ := renders test hw.1.1 hf.1.1 ht t htest
    obtain ⟨g', hg'⟩ := renders body hw.1.2 hf.1.2 hb u hbody
    exact ⟨_, .last hg hg'⟩
  | (test, body) :: b :: bs, _, _, hw, hf, ⟨ht, hb, hbs⟩, s, hkinds => by
    rw [allPairs, Bool.and_eq_true, Bool.and_eq_true] at hw hf
    obtain ⟨t, thenLoc, u, rfl, htest, hu⟩ := exists_of_map_append_cons hkinds
    obtain ⟨v, elifLoc, w, rfl, hbody, hw'⟩ := exists_of_map_append_cons hu
    obtain ⟨g, hg⟩ := renders test hw.1.1 hf.1.1 ht t htest
    obtain ⟨g', hg'⟩ := renders body hw.1.2 hf.1.2 hb v hbody
    obtain ⟨cs, hcs⟩ := exists_branches (b :: bs) (List.cons_ne_nil b bs) hw.2 hf.2 hbs w hw'
    exact ⟨_, .cons hg hg' hcs⟩

end

end Parser

/-! ## Numbers beyond the largest -/

/-- Whether a literal is not beyond the largest number, so that its text denotes it. -/
def isShown : Filter → Bool
  | .literal _ (.number n) => !n.isInfinite
  | _ => true

theorem mapNumber_capped (loc : Range) (l : Literal) (h : (literal loc l).isShown) :
    l.mapNumber Number.capped = l := by
  cases l with
  | number n => exact congrArg Literal.number (if_neg (by simpa [isShown] using h))
  | _ => rfl

mutual

/-- A filter is as its text shows it, if none of its literals is beyond the largest number. -/
theorem shown_eq_bare : ∀ f : Filter, f.all isShown → f.strip Number.capped = f.strip id
  | .identity _, _ => rfl
  | .recurse _, _ => rfl
  | .literal loc l, h => by
    rw [strip, strip, mapNumber_capped loc l h]
    cases l <;> rfl
  | .var _ _, _ => rfl
  | .index _ target key, h => by
    simp only [all, Bool.and_eq_true] at h
    rw [strip, strip, shown_eq_bare target h.1.2, shown_eq_bare key h.2]
  | .slice _ target low high, h => by
    simp only [all, Bool.and_eq_true] at h
    rw [strip, strip, shown_eq_bare target h.1.1.2, stripOption_eq low h.1.2, stripOption_eq high h.2]
  | .iterate _ target, h => by
    simp only [all, Bool.and_eq_true] at h
    rw [strip, strip, shown_eq_bare target h.2]
  | .pipe _ left right, h => by
    simp only [all, Bool.and_eq_true] at h
    rw [strip, strip, shown_eq_bare left h.1.2, shown_eq_bare right h.2]
  | .comma _ left right, h => by
    simp only [all, Bool.and_eq_true] at h
    rw [strip, strip, shown_eq_bare left h.1.2, shown_eq_bare right h.2]
  | .alternative _ left right, h => by
    simp only [all, Bool.and_eq_true] at h
    rw [strip, strip, shown_eq_bare left h.1.2, shown_eq_bare right h.2]
  | .and _ left right, h => by
    simp only [all, Bool.and_eq_true] at h
    rw [strip, strip, shown_eq_bare left h.1.2, shown_eq_bare right h.2]
  | .or _ left right, h => by
    simp only [all, Bool.and_eq_true] at h
    rw [strip, strip, shown_eq_bare left h.1.2, shown_eq_bare right h.2]
  | .binary _ _ left right, h => by
    simp only [all, Bool.and_eq_true] at h
    rw [strip, strip, shown_eq_bare left h.1.2, shown_eq_bare right h.2]
  | .negate _ operand, h => by
    simp only [all, Bool.and_eq_true] at h
    rw [strip, strip, shown_eq_bare operand h.2]
  | .array _ body, h => by
    simp only [all, Bool.and_eq_true] at h
    rw [strip, strip, stripOption_eq body h.2]
  | .object _ entries, h => by
    simp only [all, Bool.and_eq_true] at h
    rw [strip, strip, stripPairs_eq entries h.2]
  | .cond _ branches otherwise, h => by
    simp only [all, Bool.and_eq_true] at h
    rw [strip, strip, stripPairs_eq branches h.1.2, stripOption_eq otherwise h.2]
  | .attempt _ body handler, h => by
    simp only [all, Bool.and_eq_true] at h
    rw [strip, strip, shown_eq_bare body h.1.2, stripOption_eq handler h.2]
  | .bind _ source _ body, h => by
    simp only [all, Bool.and_eq_true] at h
    rw [strip, strip, shown_eq_bare source h.1.2, shown_eq_bare body h.2]
  | .call _ _ args, h => by
    simp only [all, Bool.and_eq_true] at h
    rw [strip, strip, stripList_eq args h.2]

theorem stripOption_eq : ∀ f : Option Filter, allOption isShown f →
    stripOption Number.capped f = stripOption id f
  | none, _ => rfl
  | some f, h => congrArg some (shown_eq_bare f h)

theorem stripList_eq : ∀ fs : List Filter, allList isShown fs →
    stripList Number.capped fs = stripList id fs
  | [], _ => rfl
  | f :: fs, h => by
    rw [allList, Bool.and_eq_true] at h
    rw [stripList, stripList, shown_eq_bare f h.1, stripList_eq fs h.2]

theorem stripPairs_eq : ∀ ps : List (Filter × Filter), allPairs isShown ps →
    stripPairs Number.capped ps = stripPairs id ps
  | [], _ => rfl
  | (f, g) :: ps, h => by
    rw [allPairs, Bool.and_eq_true, Bool.and_eq_true] at h
    rw [stripPairs, stripPairs, shown_eq_bare f h.1.1, shown_eq_bare g h.1.2, stripPairs_eq ps h.2]

end

/-! ## Sources -/

section
variable {globals : List String} {f : Filter}

/-- From the tokens of a faithful filter's text a filter is derived that is as the text shows it. -/
theorem derives_text (hwritten : f.all isWritten) (hfaithful : f.all isFaithful)
    (hscoped : f.Scoped globals) :
    ∃ g ts finish, Token.list f.text = .ok (ts ++ [⟨.finish, finish⟩]) ∧
      Parser.Derives (fun _ => True) globals 0 (.pipe g) (ts ++ [⟨.finish, finish⟩])
        [⟨.finish, finish⟩] ∧ g.bare = f.shown := by
  have hreads := readAs_text f hwritten [] Token.ends_nil
  rw [List.append_nil] at hreads
  obtain ⟨ts, ⟨kind, loc⟩, hlist, hts, hfinish⟩ := Token.list_of_reads hreads
  obtain rfl : kind = .finish := by simpa [Token.isFinish] using hfinish
  obtain ⟨g, hg⟩ := Parser.renders f hwritten hfaithful hscoped ts hts
  exact ⟨g, ts, loc, hlist, hg.pipe (.of_closes rfl rfl) 0, hg.shown⟩

theorem written_of_ofSource {source : String} (h : Filter.ofSource globals source = .ok f) :
    f.all isWritten ∧ f.Scoped globals := by
  obtain ⟨_, _, htokens⟩ := ofTokens_of_ofSource h
  refine ⟨?_, Parser.scoped_of_ofTokens htokens⟩
  rcases spelled_of_ofSource h with ⟨loc, rfl⟩ | hspelled
  · rfl
  · exact hspelled.written

/-- The text of a filter from a source is read back as this filter up to the ranges of its tokens,
if its parts stand where their text is read as these parts, or it nests too deeply and has more
tokens than there are levels of nesting. A literal beyond the largest number is read back as this
number, and every other as itself. -/
theorem ofSource_rendered {source : String} (hsource : Filter.ofSource globals source = .ok f)
    (hfaithful : f.all isFaithful) :
    (∃ g, Filter.ofSource globals f.text = .ok g ∧ g.bare = f.shown ∧
        (f.all isShown → g.bare = f.bare)) ∨
      (∃ tokens, Token.list f.text = .ok tokens ∧ maxDepth < tokens.length) ∧
        ∃ t, Filter.ofSource globals f.text = .error ⟨.filter (.tooDeep t), f.text⟩ := by
  obtain ⟨hwritten, hscoped⟩ := written_of_ofSource hsource
  obtain ⟨g, ts, finish, hlist, hderives, hshown⟩ := derives_text hwritten hfaithful hscoped
  rcases ofSource_of_derives hlist hderives with hok | hdeep
  · exact .inl ⟨g, hok, hshown, fun h => hshown.trans (shown_eq_bare f h)⟩
  · exact .inr hdeep

end

/-- A key that has parentheses, and an attempt that nothing follows: a text of few tokens. -/
theorem ofSource_rendered_computed : ∃ f g, Filter.ofSource [] "\x7b(.|.):try.\x7d" = .ok f ∧
    f.all isFaithful ∧ Filter.ofSource [] f.text = .ok g ∧ g.bare = f.shown ∧
    (f.all isShown → g.bare = f.bare) := by
  let tokens : List Token := [⟨.symbol .openBrace, ⟨⟨1, 1⟩, ⟨1, 2⟩⟩⟩,
    ⟨.symbol .openParen, ⟨⟨1, 2⟩, ⟨1, 3⟩⟩⟩, ⟨.symbol .dot, ⟨⟨1, 3⟩, ⟨1, 4⟩⟩⟩,
    ⟨.symbol .pipe, ⟨⟨1, 4⟩, ⟨1, 5⟩⟩⟩, ⟨.symbol .dot, ⟨⟨1, 5⟩, ⟨1, 6⟩⟩⟩,
    ⟨.symbol .closeParen, ⟨⟨1, 6⟩, ⟨1, 7⟩⟩⟩, ⟨.symbol .colon, ⟨⟨1, 7⟩, ⟨1, 8⟩⟩⟩,
    ⟨.keyword .tryWord, ⟨⟨1, 8⟩, ⟨1, 11⟩⟩⟩, ⟨.symbol .dot, ⟨⟨1, 11⟩, ⟨1, 12⟩⟩⟩,
    ⟨.symbol .closeBrace, ⟨⟨1, 12⟩, ⟨1, 13⟩⟩⟩, ⟨.finish, .empty ⟨1, 13⟩⟩]
  let key : Filter := .pipe ⟨⟨1, 4⟩, ⟨1, 5⟩⟩ (.identity ⟨⟨1, 3⟩, ⟨1, 4⟩⟩)
    (.identity ⟨⟨1, 5⟩, ⟨1, 6⟩⟩)
  let f : Filter := .object ⟨⟨1, 1⟩, ⟨1, 2⟩⟩
    [(key, .attempt ⟨⟨1, 8⟩, ⟨1, 11⟩⟩ (.identity ⟨⟨1, 11⟩, ⟨1, 12⟩⟩) none)]
  have hlist : Token.list "\x7b(.|.):try.\x7d" = .ok tokens := by
    repeat refine Token.listFrom_cons rfl ⟨_, rfl, rfl, rfl, rfl⟩ rfl ?_
    exact Token.listFrom_finish rfl
  have hsource : Filter.ofSource [] "\x7b(.|.):try.\x7d" = .ok f := by
    rw [ofSource_of_list hlist]
    cbv
  have htext : f.text = "\x7b(. | .): try .\x7d" := by cbv
  obtain ⟨g, hok, hshown, hbare⟩ := (ofSource_rendered hsource rfl).resolve_right <| by
    rintro ⟨⟨tokens, htokens, hlong⟩, -⟩
    have hshort := Token.length_le_of_list htokens
    rw [htext] at hshort
    exact absurd (hlong.trans_le hshort) (by decide)
  exact ⟨f, g, hsource, rfl, hok, hshown, hbare⟩

/-- The text of a key has no parentheses of its own, and here it is not read back. -/
example : (Filter.object default [(.recurse default, .identity default)]).text = "\x7b..: .\x7d" ∧
    (Filter.ofSource [] "\x7b..: .\x7d").isOk = false := by cbv

end JsonFilter.Filter
