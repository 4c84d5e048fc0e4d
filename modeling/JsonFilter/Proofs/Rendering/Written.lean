import JsonFilter.Proofs.Grammar.Phrases
import JsonFilter.Proofs.Grammar.Source
import JsonFilter.Proofs.Json.Lexing
import JsonFilter.Proofs.Rendering.Basic

/-!
What every filter has that was written down. Its variables are named by words and its numbers have
no sign, since the lexer makes no other tokens of the kind, and it has no slice without a bound and
no condition without a branch.
-/

namespace JsonFilter

/-! ## Tokens -/

namespace Token

/-- Whether a text is a word. -/
def isWord (text : String) : Bool :=
  match text.toList with
  | [] => false
  | c :: cs => isWordStart c && cs.all isWordPart

/-- What the lexer keeps to in the tokens that hold a name or a number. -/
def Kind.isLexeme : Kind → Bool
  | .binding text => isWord text
  | .number n => n.isUnsigned
  | _ => true

section
variable {s : List Char} {t : Scanned s}

theorem kind_of_scanSymbol? {symbol : Symbol} (h : scanSymbol? symbol s = some t) :
    t.kind = .symbol symbol := by
  obtain ⟨r, _, rfl⟩ := Option.map_eq_some_iff.mp h
  rfl

theorem isWord_of_scanWord? (h : scanWord? s = some t) : isWord (String.ofList t.lexeme) := by
  unfold scanWord? at h
  split at h
  · cases h
  split at h
  · next c cs hstart =>
    obtain rfl := Option.some.inj h
    have hall : (cs.takeWhile isWordPart).all isWordPart :=
      List.all_eq_true.mpr fun d hd => List.mem_takeWhile_imp hd
    unfold isWord
    rw [String.toList_ofList]
    simp only [hstart, hall, Bool.and_self]
  · cases h

theorem kind_of_scanMarked? {mark : Char} {kind : String → Kind}
    (h : scanMarked? mark kind s = some t) : ∃ name, isWord name ∧ t.kind = kind name := by
  unfold scanMarked? at h
  split at h
  · cases h
  split at h
  · obtain ⟨w, hw, rfl⟩ := Option.map_eq_some_iff.mp h
    exact ⟨_, isWord_of_scanWord? hw, rfl⟩
  · cases h

theorem kind_of_upTo? {kind : Kind} {rest : List Char} (h : Scanned.upTo? kind s rest = some t) :
    t.kind = kind := by
  unfold Scanned.upTo? at h
  dsimp only at h
  split at h
  · obtain rfl := Option.some.inj h
    rfl
  · cases h

theorem kind_of_scanNumber? (h : scanNumber? s = some t) :
    t.kind = .number (Numeral.scan s).1.value := by
  unfold scanNumber? at h
  dsimp only at h
  split at h
  · cases h
  · exact kind_of_upTo? h

theorem isLexeme_of_scanString? (h : scanString? s = some t) : t.kind.isLexeme := by
  unfold scanString? at h
  split at h
  · split at h
    · rw [kind_of_upTo? h]
      rfl
    · cases h
  · cases h

theorem isLexeme_of_scanWord? (h : scanWord? s = some t) : t.kind.isLexeme := by
  unfold scanWord? at h
  split at h
  · cases h
  split at h
  · obtain rfl := Option.some.inj h
    unfold Kind.ofWord
    dsimp only
    split
    · rfl
    · rfl
  · cases h

theorem eq_some_of_orElse {α : Type} {x y : Option α} {a : α} (h : (x <|> y) = some a) :
    x = some a ∨ y = some a := by
  cases x with
  | none => exact .inr h
  | some b => exact .inl h

/-- The token that is taken from the front of a text, by the scanners in their order. -/
theorem isLexeme_of_scan? (h : scan? s = some t) : t.kind.isLexeme := by
  unfold scan? at h
  rcases eq_some_of_orElse h with h | h
  · obtain ⟨symbol, _, hsymbol⟩ := List.exists_of_findSome?_eq_some h
    rw [kind_of_scanSymbol? hsymbol]
    rfl
  rcases eq_some_of_orElse h with h | h
  · obtain ⟨name, _, hkind⟩ := kind_of_scanMarked? h
    rw [hkind]
    rfl
  rcases eq_some_of_orElse h with h | h
  · rw [kind_of_scanSymbol? h]
    rfl
  rcases eq_some_of_orElse h with h | h
  · obtain ⟨name, hname, hkind⟩ := kind_of_scanMarked? h
    rw [hkind]
    exact hname
  rcases eq_some_of_orElse h with h | h
  · rw [kind_of_scanNumber? h]
    exact Number.isUnsigned_value rfl
  rcases eq_some_of_orElse h with h | h
  · exact isLexeme_of_scanString? h
  · exact isLexeme_of_scanWord? h

end

theorem isLexeme_of_listFrom {p : Position} {s : List Char} {tokens : List Token}
    (h : listFrom p s = .ok tokens) : tokens.all fun t => t.kind.isLexeme := by
  induction hn : s.length using Nat.strongRecOn generalizing p s tokens with
  | ind n ih =>
    rcases hskip : skipTrivia false p s with ⟨here, r⟩
    have hshort := length_skipTrivia_le false p s
    rw [hskip] at hshort
    cases r with
    | nil =>
      rw [listFrom_finish hskip] at h
      obtain rfl := Except.ok.inj h
      rfl
    | cons c cs =>
      cases hscan : scan? (c :: cs) with
      | none =>
        rw [listFrom_error hskip hscan] at h
        cases h
      | some t =>
        rw [listFrom_scan hskip hscan] at h
        cases hrest : listFrom (here.after t.lexeme) t.rest with
        | error e =>
          rw [hrest] at h
          cases h
        | ok ts =>
          rw [hrest] at h
          obtain rfl := Except.ok.inj h
          have hlt := Nat.lt_of_lt_of_le t.shorter hshort
          rw [List.all_cons, isLexeme_of_scan? hscan, ih _ (hn ▸ hlt) hrest rfl]
          rfl

/-- The tokens of a text. -/
theorem isLexeme_of_list {text : String} {tokens : List Token} (h : list text = .ok tokens) :
    tokens.all fun t => t.kind.isLexeme :=
  isLexeme_of_listFrom h

end Token

/-! ## Filters -/

namespace Filter

/-- What a filter that was written down keeps to, besides what its parts do. -/
def isWritten : Filter → Bool
  | .literal _ (.number n) => n.isUnsigned
  | .var _ name => Token.isWord name
  | .bind _ _ name _ => Token.isWord name
  | .slice _ _ low high => low.isSome || high.isSome
  | .cond _ branches _ => !branches.isEmpty
  | _ => true

namespace Parser

/-- The filters of a phrase are as they are written, if those are that it continues. -/
def Phrase.Written : Phrase → Prop
  | .pipe f => f.all isWritten
  | .comma f => f.all isWritten
  | .alternative f => f.all isWritten
  | .operation _ f => f.all isWritten
  | .unary f => f.all isWritten
  | .term f => f.all isWritten
  | .suffixed f => f.all isWritten
  | .suffix target f => target.all isWritten → f.all isWritten
  | .bracket target _ f => target.all isWritten → f.all isWritten
  | .primary f => f.all isWritten
  | .args fs => allList isWritten fs
  | .branches bs => allPairs isWritten bs ∧ bs ≠ []
  | .otherwise f => allOption isWritten f
  | .entries es => allPairs isWritten es
  | .entry k v => k.all isWritten ∧ v.all isWritten
  | .entryValue f => f.all isWritten

theorem Operator.apply_all {left right : Filter} (op : Operator) (loc : Range)
    (hl : left.all isWritten) (hr : right.all isWritten) : (op.apply loc left right).all isWritten := by
  cases op with
  | or => simp only [apply, all, isWritten, hl, hr, Bool.and_self]
  | and => simp only [apply, all, isWritten, hl, hr, Bool.and_self]
  | binary op => simp only [apply, all, isWritten, hl, hr, Bool.and_self]

theorem isWritten_of_literal? {kind : Token.Kind} {l : Literal} (loc : Range)
    (h : literal? kind = some l) (hkind : kind.isLexeme) : (literal loc l).isWritten := by
  unfold literal? at h
  split at h
  · obtain rfl := Option.some.inj h
    exact hkind
  all_goals first | cases h; rfl | cases h

/-- What the rules make of the lexer's tokens, by induction on the derivation. -/
theorem Phrase.Derived.written {p : Phrase} {s : List Token} (h : Derived p s)
    (hs : s.all fun t => t.kind.isLexeme) : p.Written := by
  induction h with
  | @operation _ f g op t _ _ _ _ _ _ ihf ihg =>
    rw [List.all_append, List.all_cons, Bool.and_eq_true, Bool.and_eq_true] at hs
    exact Operator.apply_all op t.range (ihf hs.1) (ihg hs.2.2)
  | literal hl =>
    rw [List.all_cons, Bool.and_eq_true] at hs
    exact isWritten_of_literal? _ hl hs.1
  -- In all other rules the parts of the filter are those of the rule, and their tokens too.
  | _ =>
    simp_all only [Phrase.Written, all, allOption, allList, allPairs, isWritten, key,
      Token.Kind.isLexeme, List.all_append, List.all_cons, List.all_nil, Bool.and_eq_true,
      Bool.true_and, Bool.and_true, Bool.and_self, and_self, Option.isSome_some,
      Option.isSome_none, Bool.or_true, Bool.or_false, ne_eq, reduceCtorEq, not_false_eq_true,
      implies_true, Bool.not_eq_true', List.isEmpty_eq_false_iff]

end Parser

/-- A filter that is spelled by a text was written down. -/
theorem Spelled.written {fits : Nat → Prop} {globals : List String} {source : String} {f : Filter}
    (h : Spelled fits globals source f) : f.all isWritten := by
  obtain ⟨tokens, r, hlist, hderives, _⟩ := h
  obtain ⟨used, rfl, hderived⟩ := hderives.covers
  have hlexemes := Token.isLexeme_of_list hlist
  rw [List.all_append, Bool.and_eq_true] at hlexemes
  exact Parser.Phrase.Derived.written hderived hlexemes.1

end Filter

end JsonFilter
