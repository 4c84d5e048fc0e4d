import JsonFilter.Token.Lexer
import JsonFilter.Value.Printer
import Mathlib.Data.Bool.AllAny

/-!
The tokens of JSON text. `Reads s rest ks` says that a text `s` is read as tokens of the kinds `ks`
until `rest` is left. Such steps follow one another, so what is read of a value follows the way it
is written.
-/

namespace JsonFilter.Token

/-! ## Steps of the lexer -/

theorem listFrom_finish {p here : Position} {s : List Char}
    (h : skipTrivia false p s = (here, [])) : listFrom p s = .ok [⟨.finish, .empty here⟩] := by
  rw [listFrom.eq_def]
  split
  · next there ht =>
    obtain ⟨rfl, _⟩ := Prod.mk.inj (h.symm.trans ht)
    rfl
  · next there c cs ht => cases h.symm.trans ht

theorem listFrom_scan {p here : Position} {s : List Char} {c : Char} {cs : List Char}
    (h : skipTrivia false p s = (here, c :: cs)) {t : Scanned (c :: cs)}
    (ht : scan? (c :: cs) = some t) :
    listFrom p s = (listFrom (here.after t.lexeme) t.rest).map
      (⟨t.kind, ⟨here, here.after t.lexeme⟩⟩ :: ·) := by
  rw [listFrom.eq_def]
  split
  · next there hs => cases h.symm.trans hs
  · next there d ds hs =>
    obtain ⟨rfl, heq⟩ := Prod.mk.inj (h.symm.trans hs)
    obtain ⟨rfl, rfl⟩ := List.cons.inj heq
    split
    · next hnone => cases hnone.symm.trans ht
    · next t' ht' =>
      obtain rfl := Option.some.inj (ht.symm.trans ht')
      dsimp only
      cases listFrom (here.after t.lexeme) t.rest <;> rfl

theorem listFrom_error {p here : Position} {s : List Char} {c : Char} {cs : List Char}
    (h : skipTrivia false p s = (here, c :: cs)) (hnone : scan? (c :: cs) = none) :
    listFrom p s = .error ⟨here, c⟩ := by
  rw [listFrom.eq_def]
  split
  · next there hs => cases h.symm.trans hs
  · next there d ds hs =>
    obtain ⟨rfl, heq⟩ := Prod.mk.inj (h.symm.trans hs)
    obtain ⟨rfl, rfl⟩ := List.cons.inj heq
    split
    · rfl
    · next t ht => cases hnone.symm.trans ht

/-- Reading depends only on what is left behind the white space. -/
theorem listFrom_congr {p q : Position} {s t : List Char}
    (h : skipTrivia false p s = skipTrivia false q t) : listFrom p s = listFrom q t := by
  rcases hs : skipTrivia false p s with ⟨here, r⟩
  have ht : skipTrivia false q t = (here, r) := h.symm.trans hs
  cases r with
  | nil => rw [listFrom_finish hs, listFrom_finish ht]
  | cons c cs =>
    cases hscan : scan? (c :: cs) with
    | none => rw [listFrom_error hs hscan, listFrom_error ht hscan]
    | some x => rw [listFrom_scan hs hscan, listFrom_scan ht hscan]

/-! ## Fronts of texts -/

/-- From any place, a text is read as tokens of the kinds `ks` and then what `rest` is read as. -/
def Reads (s rest : List Char) (ks : List Kind) : Prop :=
  ∀ p, ∃ q ts, ts.map Token.kind = ks ∧ listFrom p s = (listFrom q rest).map (ts ++ ·)

namespace Reads

variable {s t rest : List Char} {ks ls : List Kind}

theorem refl (s : List Char) : Reads s s [] := by
  intro p
  refine ⟨p, [], rfl, ?_⟩
  cases listFrom p s <;> rfl

theorem trans (hs : Reads s t ks) (ht : Reads t rest ls) : Reads s rest (ks ++ ls) := by
  intro p
  obtain ⟨q, ts, hts, hs⟩ := hs p
  obtain ⟨q', us, hus, ht⟩ := ht q
  refine ⟨q', ts ++ us, by rw [List.map_append, hts, hus], ?_⟩
  rw [hs, ht]
  cases listFrom q' rest with
  | error e => rfl
  | ok ws => simp only [Except.map, List.append_assoc]

theorem space {c : Char} (hc : isSpace c) : Reads (c :: rest) rest [] := by
  intro p
  refine ⟨p.advance c, [], rfl, ?_⟩
  have hskip : skipTrivia false p (c :: rest) = skipTrivia false (p.advance c) rest := by
    rw [skipTrivia]
    simp only [hc, if_true, Bool.false_eq_true, if_false]
  rw [listFrom_congr hskip]
  cases listFrom (p.advance c) rest <;> rfl

/-- A token that begins with neither white space nor a comment. -/
theorem token {c : Char} {k : Kind} (hspace : isSpace c = false) (hhash : c ≠ '#')
    (h : ∃ t, scan? (c :: s) = some t ∧ t.kind = k ∧ t.rest = rest) : Reads (c :: s) rest [k] := by
  intro p
  obtain ⟨t, ht, rfl, rfl⟩ := h
  have hskip : skipTrivia false p (c :: s) = (p, c :: s) := by
    rw [skipTrivia]
    simp only [hspace, hhash, if_false, Bool.false_eq_true]
  exact ⟨p.after t.lexeme, [⟨t.kind, ⟨p, p.after t.lexeme⟩⟩], rfl, listFrom_scan hskip ht⟩

end Reads

/-! ## Symbols and words -/

theorem reads_comma (rest : List Char) : Reads (',' :: rest) rest [.symbol .comma] :=
  .token rfl (by decide) ⟨_, rfl, rfl, rfl⟩

theorem reads_colon (rest : List Char) : Reads (':' :: rest) rest [.symbol .colon] :=
  .token rfl (by decide) ⟨_, rfl, rfl, rfl⟩

theorem reads_minus (rest : List Char) : Reads ('-' :: rest) rest [.symbol .minus] :=
  .token rfl (by decide) ⟨_, rfl, rfl, rfl⟩

theorem reads_openBracket (rest : List Char) : Reads ('[' :: rest) rest [.symbol .openBracket] :=
  .token rfl (by decide) ⟨_, rfl, rfl, rfl⟩

theorem reads_closeBracket (rest : List Char) : Reads (']' :: rest) rest [.symbol .closeBracket] :=
  .token rfl (by decide) ⟨_, rfl, rfl, rfl⟩

theorem reads_openBrace (rest : List Char) : Reads ('\x7b' :: rest) rest [.symbol .openBrace] :=
  .token rfl (by decide) ⟨_, rfl, rfl, rfl⟩

theorem reads_closeBrace (rest : List Char) : Reads ('\x7d' :: rest) rest [.symbol .closeBrace] :=
  .token rfl (by decide) ⟨_, rfl, rfl, rfl⟩

/-- The characters that may follow a value in JSON text, or a part of a filter in a filter's. -/
def closers : List Char := [',', ']', '\x7d', '\n', ' ', '[', '(', ')', ':', ';']

/-- A text that goes on with what may follow a value. -/
def Ends (rest : List Char) : Prop := ∀ c cs, rest = c :: cs → c ∈ closers

theorem isDigit_of_mem_closers : ∀ c ∈ closers, c.isDigit = false :=
  List.all_iff_forall_prop.mp rfl

theorem ends_nil : Ends [] := by
  intro c cs h
  cases h

theorem takeWhile_of_ends {p : Char → Bool} {rest : List Char} (hp : ∀ c ∈ closers, p c = false)
    (h : Ends rest) : rest.takeWhile p = [] := by
  cases rest with
  | nil => rfl
  | cons c cs => rw [List.takeWhile_cons_of_neg (Bool.eq_false_iff.mp (hp c (h c cs rfl)))]

theorem dropWhile_of_ends {p : Char → Bool} {rest : List Char} (hp : ∀ c ∈ closers, p c = false)
    (h : Ends rest) : rest.dropWhile p = rest := by
  cases rest with
  | nil => rfl
  | cons c cs => rw [List.dropWhile_cons_of_neg (Bool.eq_false_iff.mp (hp c (h c cs rfl)))]

/-- A word is taken up to where it ends. -/
theorem scanWord?_append {c : Char} {cs rest : List Char} (hstart : isWordStart c)
    (hpart : ∀ d ∈ cs, isWordPart d) (h : Ends rest) :
    ∃ t, scanWord? (c :: (cs ++ rest)) = some t ∧ t.kind = .ofWord (String.ofList (c :: cs)) ∧
      t.lexeme = c :: cs ∧ t.rest = rest := by
  have hclosers : ∀ d ∈ closers, isWordPart d = false := List.all_iff_forall_prop.mp rfl
  have htake : (cs ++ rest).takeWhile isWordPart = cs := by
    rw [List.takeWhile_append_of_pos hpart, takeWhile_of_ends hclosers h, List.append_nil]
  have hdrop : (cs ++ rest).dropWhile isWordPart = rest := by
    rw [List.dropWhile_append_of_pos hpart, dropWhile_of_ends hclosers h]
  refine ⟨_, if_pos hstart, ?_, ?_, hdrop⟩
  · show Kind.ofWord (String.ofList (c :: (cs ++ rest).takeWhile isWordPart)) = _
    rw [htake]
  · show c :: (cs ++ rest).takeWhile isWordPart = _
    rw [htake]

/-- A keyword that is not followed by more of a word. -/
theorem reads_keyword {c : Char} {cs rest : List Char} {k : Keyword}
    (hscan : scan? (c :: (cs ++ rest)) = scanWord? (c :: (cs ++ rest)))
    (hstart : isWordStart c) (hpart : ∀ d ∈ cs, isWordPart d)
    (hword : Keyword.ofText? (String.ofList (c :: cs)) = some k) (hspace : isSpace c = false)
    (hhash : c ≠ '#') (h : Ends rest) : Reads (c :: (cs ++ rest)) rest [.keyword k] := by
  obtain ⟨t, ht, hkind, _, hrest⟩ := scanWord?_append hstart hpart h
  refine .token hspace hhash ⟨t, hscan.trans ht, ?_, hrest⟩
  rw [hkind, Kind.ofWord, hword]

theorem reads_null {rest : List Char} (h : Ends rest) :
    Reads ("null".toList ++ rest) rest [.keyword .nullWord] :=
  show Reads ('n' :: (['u', 'l', 'l'] ++ rest)) rest _ from
    reads_keyword rfl rfl (List.all_iff_forall_prop.mp rfl) (by decide) rfl (by decide) h

theorem reads_true {rest : List Char} (h : Ends rest) :
    Reads ("true".toList ++ rest) rest [.keyword .trueWord] :=
  show Reads ('t' :: (['r', 'u', 'e'] ++ rest)) rest _ from
    reads_keyword rfl rfl (List.all_iff_forall_prop.mp rfl) (by decide) rfl (by decide) h

theorem reads_false {rest : List Char} (h : Ends rest) :
    Reads ("false".toList ++ rest) rest [.keyword .falseWord] :=
  show Reads ('f' :: (['a', 'l', 's', 'e'] ++ rest)) rest _ from
    reads_keyword rfl rfl (List.all_iff_forall_prop.mp rfl) (by decide) rfl (by decide) h

/-! ## Strings -/

/-- A control character is written as its code unit. -/
theorem unit?_control {c : Char} (h : c.toNat < 0x20) :
    Text.unit? '0' '0' (Nat.digitChar (c.toNat / 16)) (Nat.digitChar (c.toNat % 16)) =
      some c.toNat := by
  have hunit : ∀ n < 0x20, Text.unit? '0' '0' (Nat.digitChar (n / 16)) (Nat.digitChar (n % 16)) =
      some n := by decide
  exact hunit c.toNat h

/-- A code unit that is no surrogate is its character. -/
theorem scanEscape?_unit {a b c d : Char} {n : Nat} (h : Text.unit? a b c d = some n)
    (hn : n < 0xd800 ∨ 0xe000 ≤ n) (r : List Char) :
    scanEscape? ('u' :: a :: b :: c :: d :: r) = some (Char.ofNat n, r) := by
  have hhigh : Text.isHighSurrogate n = false := Text.isHighSurrogate_eq_false (by omega)
  have hlow : Text.isLowSurrogate n = false := Text.isLowSurrogate_eq_false (by omega)
  simp only [scanEscape?, h, hhigh, hlow, Option.bind_eq_bind, Option.bind_some, Bool.false_eq_true,
    if_false]
  rfl

/-- A control character is read back from its code unit. -/
theorem scanEscape?_control {c : Char} (h : c.toNat < 0x20) (r : List Char) :
    scanEscape? ('u' :: '0' :: '0' :: Nat.digitChar (c.toNat / 16) ::
      Nat.digitChar (c.toNat % 16) :: r) = some (c, r) := by
  rw [scanEscape?_unit (unit?_control h) (by omega), Char.ofNat_toNat]

theorem scanChars?_escape {c : Char} {taken r u : List Char} (h : scanEscape? r = some (c, u)) :
    scanChars? taken ('\\' :: r) = scanChars? (c :: taken) u := by
  rw [scanChars?]
  split
  · next hnone => cases hnone.symm.trans h
  · next d w hsome =>
    obtain ⟨rfl, rfl⟩ := Prod.mk.inj (Option.some.inj (hsome.symm.trans h))
    rfl

theorem scanChars?_escapedChar (c : Char) (taken r : List Char) :
    scanChars? taken (Text.escapedChar c ++ r) = scanChars? (c :: taken) r := by
  unfold Text.escapedChar
  -- The seven escapes of two characters, in their order.
  split
  · next h =>
    obtain rfl := h
    exact scanChars?_escape rfl
  split
  · next h =>
    obtain rfl := h
    exact scanChars?_escape rfl
  split
  · next h =>
    obtain rfl := h
    exact scanChars?_escape rfl
  split
  · next h =>
    obtain rfl := h
    exact scanChars?_escape rfl
  split
  · next h =>
    obtain rfl := h
    exact scanChars?_escape rfl
  split
  · next h =>
    obtain rfl := h
    exact scanChars?_escape rfl
  split
  · next h =>
    obtain rfl := h
    exact scanChars?_escape rfl
  -- Other control characters, and characters that stand for themselves.
  split
  · next h => exact scanChars?_escape (scanEscape?_control h r)
  · next hquote hslash _ _ _ _ _ _ =>
    rw [List.singleton_append, scanChars?]
    · exact hquote
    · exact hslash

theorem scanChars?_escaped (s taken rest : List Char) :
    scanChars? taken (s.flatMap Text.escapedChar ++ '"' :: rest) = some (taken.reverse ++ s, rest) := by
  induction s generalizing taken with
  | nil => rw [List.flatMap_nil, List.nil_append, scanChars?, List.append_nil]
  | cons c cs ih =>
    rw [List.flatMap_cons, List.append_assoc, scanChars?_escapedChar, ih, List.reverse_cons,
      List.append_assoc, List.singleton_append]

theorem upTo?_append (kind : Kind) {lexeme : List Char} (rest : List Char) (h : lexeme ≠ []) :
    ∃ t, Scanned.upTo? kind (lexeme ++ rest) rest = some t ∧ t.kind = kind ∧ t.rest = rest := by
  have htake : (lexeme ++ rest).take ((lexeme ++ rest).length - rest.length) = lexeme := by
    rw [List.length_append, Nat.add_sub_cancel, List.take_left]
  have hsplit : (lexeme ++ rest).take ((lexeme ++ rest).length - rest.length) ++ rest =
      lexeme ++ rest ∧ (lexeme ++ rest).take ((lexeme ++ rest).length - rest.length) ≠ [] := by
    rw [htake]
    exact ⟨rfl, h⟩
  exact ⟨_, by rw [Scanned.upTo?, dif_pos hsplit], rfl, rfl⟩

theorem reads_string (s : String) (rest : List Char) :
    Reads (Text.escaped s ++ rest) rest [.string s] := by
  have hchars : scanChars? [] (s.toList.flatMap Text.escapedChar ++ ['"'] ++ rest) =
      some (s.toList, rest) := by
    rw [List.append_assoc, List.singleton_append, scanChars?_escaped]
    rfl
  obtain ⟨t, ht, hk, hrest⟩ := upTo?_append (.string (String.ofList s.toList)) rest
    (List.cons_ne_nil '"' (s.toList.flatMap Text.escapedChar ++ ['"']))
  have hstring : scanString? (Text.escaped s ++ rest) = some t := by
    simp only [Text.escaped, List.cons_append, scanString?, hchars]
    exact ht
  refine .token rfl (by decide) ⟨t, ?_, by rw [hk, String.ofList_toList], hrest⟩
  show (scanString? (Text.escaped s ++ rest) <|> scanWord? (Text.escaped s ++ rest)) = some t
  rw [hstring]
  rfl

theorem list_of_reads {s : String} {ks : List Kind} (h : Reads s.toList [] ks) :
    ∃ ts finish, Token.list s = .ok (ts ++ [finish]) ∧ ts.map Token.kind = ks ∧ finish.isFinish := by
  obtain ⟨q, ts, hts, hlist⟩ := h .start
  refine ⟨ts, ⟨.finish, .empty q⟩, ?_, hts, rfl⟩
  rw [listFrom_finish (show skipTrivia false q [] = (q, []) from rfl)] at hlist
  exact hlist

end JsonFilter.Token
