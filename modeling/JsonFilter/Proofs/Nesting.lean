import JsonFilter.Proofs.Grammar.Source
import JsonFilter.Proofs.Json.Derivation
import JsonFilter.Proofs.Tree

/-!
How deeply parsed filters nest. The parser takes a level of its limit for every step from a filter
to an inner part, so no path of a filter has more such steps than there are levels. It takes no
level for a step to a head: the chains that make heads take theirs one after the other, and a value
of an entry takes none at all. So the limit bounds the steps to inner parts, and nothing bounds the
steps to heads.
-/

namespace JsonFilter

namespace Filter

/-! ## Paths of parsed filters -/

/-- Every path from the filter down has at most `n` steps to inner parts. -/
def Nested (n : Nat) (f : Filter) : Prop := ∀ g c u, Path f g c u → c ≤ n

namespace Nested

variable {n : Nat} {f : Filter}

theorem node {m : Nat} (hheads : ∀ g ∈ f.heads, Nested n g) (hinner : ∀ g ∈ f.inner, Nested m g)
    (hlt : m < n) : Nested n f := by
  intro k c u hpath
  cases hpath with
  | here => exact Nat.zero_le n
  | head hg hpath => exact hheads _ hg k _ _ hpath
  | inner hg hpath => exact Nat.lt_of_le_of_lt (hinner _ hg k _ _ hpath) hlt

/-- A filter with a single head. -/
theorem suffixed {left : Filter} {m : Nat} (hheads : f.heads = [left]) (hleft : Nested n left)
    (hinner : ∀ g ∈ f.inner, Nested m g) (hlt : m < n) : Nested n f := by
  refine node (fun g hg => ?_) hinner hlt
  rw [hheads] at hg
  obtain rfl := List.mem_singleton.mp hg
  exact hleft

/-- A filter with a single head and a single inner part. -/
theorem continued {left right : Filter} {m : Nat} (hheads : f.heads = [left])
    (hleft : Nested n left) (hinner : f.inner = [right]) (hright : Nested m right) (hlt : m < n) :
    Nested n f := by
  refine suffixed hheads hleft (fun g hg => ?_) hlt
  rw [hinner] at hg
  obtain rfl := List.mem_singleton.mp hg
  exact hright

/-- A filter without heads. -/
theorem ofInner {m : Nat} (hheads : f.heads = []) (hinner : ∀ g ∈ f.inner, Nested m g)
    (hlt : m < n) : Nested n f := by
  refine node (fun g hg => ?_) hinner hlt
  rw [hheads] at hg
  cases hg

theorem leaf (h : f.IsLeaf) : Nested n f := by
  intro k c u hpath
  cases hpath with
  | here => exact Nat.zero_le n
  | head hg _ =>
    rw [h.1] at hg
    cases hg
  | inner hg _ =>
    rw [h.2] at hg
    cases hg

theorem mono {m : Nat} (h : Nested m f) (hle : m ≤ n) : Nested n f :=
  fun g c u hpath => Nat.le_trans (h g c u hpath) hle

theorem key (loc : Range) (name : String) : Nested n (Filter.key loc name) := leaf ⟨rfl, rfl⟩

end Nested

namespace Parser

/-- How deeply the parts of a filter nest that are derived at a depth: within the levels that are
left there. A chain nests as deeply as the filter that it was begun with, where that is more. -/
def Part.Bounded (d : Nat) : Part → Prop
  | .pipe f => Nested (maxDepth - d) f
  | .comma f => Nested (maxDepth - d + 1) f
  | .commaTail left f => ∀ n, maxDepth - d < n → Nested n left → Nested n f
  | .alternative f => Nested (maxDepth - d + 1) f
  | .operators _ _ left f => ∀ n, maxDepth - d < n → Nested n left → Nested n f
  | .operation _ _ left f => ∀ n, maxDepth - d < n → Nested n left → Nested n f
  | .tighter _ left f => ∀ n, maxDepth - d < n → Nested n left → Nested n f
  | .unary f => Nested (maxDepth - d + 1) f
  | .term f => Nested (maxDepth - d + 1) f
  | .suffixes base left f => base ≤ d → ∀ n, maxDepth - base < n → Nested n left → Nested n f
  | .binding source _ f => ∀ n, maxDepth - d < n → Nested n source → Nested n f
  | .bracket target _ f => ∀ n, maxDepth - d < n → Nested n target → Nested n f
  | .primary f => Nested (maxDepth - d + 1) f
  | .args fs => ∀ f ∈ fs, Nested (maxDepth - d) f
  | .branches bs otherwise =>
    (∀ b ∈ bs, Nested (maxDepth - d) b.1 ∧ Nested (maxDepth - d) b.2) ∧
      ∀ f ∈ otherwise, Nested (maxDepth - d) f
  | .entries es => ∀ e ∈ es, Nested (maxDepth - d) e.1 ∧ Nested (maxDepth - d + 1) e.2
  | .entry k v => Nested (maxDepth - d) k ∧ Nested (maxDepth - d + 1) v
  | .entryValue f => Nested (maxDepth - d + 1) f
  | .entryPipes left f => ∀ n, maxDepth - d < n → Nested n left → Nested n f

theorem Operator.apply_nested {n m : Nat} {left right : Filter} (op : Operator) (loc : Range)
    (hl : Nested n left) (hr : Nested m right) (hlt : m < n) :
    Nested n (op.apply loc left right) := by
  cases op <;> exact .continued rfl hl rfl hr hlt

/-- How deeply what the rules derive nests, by induction on the derivation. Every rule for an inner
part goes to the next level, which it has to fit. -/
theorem Derives.bounded {scope : List String} {d : Nat} {part : Part} {s r : List Token}
    (h : Derives (· < maxDepth) scope d part s r) : part.Bounded d := by
  induction h with
  -- Pipes and commas
  | @pipe_last _ d _ _ _ hd _ _ ih =>
    have hd : d < maxDepth := hd
    exact ih.mono (by omega)
  | @pipe_more _ d _ _ _ _ _ _ hd _ _ ih ih' =>
    have hd : d < maxDepth := hd
    exact .continued rfl (ih.mono (by omega)) rfl ih' (by omega)
  | comma _ _ ih ih' => exact ih' _ (Nat.lt_succ_self _) ih
  | commaTail_nil _ => exact fun n _ hl => hl
  | @commaTail_cons _ d _ _ _ _ _ _ _ hd _ _ ih ih' =>
    have hd : d < maxDepth := hd
    intro n hn hl
    exact ih' n (by omega) (.continued rfl hl rfl ih (by omega))
  -- Operators
  | alternative_last _ _ _ ih ih' => exact ih' _ (Nat.lt_succ_self _) ih
  | @alternative_more _ d _ _ _ _ _ _ _ _ _ _ hd _ ih ih' ih'' =>
    have hd : d < maxDepth := hd
    exact .continued rfl (ih' _ (Nat.lt_succ_self _) ih) rfl ih'' (by omega)
  | operators_nil _ => exact fun n _ hl => hl
  | operators_cons _ _ _ _ _ ih ih' =>
    intro n hn hl
    exact ih' n (by omega) (ih n hn hl)
  | @operation _ d _ _ _ _ _ _ _ _ hd _ _ ih ih' =>
    have hd : d < maxDepth := hd
    intro n hn hl
    exact Operator.apply_nested _ _ hl (ih' (maxDepth - d) (by omega) (ih.mono (by omega))) hn
  | tighter_nil _ => exact fun n _ hl => hl
  | tighter_cons _ _ _ _ _ ih ih' ih'' =>
    intro n hn hl
    exact ih'' n hn (ih' n (by omega) (ih n hn hl))
  | @unary_minus _ d _ _ _ _ hd _ ih =>
    have hd : d < maxDepth := hd
    exact .ofInner rfl (by simpa [inner, Part.Bounded] using ih) (by omega)
  | unary_term _ _ ih => exact ih
  -- Suffixes: a binding starts again at `base`, which is no deeper
  | term _ _ ih ih' => exact ih' (Nat.le_refl _) _ (Nat.lt_succ_self _) ih
  | suffixes_nil _ => exact fun _ n _ hl => hl
  | suffixes_field _ _ ih =>
    intro hbase n hn hl
    exact ih (by omega) n hn (.continued rfl hl rfl (.key _ _) (Nat.zero_lt_of_lt hn))
  | suffixes_string _ _ ih =>
    intro hbase n hn hl
    exact ih (by omega) n hn (.continued rfl hl rfl (.key _ _) (Nat.zero_lt_of_lt hn))
  | suffixes_dotBracket _ _ _ ih ih' =>
    intro hbase n hn hl
    exact ih' (by omega) n hn (ih n (by omega) hl)
  | suffixes_bracket _ _ _ ih ih' =>
    intro hbase n hn hl
    exact ih' (by omega) n hn (ih n (by omega) hl)
  | suffixes_question _ _ ih =>
    intro hbase n hn hl
    exact ih (by omega) n hn (.suffixed rfl hl (by simp [inner]) hn)
  | suffixes_binding _ ih => exact fun _ n hn hl => ih n hn hl
  | binding _ ih => exact fun n hn hl => .continued rfl hl rfl ih hn
  | bracket_iterate => exact fun n hn hl => .suffixed rfl hl (by simp [inner]) hn
  | bracket_high _ ih =>
    exact fun n hn hl => .suffixed rfl hl (by simpa [inner, Part.Bounded] using ih) hn
  | bracket_key _ _ _ ih => exact fun n hn hl => .continued rfl hl rfl ih hn
  | bracket_low _ _ _ ih =>
    exact fun n hn hl => .suffixed rfl hl (by simpa [inner, Part.Bounded] using ih) hn
  | bracket_both _ _ _ _ _ ih ih' =>
    exact fun n hn hl => .suffixed rfl hl (by simpa [inner, Part.Bounded] using ⟨ih, ih'⟩) hn
  -- Filters that no operator joins
  | primary_string => exact .continued rfl (.leaf ⟨rfl, rfl⟩) rfl (.key _ _) (Nat.succ_pos _)
  | primary_identity _ => exact .leaf ⟨rfl, rfl⟩
  | primary_recurse => exact .leaf ⟨rfl, rfl⟩
  | primary_field => exact .continued rfl (.leaf ⟨rfl, rfl⟩) rfl (.key _ _) (Nat.succ_pos _)
  | primary_literal _ => exact .leaf ⟨rfl, rfl⟩
  | primary_var _ => exact .leaf ⟨rfl, rfl⟩
  | primary_paren _ ih => exact ih.mono (Nat.le_succ _)
  | primary_emptyArray => exact .leaf ⟨rfl, rfl⟩
  | primary_array _ _ ih =>
    exact .ofInner rfl (by simpa [inner, Part.Bounded] using ih) (Nat.lt_succ_self _)
  | primary_emptyObject => exact .leaf ⟨rfl, rfl⟩
  | primary_object _ _ ih =>
    refine .node (fun g hg => ?_) (fun g hg => ?_) (Nat.lt_succ_self _)
    · obtain ⟨e, he, rfl⟩ := List.mem_map.mp hg
      exact (ih e he).2
    · obtain ⟨e, he, rfl⟩ := List.mem_map.mp hg
      exact (ih e he).1
  | primary_cond _ ih =>
    refine .ofInner rfl (fun g hg => ?_) (Nat.lt_succ_self _)
    simp only [inner, List.mem_append, List.mem_map, Option.mem_toList] at hg
    rcases hg with (⟨b, hb, rfl⟩ | ⟨b, hb, rfl⟩) | hg
    · exact (ih.1 b hb).1
    · exact (ih.1 b hb).2
    · exact ih.2 g hg
  | @primary_try _ d _ _ _ _ hd _ _ ih =>
    have hd : d < maxDepth := hd
    exact .suffixed rfl (ih.mono (by omega)) (by simp [inner]) (Nat.succ_pos _)
  | @primary_tryCatch _ d _ _ _ _ _ _ _ hd _ _ ih ih' =>
    have hd : d < maxDepth := hd
    exact .ofInner rfl (by simpa [inner, Part.Bounded] using ⟨ih, ih'⟩) (by omega)
  | primary_call _ _ ih => exact .ofInner rfl ih (Nat.lt_succ_self _)
  | primary_name _ _ => exact .leaf ⟨rfl, rfl⟩
  -- Lists of parts
  | args_last _ ih =>
    intro f hf
    obtain rfl := List.mem_singleton.mp hf
    exact ih
  | args_more _ _ ih ih' => exact List.forall_mem_cons.mpr ⟨ih, ih'⟩
  | branches_end _ _ ih ih' => simpa [Part.Bounded] using ⟨ih, ih'⟩
  | branches_else _ _ _ ih ih' ih'' => simpa [Part.Bounded, and_assoc] using ⟨ih, ih', ih''⟩
  | branches_more _ _ _ ih ih' ih'' =>
    exact ⟨List.forall_mem_cons.mpr ⟨⟨ih, ih'⟩, ih''.1⟩, ih''.2⟩
  | entries_last _ ih => exact List.forall_mem_cons.mpr ⟨ih, fun _ he => nomatch he⟩
  | entries_more _ _ ih ih' => exact List.forall_mem_cons.mpr ⟨ih, ih'⟩
  -- Entries: the value is at the level of the object
  | entry_var _ => exact ⟨.key _ _, .leaf ⟨rfl, rfl⟩⟩
  | entry_computed _ _ ih ih' => exact ⟨ih, ih'⟩
  | entry_keyed _ _ ih => exact ⟨.key _ _, ih⟩
  | entry_short _ _ =>
    exact ⟨.key _ _, .continued rfl (.leaf ⟨rfl, rfl⟩) rfl (.key _ _) (Nat.succ_pos _)⟩
  | entryValue _ _ ih ih' => exact ih' _ (Nat.lt_succ_self _) ih
  | entryPipes_nil _ => exact fun n _ hl => hl
  | @entryPipes_cons _ d _ _ _ _ _ _ _ hd _ _ ih ih' =>
    have hd : d < maxDepth := hd
    intro n hn hl
    exact ih' n (by omega) (.continued rfl hl rfl ih (by omega))

end Parser

theorem nested_of_spelled {globals : List String} {source : String} {f : Filter}
    (h : Spelled (· < maxDepth) globals source f) : Nested maxDepth f := by
  obtain ⟨_, _, _, hpipe, _⟩ := h
  exact hpipe.bounded

theorem nested_of_ofSource {globals : List String} {source : String} {f : Filter}
    (h : Filter.ofSource globals source = .ok f) : Nested maxDepth f := by
  rcases spelled_of_ofSource h with ⟨loc, rfl⟩ | hspelled
  · exact .leaf ⟨rfl, rfl⟩
  · exact nested_of_spelled hspelled

end Filter

/-! ## Towers of values -/

namespace Value

/-- Arrays around a key, or `null` alone: its filter has a path with `c` steps to inner parts. -/
def column : Nat → Value
  | 0 => .null
  | 1 => .object [("a", .null)]
  | c + 2 => .array [column (c + 1)]

/-- Objects around a column: its filter has a path with `u` steps to heads before the others. -/
def tower (c : Nat) : Nat → Value
  | 0 => column c
  | u + 1 => .object [("a", tower c u)]

theorem column_regular : ∀ c : Nat, AllRegular (column c).walk
  | 0 => by simp [column, walk, AllRegular, Regular]
  | 1 => by simp [column, walk, walkFields, AllRegular, Regular, Fields.keys]
  | c + 2 => by
    rw [column, walk, walkList, walkList, List.append_nil]
    exact .cons trivial (column_regular (c + 1))

theorem tower_regular (c u : Nat) : AllRegular (tower c u).walk := by
  induction u with
  | zero => exact column_regular c
  | succ u ih =>
    rw [tower, walk, walkFields, walkFields, List.append_nil]
    exact .cons (List.pairwise_singleton _ _) ih

end Value

namespace Filter

namespace Parser

/-- From the tokens of a value the rules derive, at a depth, a filter with a path to a leaf that has
`c` steps to inner parts and `u` steps to heads. -/
def Reaches (fits : Nat → Prop) (scope : List String) (d : Nat) (v : Value) (c u : Nat) : Prop :=
  ∀ ts r, ts.map Token.kind = v.kinds → Ended r →
    ∃ f g, Derives fits scope d (.alternative f) (ts ++ r) r ∧ Path f g c u ∧ g.IsLeaf

namespace Reaches

variable {fits : Nat → Prop} {scope : List String} {d c u : Nat} {v : Value}

theorem null : Reaches fits scope d .null 0 0 := by
  intro ts r hts hr
  obtain ⟨⟨_, loc⟩, rfl, rfl⟩ := List.map_eq_singleton_iff.mp hts
  exact ⟨_, _, alternative_of_primary (.primary_literal rfl) (by simp) hr, .here _, rfl, rfl⟩

/-- An array takes a level for its item. -/
theorem array (hd : fits d) (h : Reaches fits scope (d + 1) v c u) :
    Reaches fits scope d (.array [v]) (c + 1) u := by
  intro ts r hts hr
  rw [Value.kinds] at hts
  obtain ⟨⟨_, loc⟩, ts₁, rfl, rfl, hts₁⟩ := List.map_eq_cons_iff.mp hts
  obtain ⟨tv, ts₂, rfl, htv, hts₂⟩ := List.map_eq_append_iff.mp hts₁
  obtain ⟨⟨_, close⟩, rfl, rfl⟩ := List.map_eq_singleton_iff.mp hts₂
  obtain ⟨f, g, hf, hpath, hleaf⟩ := h tv _ htv (ended_closeBracket close r)
  have harray := alternative_of_items loc hd (.comma hf (.commaTail_nil (by simp)))
    (nextKind?_ne_closeBracket htv _) hr
  refine ⟨.array loc (some f), g, ?_, .inner List.mem_cons_self hpath, hleaf⟩
  simpa [Value.itemKinds] using harray

/-- An object takes none for the value of its field. -/
theorem field {k : String} (h : Reaches fits scope d v c u) :
    ∀ ts r, ts.map Token.kind = (Value.object [(k, v)]).kinds → Ended r →
      ∃ loc keyLoc f g, (Path f g c u ∧ g.IsLeaf) ∧
        Derives fits scope d (.alternative (.object loc [(.key keyLoc k, f)])) (ts ++ r) r := by
  intro ts r hts hr
  rw [Value.kinds] at hts
  obtain ⟨⟨_, loc⟩, ts₁, rfl, rfl, hts₁⟩ := List.map_eq_cons_iff.mp hts
  obtain ⟨⟨_, keyLoc⟩, ts₂, rfl, rfl, hts₂⟩ := List.map_eq_cons_iff.mp hts₁
  obtain ⟨⟨_, colon⟩, ts₃, rfl, rfl, hts₃⟩ := List.map_eq_cons_iff.mp hts₂
  obtain ⟨tv, ts₄, rfl, htv, hts₄⟩ := List.map_eq_append_iff.mp hts₃
  obtain ⟨⟨_, close⟩, rfl, rfl⟩ := List.map_eq_singleton_iff.mp hts₄
  have hend := ended_closeBrace close r
  obtain ⟨f, g, hf, hpath⟩ := h tv _ htv hend
  have hobject := alternative_of_entries loc
    (.entries_last (entry_of_alternative k keyLoc colon hf hend)) (by simp) hr
  exact ⟨loc, keyLoc, f, g, hpath, by simpa using hobject⟩

theorem object {k : String} (h : Reaches fits scope d v c u) :
    Reaches fits scope d (.object [(k, v)]) c (u + 1) := by
  intro ts r hts hr
  obtain ⟨loc, keyLoc, f, g, hpath, hf⟩ := h.field ts r hts hr
  exact ⟨_, g, hf, .head List.mem_cons_self hpath.1, hpath.2⟩

theorem key {k : String} (h : Reaches fits scope d v c u) :
    Reaches fits scope d (.object [(k, v)]) 1 0 := by
  intro ts r hts hr
  obtain ⟨loc, keyLoc, f, _, _, hf⟩ := h.field ts r hts hr
  exact ⟨_, _, hf, .inner List.mem_cons_self (.here _), rfl, rfl⟩

theorem column : ∀ {d : Nat} (c : Nat), (∀ j, j + 1 < d + c → fits j) →
    Reaches fits scope d (Value.column c) c 0
  | _, 0, _ => null
  | _, 1, _ => key null
  | d, c + 2, hfits => by
    refine array (hfits d (by omega)) (column (c + 1) fun j hj => hfits j ?_)
    omega

theorem tower (hfits : ∀ j, j + 1 < d + c → fits j) :
    Reaches fits scope d (Value.tower c u) c u := by
  induction u with
  | zero => exact column c hfits
  | succ u ih => exact object ih

end Reaches

end Parser

/-- The text of a tower spells a filter with such a path, as soon as the first `c` levels fit. -/
theorem exists_spelled (fits : Nat → Prop) (globals : List String) (c u : Nat) (hfirst : fits 0)
    (hfits : ∀ j < c, fits j) :
    ∃ source f g, Spelled fits globals source f ∧ Path f g c u ∧ g.IsLeaf := by
  have hregular := (Value.tower_regular c u).styled .compact
  obtain ⟨ts, loc, hlist, hts⟩ := Value.list_text .compact hregular
  have hreaches : Parser.Reaches fits globals 1 (Value.tower c u) c u :=
    .tower fun j hj => hfits j (by omega)
  obtain ⟨f, g, hf, hpath⟩ := hreaches ts [⟨.finish, loc⟩] hts
    (.of_nextKind? rfl (by simp [Parser.closingKinds]))
  have hpipe := Parser.Derives.pipe_last hfirst (.comma hf (.commaTail_nil (by simp))) (by simp)
  exact ⟨_, f, g, ⟨_, _, hlist, hpipe, rfl⟩, hpath⟩

/-! ## The limit -/

theorem exists_path_iff (globals : List String) (c u : Nat) :
    (∃ source f g, Filter.ofSource globals source = .ok f ∧ Path f g c u ∧ g.IsLeaf) ↔
      c ≤ maxDepth := by
  constructor
  · rintro ⟨source, f, g, hok, hpath, _⟩
    exact nested_of_ofSource hok g c u hpath
  · intro hle
    obtain ⟨source, f, g, hspelled, hpath⟩ := exists_spelled (· < maxDepth) globals c u
      (show 0 < maxDepth by decide) fun j hj => Nat.lt_of_lt_of_le hj hle
    exact ⟨source, f, g, ofSource_of_within hspelled, hpath⟩

/-- What is spelled with a path of more steps to inner parts than there are levels is too deep. -/
theorem tooDeep_of_path {globals : List String} {source : String} {f g : Filter} {c u : Nat}
    (h : Spelled (fun _ => True) globals source f) (hpath : Path f g c u) (hlt : maxDepth < c) :
    ∃ t, Filter.ofSource globals source = .error ⟨.filter (.tooDeep t), source⟩ := by
  rcases ofSource_of_spelled h with hok | ⟨_, herror⟩
  · have hle := nested_of_ofSource hok g c u hpath
    exact absurd hlt (Nat.not_lt.mpr hle)
  · exact herror

/-- What the limit of nesting says about the paths to the leaves of a parsed filter. Those with `u`
steps to heads never have more than twice as many nodes as there are levels if and only if `u` is
less than the number of levels. The limit is one on the steps to inner parts: exactly those numbers
of such steps occur that do not go beyond it, along with any number of steps to heads, and a source
that spells a filter with more of them is too deep. -/
theorem nesting_limit (u : Nat) :
    ((∀ globals source f g c, Filter.ofSource globals source = .ok f → Path f g c u → g.IsLeaf →
        c + u + 1 ≤ 2 * maxDepth) ↔ u < maxDepth) ∧
      (∀ globals c, (∃ source f g, Filter.ofSource globals source = .ok f ∧ Path f g c u ∧
        g.IsLeaf) ↔ c ≤ maxDepth) ∧
      ∀ globals source f g c, Spelled (fun _ => True) globals source f → Path f g c u →
        maxDepth < c →
        ∃ t, Filter.ofSource globals source = .error ⟨.filter (.tooDeep t), source⟩ := by
  refine ⟨⟨fun hbound => ?_, fun hlt => ?_⟩, fun globals c => exists_path_iff globals c u, ?_⟩
  · -- The tower with all the steps to inner parts that there are.
    obtain ⟨source, f, g, hok, hpath, hleaf⟩ := (exists_path_iff [] maxDepth u).mpr (Nat.le_refl _)
    have hnodes := hbound [] source f g maxDepth hok hpath hleaf
    omega
  · intro globals source f g c hok hpath _
    have hle := nested_of_ofSource hok g c u hpath
    calc
      c + u + 1 ≤ maxDepth + (u + 1) := by omega
      _ ≤ maxDepth + maxDepth := Nat.add_le_add_left hlt maxDepth
      _ = 2 * maxDepth := (Nat.two_mul maxDepth).symm
  · intro globals source f g c hspelled hpath hlt
    exact tooDeep_of_path hspelled hpath hlt

/-- A tower with an array too many. -/
theorem nesting_limit_tower :
    ∃ source t, Filter.ofSource [] source = .error ⟨.filter (.tooDeep t), source⟩ := by
  obtain ⟨source, f, g, hspelled, hpath, _⟩ :=
    exists_spelled (fun _ => True) [] (maxDepth + 1) 0 trivial fun _ _ => trivial
  exact ⟨source, (nesting_limit 0).2.2 [] source f g _ hspelled hpath (Nat.lt_succ_self maxDepth)⟩

end Filter

end JsonFilter
