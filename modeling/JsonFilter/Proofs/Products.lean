import JsonFilter.Eval
import JsonFilter.Proofs.Runs
import Mathlib.Algebra.Group.Nat.Defs
import Mathlib.Data.List.Forall2
import Mathlib.Tactic.Choose

/-!
Operands with several values. Where every operand comes to an end without a failure, a filter over
them yields one item for each combination of their values, in the order of nested loops: the right
operand of an operator is the outer loop, an earlier argument or entry is outside a later one, a key
is outside its value, and the target of a slice is outside its bounds.
-/

namespace JsonFilter

/-- Every way to choose an element of each list; the choice from the first list changes last. -/
def choices {α : Type} : List (List α) → List (List α)
  | [] => [[]]
  | xs :: lists => xs.flatMap fun x => (choices lists).map (x :: ·)

theorem length_choices {α : Type} (lists : List (List α)) :
    (choices lists).length = (lists.map List.length).prod := by
  induction lists with
  | nil => rfl
  | cons xs lists ih =>
    simp only [choices, List.length_flatMap, List.length_map, ih, List.map_const',
      List.sum_replicate_nat, List.map_cons, List.prod_cons]

/-- Builtins that make one item of their input and the values of their arguments. -/
def Builtin.isOperation : Builtin → Bool
  | .empty | .map | .select | .recurse | .first | .limit | .range | .env => false
  | _ => true

namespace Outputs

variable {ε α β : Type}

theorem items_ofList (as : List α) : (ofList as : Outputs ε α).items = as.map .ok := by
  induction as with
  | nil => rfl
  | cons a as ih => exact congrArg (.ok a :: ·) ih

theorem sameRun_ofItems {o : Outputs ε α} {items : List (Except ε α)} :
    o.SameRun (.ofItems items) ↔ o.items = items ∧ o.stops = true := by
  constructor
  · rintro ⟨hitems, hstops⟩
    exact ⟨hitems.trans (items_ofItems items), hstops.trans (stops_ofItems items)⟩
  · rintro ⟨hitems, hstops⟩
    exact ⟨hitems.trans (items_ofItems items).symm, hstops.trans (stops_ofItems items).symm⟩

theorem sameRun_ofList {o : Outputs ε α} {as : List α} :
    o.SameRun (.ofList as) ↔ o.SameRun (.ofItems (as.map .ok)) := by
  rw [sameRun_ofItems]
  constructor
  · rintro ⟨hitems, hstops⟩
    exact ⟨hitems.trans (items_ofList as), hstops.trans (stops_ofList as)⟩
  · rintro ⟨hitems, hstops⟩
    exact ⟨hitems.trans (items_ofList as).symm, hstops.trans (stops_ofList as).symm⟩

namespace SameRun

variable {o : Outputs ε α} {as : List α}

/-- The items for each value come one after the other. -/
theorem bind_map {γ : Type} {c : γ → α} {cs : List γ} {f : α → Outputs ε β}
    {g : γ → List (Except ε β)} (ho : o.SameRun (.ofList (cs.map c)))
    (hf : ∀ a ∈ cs, (f (c a)).SameRun (.ofItems (g a))) :
    (o.bind f).SameRun (.ofItems (cs.flatMap g)) := by
  obtain ⟨hitems, hstops⟩ := sameRun_ofItems.mp (sameRun_ofList.mp ho)
  rw [sameRun_ofItems]
  clear ho
  induction o generalizing cs with
  | done =>
    obtain rfl := List.map_eq_nil_iff.mp (List.map_eq_nil_iff.mp hitems.symm)
    exact ⟨rfl, rfl⟩
  | unfinished => cases hstops
  | yield item rest ih =>
    obtain ⟨a, as, has, rfl, hrest⟩ := List.map_eq_cons_iff.mp hitems.symm
    obtain ⟨a, cs, rfl, rfl, rfl⟩ := List.map_eq_cons_iff.mp has
    obtain ⟨ha, hcs⟩ := List.forall_mem_cons.mp hf
    obtain ⟨hfirst, hfirstStops⟩ := sameRun_ofItems.mp ha
    obtain ⟨hlater, hlaterStops⟩ := ih () hcs hrest.symm hstops
    rw [yield_ok_bind, items_append, stops_append_eq, hfirstStops, hlaterStops, if_pos rfl, hfirst,
      hlater, List.flatMap_cons]
    exact ⟨rfl, rfl⟩
  | request source resume ih => exact ih _ hf hitems hstops

theorem bind {f : α → Outputs ε β} {g : α → List (Except ε β)} (ho : o.SameRun (.ofList as))
    (hf : ∀ a ∈ as, (f a).SameRun (.ofItems (g a))) :
    (o.bind f).SameRun (.ofItems (as.flatMap g)) :=
  bind_map (c := id) (by rwa [List.map_id]) hf

/-- `bind_map`, where no value leads to a failure. -/
theorem bind_map_values {γ : Type} {c : γ → α} {cs : List γ} {f : α → Outputs ε β}
    {g : γ → List β} (ho : o.SameRun (.ofList (cs.map c)))
    (hf : ∀ a ∈ cs, (f (c a)).SameRun (.ofList (g a))) :
    (o.bind f).SameRun (.ofList (cs.flatMap g)) := by
  rw [sameRun_ofList, List.map_flatMap]
  exact ho.bind_map fun a ha => sameRun_ofList.mp (hf a ha)

theorem bind_values {f : α → Outputs ε β} {g : α → List β} (ho : o.SameRun (.ofList as))
    (hf : ∀ a ∈ as, (f a).SameRun (.ofList (g a))) :
    (o.bind f).SameRun (.ofList (as.flatMap g)) :=
  bind_map_values (c := id) (by rwa [List.map_id]) hf

theorem andThen (f : α → Except ε β) (ho : o.SameRun (.ofList as)) :
    (o.andThen f).SameRun (.ofItems (as.map f)) := by
  rw [List.map_eq_flatMap]
  exact ho.bind fun a _ => ⟨rfl, rfl⟩

theorem length_items {items : List (Except ε α)} (ho : o.SameRun (.ofItems items)) :
    o.items.length = items.length := by
  rw [(sameRun_ofItems.mp ho).1]

end SameRun

end Outputs

namespace Filter

open Outputs (SameRun)

variable {horizon : Nat} {env : Env} {v : Value}

/-! ## Operators and slices -/

theorem binary_products (loc : Range) (op : BinaryOp) {left right : Filter} {ls rs : List Value}
    (hl : (eval horizon left env v).SameRun (.ofList ls))
    (hr : (eval horizon right env v).SameRun (.ofList rs)) :
    (eval horizon (.binary loc op left right) env v).SameRun
      (.ofItems (rs.flatMap fun r => ls.map fun l => located loc (op.apply l r))) := by
  simp only [eval]
  exact hr.bind fun r _ => hl.andThen fun l => located loc (op.apply l r)

theorem slice_products (loc : Range) {target : Filter} {low high : Option Filter}
    {ts ls hs : List Value} (ht : (eval horizon target env v).SameRun (.ofList ts))
    (hl : (evalOr horizon low .null env v).SameRun (.ofList ls))
    (hh : (evalOr horizon high .null env v).SameRun (.ofList hs)) :
    (eval horizon (.slice loc target low high) env v).SameRun
      (.ofItems (ts.flatMap fun t => ls.flatMap fun l => hs.map fun h =>
        located loc (t.slice l h))) := by
  simp only [eval]
  exact ht.bind fun t _ => hl.bind fun l _ => hh.andThen fun h => located loc (t.slice l h)

/-! ## Calls -/

/-- Filters that yield the values of some lists, one list each, on an input. -/
def YieldAll (horizon : Nat) (env : Env) (v : Value) (fs : List Filter) (lists : List (List Value)) :
    Prop :=
  List.Forall₂ (fun f xs => (eval horizon f env v).SameRun (.ofList xs)) fs lists

theorem evalArgs_choices {args : List Filter} {lists : List (List Value)}
    (h : YieldAll horizon env v args lists) :
    (evalArgs horizon args env v).SameRun (.ofList (choices lists)) := by
  induction h with
  | nil => exact ⟨rfl, rfl⟩
  | cons harg _ ih =>
    simp only [evalArgs, choices]
    refine harg.bind_values fun x _ => ?_
    rw [Outputs.sameRun_ofList, List.map_map]
    exact ih.andThen _

theorem eval_operation {b : Builtin} (hb : b.isOperation) (loc : Range) (args : List Filter) :
    eval horizon (.call loc b args) env v =
      (evalArgs horizon args env v).bind (callOf horizon loc b v) := by
  cases b with
  | empty | map | select | recurse | first | limit | range | env => cases hb
  | _ => simp only [eval]

/-- A builtin makes one item of its input and the values of its arguments. -/
theorem exists_item {b : Builtin} (hb : b.isOperation) (horizon : Nat) (loc : Range) (v : Value)
    (xs : List Value) : ∃ item, (callOf horizon loc b v xs).SameRun (.single item) := by
  have hanswer (q : Value.Question) : ∃ item, (answer loc q).SameRun (.single item) := by
    cases hpattern : Pattern.compile q.source with
    | ok automaton =>
      exact ⟨_, by simp only [answer, Outputs.items, hpattern]; rfl,
        by simp only [answer, Outputs.stops, hpattern]; rfl⟩
    | error reason =>
      exact ⟨_, by simp only [answer, Outputs.items, hpattern]; rfl,
        by simp only [answer, Outputs.stops, hpattern]; rfl⟩
  cases b with
  | test =>
    show ∃ item, (testOf loc v xs).SameRun (.single item)
    unfold testOf
    dsimp only
    split
    · exact hanswer _
    · exact ⟨_, rfl, rfl⟩
  | empty | map | select | recurse | first | limit | range | env => cases hb
  | _ => exact ⟨_, rfl, rfl⟩

theorem call_products {b : Builtin} (hb : b.isOperation) (loc : Range) {args : List Filter}
    {lists : List (List Value)} (h : YieldAll horizon env v args lists) :
    ∃ result : List Value → Except Failure Value,
      (∀ xs, (callOf horizon loc b v xs).SameRun (.single (result xs))) ∧
        (eval horizon (.call loc b args) env v).SameRun (.ofItems ((choices lists).map result)) := by
  choose result hresult using exists_item hb horizon loc v
  refine ⟨result, hresult, ?_⟩
  rw [eval_operation hb, List.map_eq_flatMap]
  exact (evalArgs_choices h).bind fun xs _ => hresult xs

/-! ## Objects -/

/-- The keys and values of entries yield the strings and values of some lists on an input. -/
def EntriesYieldAll (horizon : Nat) (env : Env) (v : Value) (entries : List (Filter × Filter))
    (lists : List (List String × List Value)) : Prop :=
  List.Forall₂ (fun e l => (eval horizon e.1 env v).SameRun (.ofList (l.1.map .string)) ∧
    (eval horizon e.2 env v).SameRun (.ofList l.2)) entries lists

/-- The pairs of a key and a value that each entry may add. -/
def pairings (lists : List (List String × List Value)) : List (List (String × Value)) :=
  choices (lists.map fun l => l.1.flatMap fun k => l.2.map fun x => (k, x))

theorem length_pairings (lists : List (List String × List Value)) :
    (pairings lists).length = (lists.map fun l => l.1.length * l.2.length).prod := by
  rw [pairings, length_choices, List.map_map]
  congr 2
  funext l
  simp [List.length_flatMap]

theorem evalEntries_pairings {entries : List (Filter × Filter)}
    {lists : List (List String × List Value)} (h : EntriesYieldAll horizon env v entries lists)
    (fields : Fields Value) : (evalEntries horizon entries fields env v).SameRun
      (.ofList ((pairings lists).map fun pairs => .object (fields.insertAll pairs))) := by
  induction h generalizing fields with
  | nil => exact ⟨rfl, rfl⟩
  | @cons entry l entries lists hentry _ ih =>
    obtain ⟨hkey, hvalue⟩ := hentry
    have hloops : (pairings (l :: lists)).map (fun pairs => Value.object (fields.insertAll pairs)) =
        l.1.flatMap fun k => l.2.flatMap fun x => (pairings lists).map fun pairs =>
          .object ((fields.insert k x).insertAll pairs) := by
      simp only [pairings, List.map_cons, choices, List.map_flatMap, List.map_map,
        List.flatMap_assoc, List.flatMap_map]
      rfl
    rw [evalEntries, hloops]
    exact hkey.bind_map_values fun k _ => hvalue.bind_values fun x _ => ih (fields.insert k x)

theorem object_products (loc : Range) {entries : List (Filter × Filter)}
    {lists : List (List String × List Value)} (h : EntriesYieldAll horizon env v entries lists) :
    (eval horizon (.object loc entries) env v).SameRun
      (.ofList ((pairings lists).map fun pairs => .object (Fields.insertAll [] pairs))) := by
  rw [eval]
  exact evalEntries_pairings h []

/-! ## All of them -/

/-- Where all operands come to an end without a failure, on an input, a filter yields one item for
each combination of their values: an operator with the right operand as the outer loop, a builtin
with earlier arguments outside later ones, a slice with the target outside the low bound and that
outside the high one, and an object with earlier entries outside later ones and a key outside its
value. So there are as many items as the numbers of values come to when multiplied. An object sets
its pairs one after the other: a key that comes more than once has the place of the first pair and
the value of the last one. -/
theorem products_of_values (horizon : Nat) (env : Env) (v : Value) (loc : Range) :
    (∀ op left right ls rs, (eval horizon left env v).SameRun (.ofList ls) →
      (eval horizon right env v).SameRun (.ofList rs) →
      let whole := eval horizon (.binary loc op left right) env v
      whole.SameRun (.ofItems (rs.flatMap fun r => ls.map fun l => located loc (op.apply l r))) ∧
        whole.items.length = rs.length * ls.length) ∧
    (∀ b args lists, b.isOperation → YieldAll horizon env v args lists →
      let whole := eval horizon (.call loc b args) env v
      ∃ result : List Value → Except Failure Value,
        (∀ xs, (callOf horizon loc b v xs).SameRun (.single (result xs))) ∧
          whole.SameRun (.ofItems ((choices lists).map result)) ∧
          whole.items.length = (lists.map List.length).prod) ∧
    (∀ target low high ts ls hs, (eval horizon target env v).SameRun (.ofList ts) →
      (evalOr horizon low .null env v).SameRun (.ofList ls) →
      (evalOr horizon high .null env v).SameRun (.ofList hs) →
      let whole := eval horizon (.slice loc target low high) env v
      whole.SameRun (.ofItems (ts.flatMap fun t => ls.flatMap fun l => hs.map fun h =>
          located loc (t.slice l h))) ∧
        whole.items.length = ts.length * (ls.length * hs.length)) ∧
    (∀ entries lists, EntriesYieldAll horizon env v entries lists →
      let whole := eval horizon (.object loc entries) env v
      whole.SameRun (.ofList ((pairings lists).map fun pairs =>
          .object (Fields.insertAll [] pairs))) ∧
        whole.items.length = (lists.map fun l => l.1.length * l.2.length).prod) ∧
    ∀ pairs : List (String × Value),
      Fields.keys (Fields.insertAll [] pairs) = (Fields.keys pairs).eraseDups ∧
        ∀ k, Fields.get? k (Fields.insertAll [] pairs) = pairs.reverse.lookup k := by
  refine ⟨?operator, ?call, ?slice, ?object, ?fields⟩
  case operator =>
    intro op left right ls rs hl hr
    have hrun := binary_products loc op hl hr
    refine ⟨hrun, hrun.length_items.trans ?_⟩
    simp [List.length_flatMap]
  case call =>
    intro b args lists hb h
    obtain ⟨result, hresult, hrun⟩ := call_products hb loc h
    refine ⟨result, hresult, hrun, hrun.length_items.trans ?_⟩
    rw [List.length_map, length_choices]
  case slice =>
    intro target low high ts ls hs ht hl hh
    have hrun := slice_products loc ht hl hh
    refine ⟨hrun, hrun.length_items.trans ?_⟩
    simp [List.length_flatMap]
  case object =>
    intro entries lists h
    have hrun := object_products loc h
    refine ⟨hrun, (Outputs.sameRun_ofList.mp hrun).length_items.trans ?_⟩
    rw [List.length_map, List.length_map, length_pairings]
  case fields =>
    intro pairs
    refine ⟨?_, fun k => ?_⟩
    · rw [Fields.keys_insertAll]
      simp [Fields.keys]
    · rw [Fields.get?_insertAll, Fields.get?, Option.or_none]

/-- Two values for each operand: a sum of strings, a test with flags, a slice of two strings with
one bound, and an object in which the key `a` comes twice. -/
theorem products_of_values_two :
    let either (s t : String) : Filter := .comma default (key default s) (key default t)
    let nulls : Filter := .comma default (.literal default .null) (.literal default .null)
    let strings (s t : String) : List Value := [.string s, .string t]
    (eval 0 (either "a" "b") [] .null).SameRun (.ofList (strings "a" "b")) ∧
      (eval 0 (.binary default .add (either "a" "b") (either "c" "d")) [] .null).SameRun
        (.ofList (strings "ac" "bc" ++ strings "ad" "bd")) ∧
      (eval 0 (.call default .test [either "a" "b", either "i" "x"]) [] .null).items.length = 4 ∧
      (eval 0 (.slice default (either "a" "b") (some nulls) none) [] .null).SameRun
        (.ofList (strings "a" "a" ++ strings "b" "b")) ∧
      (eval 0 (.object default [(either "a" "b", either "c" "d"), (key default "a", nulls)])
        [] .null).items.length = 8 ∧
      (eval 0 (.object default [(either "a" "b", either "c" "d"), (key default "a", key default "e")])
        [] .null).SameRun (.ofList [.object [("a", .string "e")], .object [("a", .string "e")],
          .object [("b", .string "c"), ("a", .string "e")],
          .object [("b", .string "d"), ("a", .string "e")]]) := by
  intro either nulls strings
  have heither (s t : String) :
      (eval 0 (either s t) [] .null).SameRun (.ofList (strings s t)) := ⟨rfl, rfl⟩
  have hnulls : (eval 0 nulls [] .null).SameRun (.ofList [.null, .null]) := ⟨rfl, rfl⟩
  have hkey (s : String) :
      (eval 0 (key default s) [] .null).SameRun (.ofList [.string s]) := ⟨rfl, rfl⟩
  obtain ⟨hbinary, hcall, hslice, hobject, -⟩ := products_of_values 0 [] .null default
  obtain ⟨_, _, _, hfour⟩ := hcall .test [either "a" "b", either "i" "x"]
    [strings "a" "b", strings "i" "x"] rfl (.cons (heither _ _) (.cons (heither _ _) .nil))
  obtain ⟨hsum, -⟩ := hbinary .add _ _ _ _ (heither "a" "b") (heither "c" "d")
  obtain ⟨hslices, -⟩ :=
    hslice (either "a" "b") (some nulls) none _ _ [.null] (heither "a" "b") hnulls ⟨rfl, rfl⟩
  obtain ⟨-, height⟩ := hobject [(either "a" "b", either "c" "d"), (key default "a", nulls)]
    [(["a", "b"], strings "c" "d"), (["a"], [.null, .null])]
    (.cons ⟨heither _ _, heither _ _⟩ (.cons ⟨hkey _, hnulls⟩ .nil))
  obtain ⟨hobjects, -⟩ :=
    hobject [(either "a" "b", either "c" "d"), (key default "a", key default "e")]
      [(["a", "b"], strings "c" "d"), (["a"], [.string "e"])]
      (.cons ⟨heither _ _, heither _ _⟩ (.cons ⟨hkey _, hkey _⟩ .nil))
  exact ⟨heither "a" "b", hsum, hfour, hslices, height, hobjects⟩

end Filter

end JsonFilter
