import JsonFilter.Program
import JsonFilter.Proofs.Grammar.Source
import JsonFilter.Proofs.Simplify
import JsonFilter.Proofs.Token.Lexemes

/-!
Where the failures of a simplified program are told. Simplification keeps the range of a filter,
except of a pipe that loses a stage: what is left of it has the range of the other stage. The range
of a part is told by the part itself, with one exception: a key that is no string is a failure of
the object around it, which tells it by the range of the key. So failures stay where they are, but
for those of keys that are pipes with a stage `.` in them.
-/

namespace JsonFilter

open Outputs (ItemRel)

namespace Filter

/-- A pipe one of whose stages is simplified to `.`, and so is left out. -/
def LosesStage (f : Filter) : Prop :=
  ∃ loc left right loc', f = .pipe loc left right ∧
    (left.simplify = .identity loc' ∨ right.simplify = .identity loc')

theorem loc_joinPipe {loc : Range} {left right : Filter} (hl : ∀ loc', left ≠ .identity loc')
    (hr : ∀ loc', right ≠ .identity loc') : (joinPipe loc left right).loc = loc := by
  unfold joinPipe
  split
  · next loc' => exact absurd rfl (hl loc')
  · next loc' _ => exact absurd rfl (hr loc')
  · rfl

/-- Only pipes that lose a stage have another range when they are simplified. -/
theorem loc_simplify {f : Filter} (h : ¬f.LosesStage) : f.simplify.loc = f.loc := by
  cases f with
  | pipe loc left right =>
    rw [simplify]
    apply loc_joinPipe
    · exact fun loc' hl => h ⟨loc, left, right, loc', rfl, .inl hl⟩
    · exact fun loc' hr => h ⟨loc, left, right, loc', rfl, .inr hr⟩
  | _ => exact loc_simplify_of_ne_pipe nofun

/-- A failure of a filter and the same one of what it is simplified to, where they are told by
different ranges: a key is no string, and the key has lost a stage. -/
def MovedKey (f : Filter) (e e' : Failure) : Prop :=
  ∃ k v, HasKey f k ∧ k.LosesStage ∧ e = ⟨k.loc, .keyNotString v⟩ ∧
    e' = ⟨k.simplify.loc, .keyNotString v⟩

theorem admits_moved (f : Filter) : Admits (fun e e' => e = e' ∨ MovedKey f e e') f where
  caught := by
    rintro e e' (rfl | ⟨k, v, _, _, rfl, rfl⟩)
    · rfl
    · rfl
  told := fun g _ fault => .inl rfl
  key := by
    intro k hk v
    by_cases hloses : k.LosesStage
    · exact .inr ⟨k, v, hk, hloses, rfl, rfl⟩
    · rw [loc_simplify hloses]
      exact .inl rfl

end Filter

namespace Program

/-- The program with a simplified filter. -/
def simplified (p : Program) : Program := { p with filter := p.filter.simplify }

theorem compile_simplify (o : Options) (source : String) :
    compile { o with simplify := true } source =
      (compile { o with simplify := false } source).map simplified := by
  have hcompile : ∀ b, compile { o with simplify := b } source =
      (Filter.ofSource (o.globals.map Prod.fst) source).map fun f =>
        ⟨source, if b then f.simplify else f, o.globals⟩ := by
    intro b
    show (Filter.ofSource (o.globals.map Prod.fst) source >>= _) = _
    cases Filter.ofSource (o.globals.map Prod.fst) source <;> rfl
  rw [hcompile, hcompile]
  cases Filter.ofSource (o.globals.map Prod.fst) source <;> rfl

/-- Failures of a program and of the simplified one: the same, but for the range of a key. -/
def Moved (p : Program) (d d' : Diagnostic) : Prop :=
  d = d' ∨ ∃ e e', Filter.MovedKey p.filter e e' ∧ d = ⟨.run e, p.source⟩ ∧ d' = ⟨.run e', p.source⟩

theorem outputs_moved (horizon : Nat) (p : Program) (input : Input) :
    (p.outputs horizon input).Corresponds p.Moved (p.simplified.outputs horizon input) := by
  have hvalue : ∀ v, (p.outputsFor horizon v).Corresponds p.Moved
      (p.simplified.outputsFor horizon v) := by
    intro v
    apply (Filter.simplify_corresponds p.filter (Filter.admits_moved p.filter) horizon p.globals
      v).mapError
    rintro e e' (rfl | hmoved)
    · exact .inl rfl
    · exact .inr ⟨e, e', hmoved, rfl, rfl⟩
  cases input with
  | value v => exact hvalue v
  | text s => exact (Outputs.Corresponds.refl (fun d => .inl rfl) (documents s)).bind hvalue

/-- Simplification leaves every item of an execution in its place. A failure stays what it is and
where it is told, unless it says that a key of an object is no string and that key is a pipe that
loses a stage: it is then told by what is left of the key. -/
theorem simplified_items (o : Options) (source : String) {p : Program}
    (h : compile { o with simplify := false } source = .ok p) :
    compile { o with simplify := true } source = .ok p.simplified ∧ ∀ horizon input,
      List.Forall₂ (ItemRel p.Moved) (p.outputs horizon input).items
        (p.simplified.outputs horizon input).items ∧
      ((∀ k, Filter.HasKey p.filter k → ¬k.LosesStage) →
        p.simplified.outputs horizon input = p.outputs horizon input) := by
  refine ⟨by rw [compile_simplify, h]; rfl, fun horizon input => ?_⟩
  have hmoved := outputs_moved horizon p input
  refine ⟨hmoved.items, fun hkeys => ?_⟩
  have hsame : (p.outputs horizon input).Corresponds Eq (p.simplified.outputs horizon input) := by
    apply hmoved.mono
    rintro d d' (rfl | ⟨e, e', ⟨k, v, hk, hloses, _⟩, _⟩)
    · rfl
    · exact absurd hloses (hkeys k hk)
  exact hsame.eq.symm

/-- The key of an object is told by its pipe, and after simplification by the stage that is left. -/
theorem simplified_items_key :
    ∃ p, compile ⟨false, [], []⟩ "\x7b(.|null):.\x7d" = .ok p ∧
      compile ⟨true, [], []⟩ "\x7b(.|null):.\x7d" = .ok p.simplified ∧
      ∃ d d', (p.outputs 0 (.value .null)).items = [.error d] ∧
        (p.simplified.outputs 0 (.value .null)).items = [.error d'] ∧ p.Moved d d' ∧
        d.position? = some ⟨1, 4⟩ ∧ d'.position? = some ⟨1, 5⟩ := by
  let pipe : Range := ⟨⟨1, 4⟩, ⟨1, 5⟩⟩
  let null : Range := ⟨⟨1, 5⟩, ⟨1, 9⟩⟩
  let key : Filter := .pipe pipe (.identity ⟨⟨1, 3⟩, ⟨1, 4⟩⟩) (.literal null .null)
  let p : Program := ⟨"\x7b(.|null):.\x7d",
    .object ⟨⟨1, 1⟩, ⟨1, 2⟩⟩ [(key, .identity ⟨⟨1, 11⟩, ⟨1, 12⟩⟩)], [(environmentName, .object [])]⟩
  let tokens : List Token := [⟨.symbol .openBrace, ⟨⟨1, 1⟩, ⟨1, 2⟩⟩⟩,
    ⟨.symbol .openParen, ⟨⟨1, 2⟩, ⟨1, 3⟩⟩⟩, ⟨.symbol .dot, ⟨⟨1, 3⟩, ⟨1, 4⟩⟩⟩,
    ⟨.symbol .pipe, pipe⟩, ⟨.keyword .nullWord, null⟩,
    ⟨.symbol .closeParen, ⟨⟨1, 9⟩, ⟨1, 10⟩⟩⟩, ⟨.symbol .colon, ⟨⟨1, 10⟩, ⟨1, 11⟩⟩⟩,
    ⟨.symbol .dot, ⟨⟨1, 11⟩, ⟨1, 12⟩⟩⟩, ⟨.symbol .closeBrace, ⟨⟨1, 12⟩, ⟨1, 13⟩⟩⟩,
    ⟨.finish, .empty ⟨1, 13⟩⟩]
  have hlist : Token.list "\x7b(.|null):.\x7d" = .ok tokens := by
    repeat refine Token.listFrom_cons rfl ⟨_, rfl, rfl, rfl, rfl⟩ rfl ?_
    exact Token.listFrom_finish rfl
  have hp : compile ⟨false, [], []⟩ "\x7b(.|null):.\x7d" = .ok p := by
    rw [compile_of_list hlist]
    cbv
  obtain ⟨hsimplified, hitems⟩ := simplified_items ⟨false, [], []⟩ _ hp
  have hmoved := (hitems 0 (.value .null)).1
  have hbefore : (p.outputs 0 (.value .null)).items =
      [.error ⟨.run ⟨pipe, .keyNotString .null⟩, p.source⟩] := rfl
  have hafter : (p.simplified.outputs 0 (.value .null)).items =
      [.error ⟨.run ⟨null, .keyNotString .null⟩, p.source⟩] := rfl
  rw [hbefore, hafter] at hmoved
  cases hmoved with
  | cons hd _ =>
    cases hd with
    | error hd => exact ⟨p, hp, hsimplified, _, _, hbefore, hafter, hd, rfl, rfl⟩

end Program

end JsonFilter
