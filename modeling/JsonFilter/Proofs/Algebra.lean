import JsonFilter.Eval
import JsonFilter.Proofs.Grammar.Complete
import JsonFilter.Proofs.Outputs

/-!
The algebra of filters. Two filters are equivalent if nothing that is pulled from them tells them
apart, failures and their ranges included, in whatever run. Up to equivalence, pipes form a monoid
with `.` and commas one with `empty`, and pipes and bindings distribute over commas on their left.

The parser relies on the first of these laws: the stages of an object's value nest to the left, those
of a pipe everywhere else to the right, and both make equivalent filters (`parsePipe_of_entryValue`).
-/

namespace JsonFilter.Filter

/-- Filters with the same outputs in every environment, for every input and at every horizon. -/
def Equivalent (f g : Filter) : Prop :=
  ∀ horizon env v, eval horizon f env v = eval horizon g env v

namespace Equivalent

theorem refl (f : Filter) : Equivalent f f := fun _ _ _ => rfl

theorem trans {f g h : Filter} (hfg : Equivalent f g) (hgh : Equivalent g h) : Equivalent f h :=
  fun horizon env v => (hfg horizon env v).trans (hgh horizon env v)

variable (f g h : Filter) (loc loc₁ loc₂ loc₃ loc₄ : Range)

/-! ## Pipes -/

theorem pipe_assoc : Equivalent (.pipe loc₁ (.pipe loc₂ f g) h) (.pipe loc₃ f (.pipe loc₄ g h)) := by
  intro horizon env v
  simp only [eval, Outputs.bind_assoc]

theorem identity_pipe : Equivalent (.pipe loc₁ (.identity loc₂) f) f := by
  intro horizon env v
  simp only [eval, Outputs.value_bind]

theorem pipe_identity : Equivalent (.pipe loc₁ f (.identity loc₂)) f := by
  intro horizon env v
  simp only [eval]
  exact Outputs.bind_value _

/-! ## Commas -/

theorem comma_assoc :
    Equivalent (.comma loc₁ (.comma loc₂ f g) h) (.comma loc₃ f (.comma loc₄ g h)) := by
  intro horizon env v
  simp only [eval, Outputs.append_assoc]

theorem empty_comma : Equivalent (.comma loc₁ (.call loc₂ .empty []) f) f := by
  intro horizon env v
  simp only [eval, Outputs.done_append]

theorem comma_empty : Equivalent (.comma loc₁ f (.call loc₂ .empty [])) f := by
  intro horizon env v
  simp only [eval, Outputs.append_done]

/-! ## Pipes and bindings over commas -/

theorem comma_pipe : Equivalent (.pipe loc (.comma loc₁ f g) h)
    (.comma loc₂ (.pipe loc₃ f h) (.pipe loc₄ g h)) := by
  intro horizon env v
  simp only [eval, Outputs.append_bind]

theorem empty_pipe : Equivalent (.pipe loc₁ (.call loc₂ .empty []) f) (.call loc₃ .empty []) := by
  intro horizon env v
  simp only [eval, Outputs.done_bind]

theorem comma_bind (x : String) : Equivalent (.bind loc (.comma loc₁ f g) x h)
    (.comma loc₂ (.bind loc₃ f x h) (.bind loc₄ g x h)) := by
  intro horizon env v
  simp only [eval, Outputs.append_bind]

end Equivalent

/-! ## The two ways in which pipes nest -/

namespace Parser

variable {fits : Nat → Prop} {scope : List String} {d : Nat} {left f : Filter} {s r : List Token}

/-- What the stages of an object's value make of the first one is what a pipe of the first one and
the others makes of it. The induction is on the derivation, whose left operand grows by a stage at a
time, so the pipe is moved from the left to the right once for each stage. -/
theorem Derives.pipe_of_entryPipes (h : Derives fits scope d (.entryPipes left f) s r)
    (hcomma : nextKind? r ≠ some (.symbol .comma)) :
    nextKind? r ≠ some (.symbol .pipe) ∧
      (f = left ∧ s = r ∨ ∃ loc g u, s = ⟨.symbol .pipe, loc⟩ :: u ∧
        Derives fits scope d (.pipe g) u r ∧ Equivalent f (.pipe loc left g)) := by
  generalize hpart : Part.entryPipes left f = part at h
  induction h generalizing left f with
  | entryPipes_nil hne =>
    obtain ⟨rfl, rfl⟩ := Part.entryPipes.inj hpart
    exact ⟨hne, .inl ⟨rfl, rfl⟩⟩
  | @entryPipes_cons scope d left' g f' loc s u r hd halt hrest _ ih =>
    obtain ⟨rfl, rfl⟩ := Part.entryPipes.inj hpart
    have hcommas (w : List Token) (hw : nextKind? w ≠ some (.symbol .comma))
        (h : Derives fits scope (d + 1) (.alternative g) s w) :
        Derives fits scope (d + 1) (.comma g) s w := .comma h (.commaTail_nil hw)
    obtain ⟨hpipe, ⟨rfl, rfl⟩ | ⟨loc', k, w, rfl, hk, hequiv⟩⟩ := ih hcomma rfl
    · exact ⟨hpipe, .inr ⟨loc, g, s, rfl, .pipe_last hd (hcommas _ hcomma halt) hpipe, .refl _⟩⟩
    · refine ⟨hpipe, .inr ⟨loc, .pipe loc' g k, s, rfl, .pipe_more hd (hcommas _ ?_ halt) hk, ?_⟩⟩
      · simp
      · exact hequiv.trans (.pipe_assoc left g k _ _ _ _)
  | _ => cases hpart

/-- Tokens that make up the value of an entry make up a pipe, of an equivalent filter. -/
theorem Derives.pipe_of_entryValue (h : Derives fits scope (d + 1) (.entryValue f) s r)
    (hcomma : nextKind? r ≠ some (.symbol .comma)) (hd : fits d) :
    ∃ g, Derives fits scope d (.pipe g) s r ∧ Equivalent f g := by
  cases h with
  | @entryValue _ _ first _ _ u _ halt hpipes =>
    obtain ⟨hpipe, ⟨rfl, rfl⟩ | ⟨loc, g, w, rfl, hg, hequiv⟩⟩ := hpipes.pipe_of_entryPipes hcomma
    · exact ⟨f, .pipe_last hd (.comma halt (.commaTail_nil hcomma)) hpipe, .refl f⟩
    · refine ⟨.pipe loc first g, .pipe_more hd (.comma halt (.commaTail_nil ?_)) hg, hequiv⟩
      simp

/-- What the parser reads as the value of an entry, up to something other than a comma, it reads as
a pipe where a pipe is asked for, up to the same token and as an equivalent filter. -/
theorem parsePipe_of_entryValue {ctx : Context} {p : Front Filter s}
    (h : parseEntryValue ctx (d + 1) s = .ok p)
    (hcomma : nextKind? p.rest ≠ some (.symbol .comma)) (hd : d < maxDepth) :
    ∃ q, parsePipe ctx d s = .ok q ∧ q.rest = p.rest ∧ Equivalent p.value q.value := by
  have hvalue : Within ctx.scope (d + 1) (.entryValue p.value) s p.rest :=
    (soundAt s).entryValue ctx (d + 1) p h
  obtain ⟨g, hg, hequiv⟩ := hvalue.pipe_of_entryValue hcomma hd
  rcases hg.parses ctx rfl with ⟨hshort, hok⟩ | ⟨⟨k, hlt, hle⟩, _⟩
  · exact ⟨⟨g, p.rest, hshort⟩, hok, rfl, hequiv⟩
  · exact absurd hlt (Nat.not_lt.mpr hle)

end Parser

/-- Filters form an algebra: pipes are associative with `.` as two-sided identity, commas with
`empty`, and pipes and bindings distribute over commas on their left. Hence it makes no difference
that the pipes in the value of an entry nest to the left and all others to the right. -/
theorem algebra (f g h : Filter) (x : String) (loc loc₁ loc₂ loc₃ loc₄ : Range) :
    Equivalent (.pipe loc₁ (.pipe loc₂ f g) h) (.pipe loc₃ f (.pipe loc₄ g h)) ∧
      Equivalent (.pipe loc₁ (.identity loc₂) f) f ∧
      Equivalent (.pipe loc₁ f (.identity loc₂)) f ∧
      Equivalent (.comma loc₁ (.comma loc₂ f g) h) (.comma loc₃ f (.comma loc₄ g h)) ∧
      Equivalent (.comma loc₁ (.call loc₂ .empty []) f) f ∧
      Equivalent (.comma loc₁ f (.call loc₂ .empty [])) f ∧
      Equivalent (.pipe loc (.comma loc₁ f g) h)
        (.comma loc₂ (.pipe loc₃ f h) (.pipe loc₄ g h)) ∧
      Equivalent (.pipe loc₁ (.call loc₂ .empty []) f) (.call loc₃ .empty []) ∧
      Equivalent (.bind loc (.comma loc₁ f g) x h)
        (.comma loc₂ (.bind loc₃ f x h) (.bind loc₄ g x h)) ∧
      ∀ (ctx : Parser.Context) (d : Nat) (s : List Token) (p : Front Filter s),
        Parser.parseEntryValue ctx (d + 1) s = .ok p →
        Parser.nextKind? p.rest ≠ some (.symbol .comma) → d < maxDepth →
        ∃ q, Parser.parsePipe ctx d s = .ok q ∧ q.rest = p.rest ∧ Equivalent p.value q.value :=
  ⟨.pipe_assoc f g h loc₁ loc₂ loc₃ loc₄, .identity_pipe f loc₁ loc₂, .pipe_identity f loc₁ loc₂,
    .comma_assoc f g h loc₁ loc₂ loc₃ loc₄, .empty_comma f loc₁ loc₂, .comma_empty f loc₁ loc₂,
    .comma_pipe f g h loc loc₁ loc₂ loc₃ loc₄, .empty_pipe f loc₁ loc₂ loc₃,
    .comma_bind f g h loc loc₁ loc₂ loc₃ loc₄ x, fun _ _ _ _ => Parser.parsePipe_of_entryValue⟩

/-- The tokens of `.a | .b | .c` and the brace that closes an object. -/
def stages : List Token :=
  [⟨.field "a", default⟩, ⟨.symbol .pipe, default⟩, ⟨.field "b", default⟩, ⟨.symbol .pipe, default⟩,
    ⟨.field "c", default⟩, ⟨.symbol .closeBrace, default⟩]

/-- The part of the input under a key. -/
def part (name : String) : Filter := .index default (.identity default) (key default name)

/-- As the value of an entry, the stages nest to the left, and as a pipe to the right. -/
theorem algebra_stages :
    let ctx : Parser.Context := ⟨[], ⟨.finish, default⟩⟩
    ∃ p q, Parser.parseEntryValue ctx 1 stages = .ok p ∧ Parser.parsePipe ctx 0 stages = .ok q ∧
      p.value = .pipe default (.pipe default (part "a") (part "b")) (part "c") ∧
      q.value = .pipe default (part "a") (.pipe default (part "b") (part "c")) ∧
      Equivalent p.value q.value := by
  intro ctx
  have hleft : (Parser.parseEntryValue ctx 1 stages).map (fun p => (p.value, p.rest)) =
      .ok (.pipe default (.pipe default (part "a") (part "b")) (part "c"),
        [⟨.symbol .closeBrace, default⟩]) := by cbv
  have hright : (Parser.parsePipe ctx 0 stages).map (fun q => q.value) =
      .ok (.pipe default (part "a") (.pipe default (part "b") (part "c"))) := by cbv
  cases hp : Parser.parseEntryValue ctx 1 stages with
  | error e => rw [hp] at hleft; cases hleft
  | ok p =>
    rw [hp] at hleft
    obtain ⟨hvalue, hrest⟩ := Prod.mk.inj (Except.ok.inj hleft)
    obtain ⟨-, -, -, -, -, -, -, -, -, hnested⟩ :=
      algebra (part "a") (part "b") (part "c") "x" default default default default default
    obtain ⟨q, hq, -, hequiv⟩ := hnested ctx 0 stages p hp (by rw [hrest]; decide) (by decide)
    rw [hq] at hright
    exact ⟨p, q, rfl, hq, hvalue, Except.ok.inj hright, hequiv⟩

end JsonFilter.Filter
