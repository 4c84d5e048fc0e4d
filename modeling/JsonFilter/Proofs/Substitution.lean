import JsonFilter.Eval
import Mathlib.Data.List.Forall2

/-!
Substitution. What the outputs of a filter depend on, besides its input, are the variables that it
mentions. A filter may stand in the place of a variable if it has the value of the variable as its
only output, whatever is bound on the way down to it. The builtin `env` mentions a variable too,
without its name being written anywhere; only a binding of that name hides it.
-/

namespace JsonFilter.Filter

/-- How a filter mentions a variable: by a name in a variable or a binding, or by asking for the
environment. -/
inductive Mention where
  | name (n : String)
  | environment
  deriving DecidableEq

/-- The variable that is meant. -/
def Mention.variable : Mention → String
  | .name n => n
  | .environment => environmentName

/-- What the body of a binding mentions, seen from outside: a binding of the name that `env` reads
hides it. -/
def mentionsUnder (name : String) (body : List Mention) : List Mention :=
  if name = environmentName then body.filter (· ≠ .environment) else body

mutual

/-- Everything a filter mentions: the names of all its variables and bindings, and the environment
if a call of `env` is not inside a binding that hides it. -/
def mentions : Filter → List Mention
  | .identity _ => []
  | .recurse _ => []
  | .literal _ _ => []
  | .var _ name => [.name name]
  | .index _ target key => target.mentions ++ key.mentions
  | .slice _ target low high => target.mentions ++ (mentionsOption low ++ mentionsOption high)
  | .iterate _ target => target.mentions
  | .pipe _ left right => left.mentions ++ right.mentions
  | .comma _ left right => left.mentions ++ right.mentions
  | .alternative _ left right => left.mentions ++ right.mentions
  | .and _ left right => left.mentions ++ right.mentions
  | .or _ left right => left.mentions ++ right.mentions
  | .binary _ _ left right => left.mentions ++ right.mentions
  | .negate _ operand => operand.mentions
  | .array _ body => mentionsOption body
  | .object _ entries => mentionsPairs entries
  | .cond _ branches otherwise => mentionsPairs branches ++ mentionsOption otherwise
  | .attempt _ body handler => body.mentions ++ mentionsOption handler
  | .bind _ source name body => source.mentions ++ .name name :: mentionsUnder name body.mentions
  | .call _ builtin args =>
    (if builtin = .env ∧ args.isEmpty then [.environment] else []) ++ mentionsList args

/-- `mentions` for a filter that may be missing. -/
def mentionsOption : Option Filter → List Mention
  | none => []
  | some f => f.mentions

/-- `mentions` for every filter. -/
def mentionsList : List Filter → List Mention
  | [] => []
  | f :: fs => f.mentions ++ mentionsList fs

/-- `mentions` for both filters of every pair. -/
def mentionsPairs : List (Filter × Filter) → List Mention
  | [] => []
  | (f, g) :: ps => f.mentions ++ (g.mentions ++ mentionsPairs ps)

end

mutual

/-- A filter with another one in the place of every variable of a name that no binding inside the
filter captures. The other one may depend on the range of the variable. -/
def subst (x : String) (r : Range → Filter) : Filter → Filter
  | .identity loc => .identity loc
  | .recurse loc => .recurse loc
  | .literal loc l => .literal loc l
  | .var loc name => if name = x then r loc else .var loc name
  | .index loc target key => .index loc (target.subst x r) (key.subst x r)
  | .slice loc target low high =>
    .slice loc (target.subst x r) (substOption x r low) (substOption x r high)
  | .iterate loc target => .iterate loc (target.subst x r)
  | .pipe loc left right => .pipe loc (left.subst x r) (right.subst x r)
  | .comma loc left right => .comma loc (left.subst x r) (right.subst x r)
  | .alternative loc left right => .alternative loc (left.subst x r) (right.subst x r)
  | .and loc left right => .and loc (left.subst x r) (right.subst x r)
  | .or loc left right => .or loc (left.subst x r) (right.subst x r)
  | .binary loc op left right => .binary loc op (left.subst x r) (right.subst x r)
  | .negate loc operand => .negate loc (operand.subst x r)
  | .array loc body => .array loc (substOption x r body)
  | .object loc entries => .object loc (substPairs x r entries)
  | .cond loc branches otherwise =>
    .cond loc (substPairs x r branches) (substOption x r otherwise)
  | .attempt loc body handler => .attempt loc (body.subst x r) (substOption x r handler)
  | .bind loc source name body =>
    .bind loc (source.subst x r) name (if name = x then body else body.subst x r)
  | .call loc builtin args => .call loc builtin (substList x r args)

/-- `subst` for a filter that may be missing. -/
def substOption (x : String) (r : Range → Filter) : Option Filter → Option Filter
  | none => none
  | some f => some (f.subst x r)

/-- `subst` for every filter. -/
def substList (x : String) (r : Range → Filter) : List Filter → List Filter
  | [] => []
  | f :: fs => f.subst x r :: substList x r fs

/-- `subst` for both filters of every pair. -/
def substPairs (x : String) (r : Range → Filter) :
    List (Filter × Filter) → List (Filter × Filter)
  | [] => []
  | (f, g) :: ps => (f.subst x r, g.subst x r) :: substPairs x r ps

end

/-! ## Calls -/

/-- Filters whose outputs are the same at a horizon, each in its environment. -/
def SameIn (horizon : Nat) (env env' : Env) (f f' : Filter) : Prop :=
  ∀ v, eval horizon f env v = eval horizon f' env' v

section
variable {horizon : Nat} {env env' : Env}

theorem evalArgs_congr {args args' : List Filter}
    (h : List.Forall₂ (SameIn horizon env env') args args') (v : Value) :
    evalArgs horizon args env v = evalArgs horizon args' env' v := by
  induction h with
  | nil => rfl
  | cons hf _ ih => simp only [evalArgs, hf v, ih]

/-- Calls have the same outputs if their arguments do and the environments have the same value for
a call that reads it. -/
theorem evalCall_congr (loc : Range) (b : Builtin) {args args' : List Filter}
    (h : List.Forall₂ (SameIn horizon env env') args args')
    (henv : b = .env → args = [] → env.lookup environmentName = env'.lookup environmentName) :
    SameIn horizon env env' (.call loc b args) (.call loc b args') := by
  intro v
  have hargs : (evalArgs horizon args env v).bind (callOf horizon loc b v) =
      (evalArgs horizon args' env' v).bind (callOf horizon loc b v) := by
    rw [evalArgs_congr h]
  cases h with
  | nil =>
    cases b with
    | env => simp only [eval, henv rfl rfl]
    | _ => first | exact hargs | rfl
  | @cons f f' _ _ hf hrest =>
    have heval : eval horizon f env = eval horizon f' env' := funext hf
    cases hrest with
    | nil =>
      cases b with
      | map => cases hitems : v.items <;> simp only [eval, heval, hitems]
      | select => simp only [eval, heval]
      | first => simp only [eval, heval]
      | _ => exact hargs
    | cons hg hrest =>
      cases hrest with
      | nil =>
        cases b with
        | limit => simp only [eval, heval, hg v]
        | _ => exact hargs
      | cons => cases b <;> exact hargs

end

/-! ## What outputs depend on -/

/-- Two environments with the same value, or none, for every variable that is mentioned. -/
def SameOn (ms : List Mention) (env env' : Env) : Prop :=
  ∀ m ∈ ms, env.lookup m.variable = env'.lookup m.variable

theorem lookup_cons_self (name : String) (x : Value) (env : Env) :
    List.lookup name ((name, x) :: env) = some x := List.lookup_cons_self

theorem lookup_cons_ne {name other : String} (h : other ≠ name) (x : Value) (env : Env) :
    List.lookup other ((name, x) :: env) = env.lookup other := by
  simp only [List.lookup_cons, beq_eq_false_iff_ne.mpr h]

/-- What a body mentions and its binding does not hide is the name that is bound, or is mentioned
outside too. -/
theorem mem_mentionsUnder {name : String} {m : Mention} {body : List Mention} (h : m ∈ body)
    (hne : m.variable ≠ name) : m ∈ mentionsUnder name body := by
  unfold mentionsUnder
  split
  · next hname =>
    refine List.mem_filter.mpr ⟨h, decide_eq_true ?_⟩
    rintro rfl
    exact hne hname.symm
  · exact h

theorem name_mem_mentionsUnder {n : String} (name : String) {body : List Mention}
    (h : .name n ∈ body) : .name n ∈ mentionsUnder name body := by
  unfold mentionsUnder
  split
  · exact List.mem_filter.mpr ⟨h, rfl⟩
  · exact h

namespace SameOn

variable {ms ms' : List Mention} {env env' : Env}

theorem of_append (h : SameOn (ms ++ ms') env env') : SameOn ms env env' ∧ SameOn ms' env env' :=
  List.forall_mem_append.mp h

/-- Under a binding, both environments have its value. -/
theorem under {name : String} (h : SameOn (.name name :: mentionsUnder name ms) env env')
    (x : Value) : SameOn ms ((name, x) :: env) ((name, x) :: env') := by
  intro m hm
  by_cases hname : m.variable = name
  · rw [hname, lookup_cons_self, lookup_cons_self]
  · rw [lookup_cons_ne hname, lookup_cons_ne hname]
    exact h m (List.mem_cons_of_mem _ (mem_mentionsUnder hm hname))

end SameOn

mutual

/-- The outputs of a filter depend on the variables that it mentions and on no other ones. -/
theorem eval_sameOn (horizon : Nat) : ∀ (f : Filter) {env env' : Env},
    SameOn f.mentions env env' → SameIn horizon env env' f f
  | .identity _, _, _, _, _ => rfl
  | .recurse _, _, _, _, _ => rfl
  | .literal _ _, _, _, _, _ => rfl
  | .var _ name, env, env', h, _ => by
    have hname : env.lookup name = env'.lookup name := h (.name name) List.mem_cons_self
    simp only [eval, hname]
  | .index _ target key, _, _, h, v => by
    have ⟨ht, hk⟩ := SameOn.of_append h
    simp only [eval, eval_sameOn horizon target ht v, eval_sameOn horizon key hk v]
  | .slice _ target low high, _, _, h, v => by
    have ⟨ht, h⟩ := SameOn.of_append h
    have ⟨hl, hh⟩ := SameOn.of_append h
    simp only [eval, eval_sameOn horizon target ht v, evalOr_sameOn horizon low .null hl v,
      evalOr_sameOn horizon high .null hh v]
  | .iterate _ target, _, _, h, v => by
    rw [eval, eval, eval_sameOn horizon target h v]
  | .pipe _ left right, _, _, h, v => by
    have ⟨hl, hr⟩ := SameOn.of_append h
    simp only [eval, eval_sameOn horizon left hl v]
    congr 1
    funext x
    exact eval_sameOn horizon right hr x
  | .comma _ left right, _, _, h, v => by
    have ⟨hl, hr⟩ := SameOn.of_append h
    simp only [eval, eval_sameOn horizon left hl v, eval_sameOn horizon right hr v]
  | .alternative _ left right, _, _, h, v => by
    have ⟨hl, hr⟩ := SameOn.of_append h
    simp only [eval, eval_sameOn horizon left hl v, eval_sameOn horizon right hr v]
  | .and _ left right, _, _, h, v => by
    have ⟨hl, hr⟩ := SameOn.of_append h
    simp only [eval, eval_sameOn horizon left hl v, eval_sameOn horizon right hr v]
  | .or _ left right, _, _, h, v => by
    have ⟨hl, hr⟩ := SameOn.of_append h
    simp only [eval, eval_sameOn horizon left hl v, eval_sameOn horizon right hr v]
  | .binary _ _ left right, _, _, h, v => by
    have ⟨hl, hr⟩ := SameOn.of_append h
    simp only [eval, eval_sameOn horizon left hl v, eval_sameOn horizon right hr v]
  | .negate _ operand, _, _, h, v => by simp only [eval, eval_sameOn horizon operand h v]
  | .array _ none, _, _, _, _ => by simp only [eval]
  | .array _ (some body), _, _, h, v => by simp only [eval, eval_sameOn horizon body h v]
  | .object _ entries, _, _, h, v => by simp only [eval, evalEntries_sameOn horizon entries [] h v]
  | .cond _ branches otherwise, _, _, h, v => by
    have ⟨hb, ho⟩ := SameOn.of_append h
    simp only [eval, evalOr_sameOn horizon otherwise v ho v,
      evalBranches_sameOn horizon branches _ hb v]
  | .attempt _ body none, _, _, h, v => by
    have ⟨hb, _⟩ := SameOn.of_append h
    simp only [eval, eval_sameOn horizon body hb v]
  | .attempt _ body (some handler), _, _, h, v => by
    have ⟨hb, hh⟩ := SameOn.of_append h
    simp only [eval, eval_sameOn horizon body hb v]
    congr 1
    funext e
    exact eval_sameOn horizon handler hh _
  | .bind _ source _ body, _, _, h, v => by
    have ⟨hs, hb⟩ := SameOn.of_append h
    simp only [eval, eval_sameOn horizon source hs v]
    congr 1
    funext x
    exact eval_sameOn horizon body (hb.under x) v
  | .call loc builtin args, _, _, h, v => by
    have ⟨henv, hargs⟩ := SameOn.of_append h
    refine evalCall_congr loc builtin (evalList_sameOn horizon args hargs) ?_ v
    rintro rfl rfl
    exact henv .environment List.mem_cons_self

theorem evalOr_sameOn (horizon : Nat) : ∀ (f : Option Filter) (other : Value) {env env' : Env},
    SameOn (mentionsOption f) env env' → ∀ v,
      evalOr horizon f other env v = evalOr horizon f other env' v
  | none, _, _, _, _, _ => rfl
  | some f, _, _, _, h, v => eval_sameOn horizon f h v

theorem evalList_sameOn (horizon : Nat) : ∀ (fs : List Filter) {env env' : Env},
    SameOn (mentionsList fs) env env' → List.Forall₂ (SameIn horizon env env') fs fs
  | [], _, _, _ => .nil
  | f :: fs, _, _, h => by
    have ⟨hf, hfs⟩ := SameOn.of_append h
    exact .cons (eval_sameOn horizon f hf) (evalList_sameOn horizon fs hfs)

theorem evalEntries_sameOn (horizon : Nat) :
    ∀ (ps : List (Filter × Filter)) (fields : Fields Value) {env env' : Env},
      SameOn (mentionsPairs ps) env env' → ∀ v,
        evalEntries horizon ps fields env v = evalEntries horizon ps fields env' v
  | [], _, _, _, _, _ => rfl
  | (f, g) :: ps, fields, _, _, h, v => by
    have ⟨hf, h⟩ := SameOn.of_append h
    have ⟨hg, hps⟩ := SameOn.of_append h
    simp only [evalEntries, eval_sameOn horizon f hf v, eval_sameOn horizon g hg v,
      fun fields => evalEntries_sameOn horizon ps fields hps v]

theorem evalBranches_sameOn (horizon : Nat) :
    ∀ (ps : List (Filter × Filter)) (otherwise : Unit → Stream) {env env' : Env},
      SameOn (mentionsPairs ps) env env' → ∀ v,
        evalBranches horizon ps otherwise env v = evalBranches horizon ps otherwise env' v
  | [], _, _, _, _, _ => rfl
  | (f, g) :: ps, otherwise, _, _, h, v => by
    have ⟨hf, h⟩ := SameOn.of_append h
    have ⟨hg, hps⟩ := SameOn.of_append h
    simp only [evalBranches, eval_sameOn horizon f hf v, eval_sameOn horizon g hg v,
      evalBranches_sameOn horizon ps otherwise hps v]

end

/-! ## Substitution -/

/-- A filter that stands for a value: it is told by the range it is given, and the value is its only
output for every input, also inside further bindings of the names that are mentioned. -/
structure StandsFor (r : Range → Filter) (a : Value) (ms : List Mention) (env : Env) : Prop where
  loc : ∀ loc, (r loc).loc = loc
  value : ∀ inner : Env, (∀ b ∈ inner, .name b.1 ∈ ms) →
    ∀ horizon loc v, eval horizon (r loc) (inner ++ env) v = .value a

/-- Environments in which a filter and its substitution have the same outputs: the variable has the
value that the substitute stands for, and everything else that is mentioned is the same. -/
structure Substituted (x : String) (r : Range → Filter) (ms : List Mention) (env env' : Env) :
    Prop where
  value : ∃ a, env.lookup x = some a ∧ StandsFor r a ms env'
  others : ∀ m ∈ ms, m ≠ .name x → env.lookup m.variable = env'.lookup m.variable

theorem StandsFor.mono {r : Range → Filter} {a : Value} {ms ms' : List Mention} {env : Env}
    (h : StandsFor r a ms env) (hsub : ∀ m ∈ ms', m ∈ ms) : StandsFor r a ms' env :=
  ⟨h.loc, fun inner hinner => h.value inner fun b hb => hsub _ (hinner b hb)⟩

namespace Substituted

variable {x : String} {r : Range → Filter} {ms ms' : List Mention} {env env' : Env}

theorem mono (h : Substituted x r ms env env') (hsub : ∀ m ∈ ms', m ∈ ms) :
    Substituted x r ms' env env' := by
  obtain ⟨a, hx, hr⟩ := h.value
  exact ⟨⟨a, hx, hr.mono hsub⟩, fun m hm => h.others m (hsub m hm)⟩

theorem of_append (h : Substituted x r (ms ++ ms') env env') :
    Substituted x r ms env env' ∧ Substituted x r ms' env env' :=
  ⟨h.mono fun _ => List.mem_append_left ms', h.mono fun _ => List.mem_append_right ms⟩

theorem loc_subst (h : Substituted x r ms env env') (f : Filter) : (f.subst x r).loc = f.loc := by
  obtain ⟨a, _, hr⟩ := h.value
  cases f with
  | var loc name =>
    unfold subst
    split
    · exact hr.loc loc
    · rfl
  | _ => rfl

/-- A binding of the same name: its body is the same one, and so is all that it depends on. -/
theorem under_self (h : Substituted x r (.name x :: mentionsUnder x ms) env env') (z : Value) :
    SameOn ms ((x, z) :: env) ((x, z) :: env') := by
  intro m hm
  by_cases hname : m.variable = x
  · rw [hname, lookup_cons_self, lookup_cons_self]
  · rw [lookup_cons_ne hname, lookup_cons_ne hname]
    refine h.others m (List.mem_cons_of_mem _ (mem_mentionsUnder hm hname)) ?_
    rintro rfl
    exact hname rfl

/-- A binding of another name. -/
theorem under {name : String} (hname : name ≠ x)
    (h : Substituted x r (.name name :: mentionsUnder name ms) env env') (z : Value) :
    Substituted x r ms ((name, z) :: env) ((name, z) :: env') := by
  obtain ⟨a, hx, hr⟩ := h.value
  refine ⟨⟨a, ?_, hr.loc, ?_⟩, ?_⟩
  · rw [lookup_cons_ne hname.symm, hx]
  · intro inner hinner horizon loc v
    -- The binding joins those that were passed before.
    have hall : ∀ b ∈ inner ++ [(name, z)], .name b.1 ∈ .name name :: mentionsUnder name ms := by
      intro b hb
      rcases List.mem_append.mp hb with hb | hb
      · exact List.mem_cons_of_mem _ (name_mem_mentionsUnder name (hinner b hb))
      · rw [List.mem_singleton.mp hb]
        exact List.mem_cons_self
    rw [List.append_cons]
    exact hr.value _ hall horizon loc v
  · intro m hm hne
    by_cases hm' : m.variable = name
    · rw [hm', lookup_cons_self, lookup_cons_self]
    · rw [lookup_cons_ne hm', lookup_cons_ne hm']
      exact h.others m (List.mem_cons_of_mem _ (mem_mentionsUnder hm hm')) hne

end Substituted

mutual

/-- Substitution lemma: a filter with a substitute for a variable has the outputs that it has where
the variable has the value of the substitute. -/
theorem eval_subst (horizon : Nat) (x : String) (r : Range → Filter) :
    ∀ (f : Filter) {env env' : Env}, Substituted x r f.mentions env env' →
      SameIn horizon env env' f (f.subst x r)
  | .identity _, _, _, _, _ => rfl
  | .recurse _, _, _, _, _ => rfl
  | .literal _ _, _, _, _, _ => rfl
  | .var loc name, env, env', h, v => by
    by_cases hname : name = x
    · obtain ⟨a, hx, hr⟩ := h.value
      have hvalue : eval horizon (r loc) env' v = .value a :=
        hr.value [] (List.forall_mem_nil _) horizon loc v
      rw [subst, if_pos hname, hvalue, eval, hname, hx, Option.getD_some]
    · have hsame : env.lookup name = env'.lookup name :=
        h.others (.name name) List.mem_cons_self fun heq => hname (Mention.name.inj heq)
      rw [subst, if_neg hname, eval, eval, hsame]
  | .index _ target key, _, _, h, v => by
    have ⟨ht, hk⟩ := Substituted.of_append h
    simp only [subst, eval, eval_subst horizon x r target ht v, eval_subst horizon x r key hk v]
  | .slice _ target low high, _, _, h, v => by
    have ⟨ht, h⟩ := Substituted.of_append h
    have ⟨hl, hh⟩ := Substituted.of_append h
    simp only [subst, eval, eval_subst horizon x r target ht v,
      evalOr_subst horizon x r low .null hl v, evalOr_subst horizon x r high .null hh v]
  | .iterate _ target, _, _, h, v => by
    rw [subst, eval, eval, eval_subst horizon x r target h v]
  | .pipe _ left right, _, _, h, v => by
    have ⟨hl, hr⟩ := Substituted.of_append h
    simp only [subst, eval, eval_subst horizon x r left hl v]
    congr 1
    funext z
    exact eval_subst horizon x r right hr z
  | .comma _ left right, _, _, h, v => by
    have ⟨hl, hr⟩ := Substituted.of_append h
    simp only [subst, eval, eval_subst horizon x r left hl v, eval_subst horizon x r right hr v]
  | .alternative _ left right, _, _, h, v => by
    have ⟨hl, hr⟩ := Substituted.of_append h
    simp only [subst, eval, eval_subst horizon x r left hl v, eval_subst horizon x r right hr v]
  | .and _ left right, _, _, h, v => by
    have ⟨hl, hr⟩ := Substituted.of_append h
    simp only [subst, eval, eval_subst horizon x r left hl v, eval_subst horizon x r right hr v]
  | .or _ left right, _, _, h, v => by
    have ⟨hl, hr⟩ := Substituted.of_append h
    simp only [subst, eval, eval_subst horizon x r left hl v, eval_subst horizon x r right hr v]
  | .binary _ _ left right, _, _, h, v => by
    have ⟨hl, hr⟩ := Substituted.of_append h
    simp only [subst, eval, eval_subst horizon x r left hl v, eval_subst horizon x r right hr v]
  | .negate _ operand, _, _, h, v => by
    simp only [subst, eval, eval_subst horizon x r operand h v]
  | .array _ none, _, _, _, _ => by simp only [subst, substOption, eval]
  | .array _ (some body), _, _, h, v => by
    simp only [subst, substOption, eval, eval_subst horizon x r body h v]
  | .object _ entries, _, _, h, v => by
    simp only [subst, eval, evalEntries_subst horizon x r entries [] h v]
  | .cond _ branches otherwise, _, _, h, v => by
    have ⟨hb, ho⟩ := Substituted.of_append h
    simp only [subst, eval, evalOr_subst horizon x r otherwise v ho v,
      evalBranches_subst horizon x r branches _ hb v]
  | .attempt _ body none, _, _, h, v => by
    have ⟨hb, _⟩ := Substituted.of_append h
    simp only [subst, substOption, eval, eval_subst horizon x r body hb v]
  | .attempt _ body (some handler), _, _, h, v => by
    have ⟨hb, hh⟩ := Substituted.of_append h
    simp only [subst, substOption, eval, eval_subst horizon x r body hb v]
    congr 1
    funext e
    exact eval_subst horizon x r handler hh _
  | .bind _ source name body, _, _, h, v => by
    have ⟨hs, hb⟩ := Substituted.of_append h
    simp only [subst, eval, eval_subst horizon x r source hs v]
    congr 1
    funext z
    split
    · next hname =>
      subst hname
      exact eval_sameOn horizon body (hb.under_self z) v
    · next hname => exact eval_subst horizon x r body (hb.under hname z) v
  | .call loc builtin args, _, _, h, v => by
    have ⟨henv, hargs⟩ := Substituted.of_append h
    refine evalCall_congr loc builtin (evalList_subst horizon x r args hargs) ?_ v
    rintro rfl rfl
    exact henv.others .environment List.mem_cons_self Mention.noConfusion

theorem evalOr_subst (horizon : Nat) (x : String) (r : Range → Filter) :
    ∀ (f : Option Filter) (other : Value) {env env' : Env},
      Substituted x r (mentionsOption f) env env' → ∀ v,
        evalOr horizon f other env v = evalOr horizon (substOption x r f) other env' v
  | none, _, _, _, _, _ => rfl
  | some f, _, _, _, h, v => eval_subst horizon x r f h v

theorem evalList_subst (horizon : Nat) (x : String) (r : Range → Filter) :
    ∀ (fs : List Filter) {env env' : Env}, Substituted x r (mentionsList fs) env env' →
      List.Forall₂ (SameIn horizon env env') fs (substList x r fs)
  | [], _, _, _ => .nil
  | f :: fs, _, _, h => by
    have ⟨hf, hfs⟩ := Substituted.of_append h
    exact .cons (eval_subst horizon x r f hf) (evalList_subst horizon x r fs hfs)

theorem evalEntries_subst (horizon : Nat) (x : String) (r : Range → Filter) :
    ∀ (ps : List (Filter × Filter)) (fields : Fields Value) {env env' : Env},
      Substituted x r (mentionsPairs ps) env env' → ∀ v,
        evalEntries horizon ps fields env v = evalEntries horizon (substPairs x r ps) fields env' v
  | [], _, _, _, _, _ => rfl
  | (f, g) :: ps, fields, _, _, h, v => by
    -- A key that is no string is told by its range, which the substitution keeps.
    have hloc : (f.subst x r).loc = f.loc := h.loc_subst f
    have ⟨hf, h⟩ := Substituted.of_append h
    have ⟨hg, hps⟩ := Substituted.of_append h
    simp only [substPairs, evalEntries, hloc, eval_subst horizon x r f hf v,
      eval_subst horizon x r g hg v,
      fun fields => evalEntries_subst horizon x r ps fields hps v]

theorem evalBranches_subst (horizon : Nat) (x : String) (r : Range → Filter) :
    ∀ (ps : List (Filter × Filter)) (otherwise : Unit → Stream) {env env' : Env},
      Substituted x r (mentionsPairs ps) env env' → ∀ v,
        evalBranches horizon ps otherwise env v =
          evalBranches horizon (substPairs x r ps) otherwise env' v
  | [], _, _, _, _, _ => rfl
  | (f, g) :: ps, otherwise, _, _, h, v => by
    have ⟨hf, h⟩ := Substituted.of_append h
    have ⟨hg, hps⟩ := Substituted.of_append h
    simp only [substPairs, evalBranches, eval_subst horizon x r f hf v,
      eval_subst horizon x r g hg v, evalBranches_subst horizon x r ps otherwise hps v]

end

end JsonFilter.Filter
