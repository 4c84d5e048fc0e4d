import JsonFilter.Proofs.Agreement
import JsonFilter.Proofs.Tree

/-!
Contexts: filters with one part left out. A part that occurs in a filter is what fills some context
of it, and replacing the part by one that corresponds to it makes a filter that corresponds to the
whole one. The part has to keep its range too, since an object tells a key that is no string by the
range of the key.
-/

namespace JsonFilter.Filter

/-- A node with one part left out. -/
inductive Frame where
  | indexTarget (loc : Range) (key : Filter)
  | indexKey (loc : Range) (target : Filter)
  | sliceTarget (loc : Range) (low high : Option Filter)
  | sliceLow (loc : Range) (target : Filter) (high : Option Filter)
  | sliceHigh (loc : Range) (target : Filter) (low : Option Filter)
  | iterate (loc : Range)
  | pipeLeft (loc : Range) (right : Filter)
  | pipeRight (loc : Range) (left : Filter)
  | commaLeft (loc : Range) (right : Filter)
  | commaRight (loc : Range) (left : Filter)
  | alternativeLeft (loc : Range) (right : Filter)
  | alternativeRight (loc : Range) (left : Filter)
  | andLeft (loc : Range) (right : Filter)
  | andRight (loc : Range) (left : Filter)
  | orLeft (loc : Range) (right : Filter)
  | orRight (loc : Range) (left : Filter)
  | binaryLeft (loc : Range) (op : BinaryOp) (right : Filter)
  | binaryRight (loc : Range) (op : BinaryOp) (left : Filter)
  | negate (loc : Range)
  | array (loc : Range)
  | entryKey (loc : Range) (before : List (Filter × Filter)) (value : Filter)
    (behind : List (Filter × Filter))
  | entryValue (loc : Range) (before : List (Filter × Filter)) (key : Filter)
    (behind : List (Filter × Filter))
  | condTest (loc : Range) (before : List (Filter × Filter)) (body : Filter)
    (behind : List (Filter × Filter)) (otherwise : Option Filter)
  | condBody (loc : Range) (before : List (Filter × Filter)) (test : Filter)
    (behind : List (Filter × Filter)) (otherwise : Option Filter)
  | condElse (loc : Range) (branches : List (Filter × Filter))
  | attemptBody (loc : Range) (handler : Option Filter)
  | attemptHandler (loc : Range) (body : Filter)
  | bindSource (loc : Range) (name : String) (body : Filter)
  | bindBody (loc : Range) (source : Filter) (name : String)
  | arg (loc : Range) (builtin : Builtin) (before behind : List Filter)

/-- The node with a filter in the place of the missing part. -/
def Frame.fill : Frame → Filter → Filter
  | .indexTarget loc key, f => .index loc f key
  | .indexKey loc target, f => .index loc target f
  | .sliceTarget loc low high, f => .slice loc f low high
  | .sliceLow loc target high, f => .slice loc target (some f) high
  | .sliceHigh loc target low, f => .slice loc target low (some f)
  | .iterate loc, f => .iterate loc f
  | .pipeLeft loc right, f => .pipe loc f right
  | .pipeRight loc left, f => .pipe loc left f
  | .commaLeft loc right, f => .comma loc f right
  | .commaRight loc left, f => .comma loc left f
  | .alternativeLeft loc right, f => .alternative loc f right
  | .alternativeRight loc left, f => .alternative loc left f
  | .andLeft loc right, f => .and loc f right
  | .andRight loc left, f => .and loc left f
  | .orLeft loc right, f => .or loc f right
  | .orRight loc left, f => .or loc left f
  | .binaryLeft loc op right, f => .binary loc op f right
  | .binaryRight loc op left, f => .binary loc op left f
  | .negate loc, f => .negate loc f
  | .array loc, f => .array loc (some f)
  | .entryKey loc before value behind, f => .object loc (before ++ (f, value) :: behind)
  | .entryValue loc before key behind, f => .object loc (before ++ (key, f) :: behind)
  | .condTest loc before body behind otherwise, f =>
    .cond loc (before ++ (f, body) :: behind) otherwise
  | .condBody loc before test behind otherwise, f =>
    .cond loc (before ++ (test, f) :: behind) otherwise
  | .condElse loc branches, f => .cond loc branches (some f)
  | .attemptBody loc handler, f => .attempt loc f handler
  | .attemptHandler loc body, f => .attempt loc body (some f)
  | .bindSource loc name body, f => .bind loc f name body
  | .bindBody loc source name, f => .bind loc source name f
  | .arg loc builtin before behind, f => .call loc builtin (before ++ f :: behind)

/-- The frames around a part, the outermost first. -/
abbrev Context := List Frame

/-- A filter inside the frames of a context. -/
def Context.fill (c : Context) (f : Filter) : Filter := c.foldr Frame.fill f

@[simp] theorem Context.fill_nil (f : Filter) : Context.fill [] f = f := rfl

@[simp] theorem Context.fill_cons (frame : Frame) (c : Context) (f : Filter) :
    Context.fill (frame :: c) f = frame.fill (c.fill f) := rfl

/-! ## Parts and contexts -/

/-- A filter is a part of every frame that it fills. -/
theorem Frame.part_of_fill (frame : Frame) (f : Filter) :
    f ∈ (frame.fill f).heads ++ (frame.fill f).inner := by
  cases frame with
  | attemptBody loc handler => cases handler <;> simp [fill, heads, inner]
  | _ => simp [fill, heads, inner]

/-- Every part of a filter fills a frame of it. -/
theorem exists_frame {f p : Filter} (h : p ∈ f.heads ++ f.inner) :
    ∃ frame : Frame, frame.fill p = f := by
  have two {l r : Filter} (h : p ∈ [l] ++ [r]) : p = l ∨ p = r := by simpa using h
  cases f with
  | identity loc => cases h
  | recurse loc => cases h
  | literal loc l => cases h
  | var loc name => cases h
  | index loc target key =>
    obtain rfl | rfl := two h
    · exact ⟨.indexTarget loc key, rfl⟩
    · exact ⟨.indexKey loc target, rfl⟩
  | slice loc target low high =>
    simp only [heads, inner, List.mem_append, List.mem_singleton, Option.mem_toList] at h
    obtain rfl | rfl | rfl := h
    · exact ⟨.sliceTarget loc low high, rfl⟩
    · exact ⟨.sliceLow loc target high, rfl⟩
    · exact ⟨.sliceHigh loc target low, rfl⟩
  | iterate loc target =>
    obtain rfl : p = target := by simpa [heads, inner] using h
    exact ⟨.iterate loc, rfl⟩
  | pipe loc left right =>
    obtain rfl | rfl := two h
    · exact ⟨.pipeLeft loc right, rfl⟩
    · exact ⟨.pipeRight loc left, rfl⟩
  | comma loc left right =>
    obtain rfl | rfl := two h
    · exact ⟨.commaLeft loc right, rfl⟩
    · exact ⟨.commaRight loc left, rfl⟩
  | alternative loc left right =>
    obtain rfl | rfl := two h
    · exact ⟨.alternativeLeft loc right, rfl⟩
    · exact ⟨.alternativeRight loc left, rfl⟩
  | and loc left right =>
    obtain rfl | rfl := two h
    · exact ⟨.andLeft loc right, rfl⟩
    · exact ⟨.andRight loc left, rfl⟩
  | or loc left right =>
    obtain rfl | rfl := two h
    · exact ⟨.orLeft loc right, rfl⟩
    · exact ⟨.orRight loc left, rfl⟩
  | binary loc op left right =>
    obtain rfl | rfl := two h
    · exact ⟨.binaryLeft loc op right, rfl⟩
    · exact ⟨.binaryRight loc op left, rfl⟩
  | negate loc operand =>
    obtain rfl : p = operand := by simpa [heads, inner] using h
    exact ⟨.negate loc, rfl⟩
  | array loc body =>
    obtain rfl : body = some p := by simpa [heads, inner] using h
    exact ⟨.array loc, rfl⟩
  | object loc entries =>
    simp only [heads, inner, List.mem_append, List.mem_map] at h
    obtain ⟨⟨key, value⟩, he, rfl⟩ | ⟨⟨key, value⟩, he, rfl⟩ := h
    · obtain ⟨before, behind, rfl⟩ := List.append_of_mem he
      exact ⟨.entryValue loc before key behind, rfl⟩
    · obtain ⟨before, behind, rfl⟩ := List.append_of_mem he
      exact ⟨.entryKey loc before value behind, rfl⟩
  | cond loc branches otherwise =>
    simp only [heads, inner, List.nil_append, List.mem_append, List.mem_map,
      Option.mem_toList] at h
    obtain (⟨⟨test, body⟩, hb, rfl⟩ | ⟨⟨test, body⟩, hb, rfl⟩) | rfl := h
    · obtain ⟨before, behind, rfl⟩ := List.append_of_mem hb
      exact ⟨.condTest loc before body behind otherwise, rfl⟩
    · obtain ⟨before, behind, rfl⟩ := List.append_of_mem hb
      exact ⟨.condBody loc before test behind otherwise, rfl⟩
    · exact ⟨.condElse loc branches, rfl⟩
  | attempt loc body handler =>
    cases handler with
    | none =>
      obtain rfl : p = body := by simpa [heads, inner] using h
      exact ⟨.attemptBody loc none, rfl⟩
    | some handler =>
      obtain rfl | rfl : p = body ∨ p = handler := by simpa [heads, inner] using h
      · exact ⟨.attemptBody loc (some handler), rfl⟩
      · exact ⟨.attemptHandler loc body, rfl⟩
  | bind loc source name body =>
    obtain rfl | rfl := two h
    · exact ⟨.bindSource loc name body, rfl⟩
    · exact ⟨.bindBody loc source name, rfl⟩
  | call loc builtin args =>
    obtain ⟨before, behind, rfl⟩ := List.append_of_mem (List.mem_append_right [] h)
    exact ⟨.arg loc builtin before behind, rfl⟩

/-- What occurs in a filter is what fills one of its contexts. -/
theorem occursIn_iff_fill {f g : Filter} : OccursIn g f ↔ ∃ c : Context, c.fill g = f := by
  constructor
  · rintro ⟨_, _, hpath⟩
    induction hpath with
    | here => exact ⟨[], rfl⟩
    | head hp _ ih =>
      obtain ⟨c, rfl⟩ := ih
      obtain ⟨frame, rfl⟩ := exists_frame (List.mem_append_left _ hp)
      exact ⟨frame :: c, rfl⟩
    | inner hp _ ih =>
      obtain ⟨c, rfl⟩ := ih
      obtain ⟨frame, rfl⟩ := exists_frame (List.mem_append_right _ hp)
      exact ⟨frame :: c, rfl⟩
  · rintro ⟨c, rfl⟩
    induction c with
    | nil => exact OccursIn.refl g
    | cons frame c ih =>
      rcases List.mem_append.mp (frame.part_of_fill (Context.fill c g)) with hp | hp
      · exact ih.of_head hp
      · exact ih.of_inner hp

/-! ## Induction on parts -/

theorem sizeOf_inserted {α : Type} [SizeOf α] (before behind : List α) (a : α) :
    sizeOf a < sizeOf (before ++ a :: behind) :=
  List.sizeOf_lt_of_mem (List.mem_append_right before List.mem_cons_self)

/-- A filter is smaller than every frame that it fills. -/
theorem Frame.sizeOf_fill (frame : Frame) (f : Filter) : sizeOf f < sizeOf (frame.fill f) := by
  cases frame with
  | entryKey loc before value behind =>
    have hentry := sizeOf_inserted before behind (f, value)
    simp only [fill, object.sizeOf_spec, Prod.mk.sizeOf_spec] at hentry ⊢
    omega
  | entryValue loc before key behind =>
    have hentry := sizeOf_inserted before behind (key, f)
    simp only [fill, object.sizeOf_spec, Prod.mk.sizeOf_spec] at hentry ⊢
    omega
  | condTest loc before body behind otherwise =>
    have hbranch := sizeOf_inserted before behind (f, body)
    simp only [fill, cond.sizeOf_spec, Prod.mk.sizeOf_spec] at hbranch ⊢
    omega
  | condBody loc before test behind otherwise =>
    have hbranch := sizeOf_inserted before behind (test, f)
    simp only [fill, cond.sizeOf_spec, Prod.mk.sizeOf_spec] at hbranch ⊢
    omega
  | arg loc builtin before behind =>
    have harg := sizeOf_inserted before behind f
    simp only [fill, call.sizeOf_spec]
    omega
  | _ =>
    simp [fill]
    try omega

/-- What is true of a filter once it is true of its parts is true of every filter. -/
theorem induction_on_parts {Q : Filter → Prop}
    (step : ∀ f, (∀ p ∈ f.heads ++ f.inner, Q p) → Q f) (f : Filter) : Q f :=
  step f fun p _ => induction_on_parts step p
termination_by sizeOf f
decreasing_by
  obtain ⟨frame, rfl⟩ := exists_frame ‹_›
  exact frame.sizeOf_fill _

/-! ## Replacing a part -/

variable {R : Failure → Failure → Prop} {f f' : Filter}

/-- A frame keeps its own range, whatever fills it. -/
theorem Frame.loc_fill (frame : Frame) (f f' : Filter) :
    (frame.fill f).loc = (frame.fill f').loc := by
  cases frame <;> rfl

theorem Corresponds.refl (hR : ∀ e, R e e) (f : Filter) : Corresponds R f f :=
  fun horizon env v => .refl hR (eval horizon f env v)

theorem CorrespondsOption.refl (hR : ∀ e, R e e) (f : Option Filter) : CorrespondsOption R f f :=
  fun horizon other env v => .refl hR (evalOr horizon f other env v)

/-- Lists in which one place differs. -/
theorem forall₂_replaced {α : Type} {S : α → α → Prop} (hS : ∀ a, S a a) {a a' : α} (h : S a a')
    (before behind : List α) : List.Forall₂ S (before ++ a :: behind) (before ++ a' :: behind) :=
  List.rel_append (List.forall₂_same.mpr fun a _ => hS a)
    (.cons h (List.forall₂_same.mpr fun a _ => hS a))

/-- A frame with one filter corresponds to the frame with another one if they correspond. -/
theorem Frame.fill_corresponds (hR : ∀ e, R e e) (hfault : ∀ e e', R e e' → e.fault = e'.fault)
    (frame : Frame) (hloc : f.loc = f'.loc) (h : Corresponds R f f') :
    Corresponds R (frame.fill f) (frame.fill f') := by
  have same (g : Filter) : Corresponds R g g := .refl hR g
  have sameOption (g : Option Filter) : CorrespondsOption R g g := .refl hR g
  have told (loc : Range) : Told R loc loc := fun fault => hR ⟨loc, fault⟩
  have hsome : CorrespondsOption R (some f) (some f') := fun horizon _ env v => h horizon env v
  cases frame with
  | indexTarget loc key => exact .index (told loc) h (same key)
  | indexKey loc target => exact .index (told loc) (same target) h
  | sliceTarget loc low high => exact .slice (told loc) h (sameOption low) (sameOption high)
  | sliceLow loc target high => exact .slice (told loc) (same target) hsome (sameOption high)
  | sliceHigh loc target low => exact .slice (told loc) (same target) (sameOption low) hsome
  | iterate loc => exact .iterate (told loc) h
  | pipeLeft loc right => exact .pipe h (same right)
  | pipeRight loc left => exact .pipe (same left) h
  | commaLeft loc right => exact .comma h (same right)
  | commaRight loc left => exact .comma (same left) h
  | alternativeLeft loc right => exact .alternative h (same right)
  | alternativeRight loc left => exact .alternative (same left) h
  | andLeft loc right => exact .and h (same right)
  | andRight loc left => exact .and (same left) h
  | orLeft loc right => exact .or h (same right)
  | orRight loc left => exact .or (same left) h
  | binaryLeft loc op right => exact .binary op (told loc) h (same right)
  | binaryRight loc op left => exact .binary op (told loc) (same left) h
  | negate loc => exact .negate (told loc) h
  | array loc => exact .array h
  | entryKey loc before value behind =>
    refine .object (forall₂_replaced (fun e => ⟨same e.1, same e.2, fun _ => hR _⟩) ?_ before behind)
    exact ⟨h, same value, fun v => hloc ▸ hR _⟩
  | entryValue loc before key behind =>
    refine .object (forall₂_replaced (fun e => ⟨same e.1, same e.2, fun _ => hR _⟩) ?_ before behind)
    exact ⟨same key, h, fun _ => hR _⟩
  | condTest loc before body behind otherwise =>
    exact .cond (forall₂_replaced (fun b => ⟨same b.1, same b.2⟩) ⟨h, same body⟩ before behind)
      (sameOption otherwise)
  | condBody loc before test behind otherwise =>
    exact .cond (forall₂_replaced (fun b => ⟨same b.1, same b.2⟩) ⟨same test, h⟩ before behind)
      (sameOption otherwise)
  | condElse loc branches =>
    exact .cond (List.forall₂_same.mpr fun b _ => ⟨same b.1, same b.2⟩) hsome
  | attemptBody loc handler =>
    cases handler with
    | none => exact .attempt h
    | some handler => exact .attemptCatch hfault h (same handler)
  | attemptHandler loc body => exact .attemptCatch hfault (same body) h
  | bindSource loc name body => exact .bind name h (same body)
  | bindBody loc source name => exact .bind name (same source) h
  | arg loc builtin before behind =>
    exact .call builtin (told loc) (forall₂_replaced same h before behind)

/-- Parts with the same range and the same outputs in every run are interchangeable. -/
theorem Context.eval_fill (c : Context) (hloc : f.loc = f'.loc)
    (h : ∀ horizon env v, eval horizon f env v = eval horizon f' env v) (horizon : Nat) (env : Env)
    (v : Value) : eval horizon (c.fill f) env v = eval horizon (c.fill f') env v := by
  have hcorr : (c.fill f).loc = (c.fill f').loc ∧ Corresponds Eq (c.fill f) (c.fill f') := by
    induction c with
    | nil => exact ⟨hloc, fun horizon env v => h horizon env v ▸ .refl (fun _ => rfl) _⟩
    | cons frame c ih =>
      refine ⟨frame.loc_fill _ _, frame.fill_corresponds (fun _ => rfl) ?_ ih.1 ih.2⟩
      rintro e _ rfl
      rfl
  exact (hcorr.2 horizon env v).eq

end JsonFilter.Filter
