import JsonFilter.Proofs.Grammar.Source
import JsonFilter.Proofs.Json.Decoding
import JsonFilter.Proofs.Json.Derivation
import JsonFilter.Proofs.Simplify

/-!
JSON text is a filter for itself. The text of a value compiles, unless it nests too deeply, to a
program whose only output is the value, whatever its layout is and whether it is simplified or not.
A text with no more tokens than there are levels of nesting always compiles.
-/

namespace JsonFilter

namespace Filter

/-- The filter of the JSON text of a value. -/
theorem ofSource_text (globals : List String) (style : Style) {v : Value}
    (h : Value.AllRegular (v.styled style).walk) :
    ((∃ tokens, Token.list (v.text style) = .ok tokens ∧ maxDepth < tokens.length) ∧
        ∃ t, Filter.ofSource globals (v.text style) = .error ⟨.filter (.tooDeep t), v.text style⟩) ∨
      ∃ f, Filter.ofSource globals (v.text style) = .ok f ∧ f.Yields [(v.styled style).reread] := by
  obtain ⟨ts, loc, hlist, hts⟩ := Value.list_text style h
  have hfits : ∀ d : Nat, (fun _ => True) d := fun _ => trivial
  obtain ⟨f, hf, hyields⟩ := Parser.derives_value hfits globals (v.styled style) 1 ts
    [⟨.finish, loc⟩] h hts (.of_nextKind? rfl (by simp [Parser.closingKinds]))
  have hpipe : Parser.Derives (fun _ => True) globals 0 (.pipe f) (ts ++ [⟨.finish, loc⟩]) _ :=
    .pipe_last trivial (.comma hf (.commaTail_nil (by simp))) (by simp)
  rcases ofSource_of_derives hlist hpipe with hok | hdeep
  · exact .inr ⟨f, hok, hyields⟩
  · exact .inl hdeep

/-- Simplification keeps the only output of a filter. -/
theorem Yields.simplify {f : Filter} {v : Value} (h : f.Yields [v]) : f.simplify.Yields [v] := by
  intro horizon env x
  have hagree : (eval horizon f.simplify env x).mapError Failure.fault = .value v := by
    rw [simplify_agree f horizon env x, h horizon env x]
    rfl
  exact Outputs.mapError_eq_value Failure.fault hagree

end Filter

namespace Program

/-- Every JSON text is a filter for itself. Let every number in a value be finite, and let no object
have a key twice. Then the text of the value in any style either nests too deeply, and has more
tokens than there are levels of nesting, or compiles to a program that gives one output for every
input: the value with its keys as the text has them and every number as its digits have it, which
equals the value. -/
theorem compile_text (o : Options) (style : Style) {v : Value}
    (hfinite : ∀ n, .number n ∈ v.walk → n.isFinite)
    (hkeys : ∀ fields, .object fields ∈ v.walk → (Fields.keys fields).Nodup) :
    ((∃ tokens, Token.list (v.text style) = .ok tokens ∧ Filter.maxDepth < tokens.length) ∧
        ∃ t, Program.compile o (v.text style) = .error ⟨.filter (.tooDeep t), v.text style⟩) ∨
      ∃ p w, Program.compile o (v.text style) = .ok p ∧
        (∀ horizon x, p.outputsFor horizon x = .value w) ∧
        w = (v.styled style).reread ∧ (w == v) = true := by
  have hregular := (Value.allDecodable_of_finite hfinite hkeys).regular
  rcases Filter.ofSource_text (o.globals.map Prod.fst) style (hregular.styled style) with
    ⟨hlong, t, herror⟩ | ⟨f, hok, hyields⟩
  · refine .inl ⟨hlong, t, ?_⟩
    rw [Program.compile, herror]
    rfl
  · have hfilter : (if o.simplify then f.simplify else f).Yields [(v.styled style).reread] := by
      split
      · exact hyields.simplify
      · exact hyields
    refine .inr ⟨⟨v.text style, if o.simplify then f.simplify else f, o.globals⟩, _, ?_, ?_, rfl,
      Value.reread_styled_beq style hregular⟩
    · rw [Program.compile, hok]
      rfl
    · intro horizon x
      show ((Filter.eval horizon _ o.globals x).mapError _) = _
      rw [hfilter horizon o.globals x]
      rfl

/-- Two numbers, of which one is negative, and keys that are sorted: a text of few tokens. -/
theorem compile_text_mixed :
    let v : Value := .array [.number (.ofInt (-3)), .number (.ofBits 0x3fb999999999999a),
      .object [("b", .string "\"\n"), ("a", .null)]]
    ∃ p w, Program.compile .plain (v.text ⟨2, true⟩) = .ok p ∧
      (∀ horizon x, p.outputsFor horizon x = .value w) ∧
      w = (v.styled ⟨2, true⟩).reread ∧ (w == v) = true := by
  intro v
  have hparts : ∀ w ∈ v.walk, w.Decodable := by decide +kernel
  refine (compile_text .plain ⟨2, true⟩ (fun n hn => hparts (.number n) hn)
    (fun fields hfields => hparts (.object fields) hfields)).resolve_left ?_
  rintro ⟨⟨tokens, htokens, hlong⟩, -⟩
  have hregular : Value.AllRegular v.walk := Value.AllDecodable.regular hparts
  obtain ⟨ts, finish, hlist, hts⟩ := Value.list_text ⟨2, true⟩ (hregular.styled ⟨2, true⟩)
  obtain rfl := Except.ok.inj (htokens.symm.trans hlist)
  have hsorted : Fields.sorted [("b", Value.string "\"\n"), ("a", .null)] =
      [("a", .null), ("b", .string "\"\n")] := by cbv
  have hstyled : v.styled ⟨2, true⟩ = .array [.number (.ofInt (-3)),
      .number (.ofBits 0x3fb999999999999a), .object [("a", .null), ("b", .string "\"\n")]] := by
    rw [← hsorted]
    rfl
  have hfew : (v.styled ⟨2, true⟩).kinds.length < Filter.maxDepth := by
    rw [hstyled]
    decide +kernel
  rw [List.length_append, ← List.length_map Token.kind, hts] at hlong
  exact absurd hlong (Nat.not_lt.mpr hfew)

end Program

end JsonFilter
