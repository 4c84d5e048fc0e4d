/-!
Places in a text. Lines and columns count from one, columns count characters, and a line feed ends
its line. A place is turned into a byte offset by walking the text, so a column beyond the end of
its line runs on into the lines below.
-/

namespace JsonFilter

/-- A line and a column of a text. -/
structure Position where
  line : Nat
  column : Nat
  deriving DecidableEq

namespace Position

/-- The place of the first character. -/
def start : Position := ⟨1, 1⟩

instance : Inhabited Position := ⟨start⟩

/-- The place after one more character. -/
def advance (p : Position) (c : Char) : Position :=
  if c = '\n' then ⟨p.line + 1, 1⟩ else ⟨p.line, p.column + 1⟩

/-- The place after some more characters. -/
def after (p : Position) (cs : List Char) : Position := cs.foldl advance p

@[simp] theorem after_nil (p : Position) : p.after [] = p := rfl

@[simp] theorem after_cons (p : Position) (c : Char) (cs : List Char) :
    p.after (c :: cs) = (p.advance c).after cs := rfl

theorem after_append (p : Position) (cs ds : List Char) :
    p.after (cs ++ ds) = (p.after cs).after ds := List.foldl_append

/-- The bytes of `cs` before the first character whose place reaches `p` in line and column, where
`cs` begins at `here`. -/
def offsetFrom (p : Position) (here : Position) : List Char → Nat
  | [] => 0
  | c :: cs =>
    if p.line ≤ here.line ∧ p.column ≤ here.column then 0
    else c.utf8Size + p.offsetFrom (here.advance c) cs

/-- The byte offset of a place in a text. -/
def offset (p : Position) (text : String) : Nat := p.offsetFrom start text.toList

/-- A place in words. -/
def describe (p : Position) : String := s!"line {p.line}, column {p.column}"

end Position

/-- A stretch of text: from its first character to just after its last. -/
structure Range where
  first : Position
  past : Position
  deriving DecidableEq, Inhabited

namespace Range

/-- The empty range at a place. -/
def empty (p : Position) : Range := ⟨p, p⟩

/-- Byte offset and length of a range in a text; a range has at least one byte. -/
def span (r : Range) (text : String) : Nat × Nat :=
  let offset := r.first.offset text
  (offset, max (r.past.offset text - offset) 1)

end Range

end JsonFilter
