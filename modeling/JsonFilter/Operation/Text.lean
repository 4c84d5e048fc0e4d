/-!
Operations on text: repetition and cutting at a separator.
-/

namespace JsonFilter.Text

/-- A text repeated `n` times, by doubling. -/
def repeatText (s : String) (n : Nat) : String :=
  if n = 0 then ""
  else
    let half := repeatText s (n / 2)
    if n % 2 = 0 then half ++ half else half ++ half ++ s
termination_by n

/-- The most bytes that a repetition may have. -/
def maxRepeat : Nat := Nat.pow 2 26

/-- A text repeated `n` times, unless that is too long. -/
def repeat? (s : String) (n : Nat) : Option String :=
  if s.utf8ByteSize * n ≤ maxRepeat then some (repeatText s n) else none

/-- What is left of a list after a beginning. -/
def dropStart? : List Char → List Char → Option (List Char)
  | [], s => some s
  | _ :: _, [] => none
  | p :: ps, c :: cs => if p = c then dropStart? ps cs else none

theorem eq_append_of_dropStart? {start s rest : List Char} (h : dropStart? start s = some rest) :
    s = start ++ rest := by
  fun_induction dropStart? start s <;> simp_all

/-- The pieces of a text between the leftmost occurrences of the separator `p :: ps`; `taken` is the
piece begun, last character first. -/
def piecesFrom (p : Char) (ps taken s : List Char) : List (List Char) :=
  match s with
  | [] => [taken.reverse]
  | c :: cs =>
    match h : dropStart? (p :: ps) (c :: cs) with
    | some rest =>
      have : rest.length ≤ cs.length := by
        have h₁ := congrArg List.length (eq_append_of_dropStart? h)
        simp only [List.length_append, List.length_cons] at h₁
        omega
      taken.reverse :: piecesFrom p ps [] rest
    | none => piecesFrom p ps (c :: taken) cs
termination_by s.length
decreasing_by all_goals (simp only [List.length_cons]; omega)

/-- The pieces of a text between the occurrences of a separator. The empty text has no pieces, and
the empty separator cuts between all characters. -/
def split (s separator : String) : List String :=
  if s.isEmpty then []
  else
    match separator.toList with
    | [] => s.toList.map String.singleton
    | p :: ps => (piecesFrom p ps [] s.toList).map String.ofList

end JsonFilter.Text
