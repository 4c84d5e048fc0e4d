import JsonFilter.Proofs.Json.Cursor
import JsonFilter.Proofs.Places

/-!
The place of a byte that the reader was at. The reader began somewhere in the text, and tells the
byte by its line and its byte column from there on; the place is a line and a character column of
the whole text. It is come by in bytes: the lines before are added up, the column is added, and
from the byte that this gives the beginning of a character is searched backwards. None of these
steps can fail, and the place is that of the character that the byte is in.
-/

namespace JsonFilter

/-- A place whose line is kept in 32 bits. -/
def Position.narrow (p : Position) : Position := ⟨p.line % 2 ^ 32, p.column⟩

theorem Position.narrow_of_lt {p : Position} (h : p.line < 2 ^ 32) : p.narrow = p := by
  rw [narrow, Nat.mod_eq_of_lt h]

namespace Document

open Json

variable {text : String} {before rest mid tail s t p : List Char} {c : Char}
  {n j k line column : Nat}

/-! ## Lines and bytes -/

/-- What a text ends with after its last line feed. -/
def lastLine (cs : List Char) : List Char := (cs.reverse.takeWhile (· ≠ '\n')).reverse

theorem forall_mem_reverse_ne (h : '\n' ∉ s) : ∀ c ∈ s.reverse, decide (c ≠ '\n') = true := by
  intro c hc
  rw [decide_eq_true_eq]
  rintro rfl
  exact h (List.mem_reverse.mp hc)

theorem lastLine_of_not_mem (h : '\n' ∉ s) : lastLine s = s := by
  rw [lastLine, List.takeWhile_eq_self_iff.mpr (forall_mem_reverse_ne h), List.reverse_reverse]

theorem lastLine_append (h : '\n' ∉ s) : lastLine (t ++ '\n' :: s) = s := by
  rw [lastLine, List.reverse_append, List.reverse_cons, List.append_assoc,
    List.takeWhile_append_of_pos (forall_mem_reverse_ne h)]
  simp

/-- A text is made of whole lines and of what follows the last of them. The lines are those that
are taken, and what the reader has behind it when it comes to the last line. -/
theorem exists_lines (mid : List Char) :
    ∃ above, mid = above ++ lastLine mid ∧ '\n' ∉ lastLine mid ∧
      (∀ s, takeLines (mid.count '\n') (mid ++ s) = above) ∧
      ∀ k s, locate (byteLength above + k) 1 0 (above ++ s) =
        locate k (mid.count '\n' + 1) 0 s := by
  by_cases hmem : '\n' ∈ mid.reverse
  · obtain ⟨below, above, hmid, hnot⟩ := List.eq_append_cons_of_mem hmem
    obtain rfl : mid = above.reverse ++ '\n' :: below.reverse := by
      rw [← List.reverse_reverse mid, hmid]
      simp
    have hlast : '\n' ∉ below.reverse := fun h => hnot (List.mem_reverse.mp h)
    have hcount : (above.reverse ++ '\n' :: below.reverse).count '\n' =
        0 + lineCount above.reverse := by
      rw [List.count_append, List.count_cons_self, List.count_eq_zero.mpr hlast, lineCount]
      omega
    rw [lastLine_append hlast, hcount]
    refine ⟨above.reverse ++ ['\n'], (List.append_cons ..), hlast, fun s => ?_, fun k s => ?_⟩
    · rw [List.append_assoc, List.cons_append, takeLines_line, takeLines]
    · have hbytes : byteLength (above.reverse ++ ['\n']) = byteLength above.reverse + 1 := by
        rw [byteLength_append]
        rfl
      rw [hbytes, List.append_assoc, List.singleton_append, locate_line, Nat.zero_add, Nat.add_comm]
  · have hnot : '\n' ∉ mid := fun h => hmem (List.mem_reverse.mpr h)
    rw [lastLine_of_not_mem hnot, List.count_eq_zero.mpr hnot]
    refine ⟨[], rfl, hnot, fun s => by rw [takeLines], fun k s => ?_⟩
    rw [List.nil_append]
    exact congrArg (locate · 1 0 s) (Nat.zero_add k)

theorem takeLines_append_drop (n : Nat) (s : List Char) :
    takeLines n s ++ s.drop (takeLines n s).length = s := by
  fun_induction takeLines n s with
  | case1 s => rfl
  | case2 n => rfl
  | case3 n c cs ih => rw [List.length_cons, List.drop_succ_cons, List.cons_append, ih]

theorem takeBytes_append (p s : List Char) (k : Nat) :
    takeBytes (byteLength p + k) (p ++ s) = p ++ takeBytes k s := by
  induction p with
  | nil => rw [List.nil_append, List.nil_append]; congr 1; exact Nat.zero_add k
  | cons c p ih =>
    have hle : c.utf8Size ≤ byteLength (c :: p) + k := by rw [byteLength_cons]; omega
    have hrest : byteLength (c :: p) + k - c.utf8Size = byteLength p + k := by
      rw [byteLength_cons]
      omega
    rw [List.cons_append, takeBytes, if_pos hle, hrest, ih, List.cons_append]

theorem takeBytes_of_lt (h : j < c.utf8Size) : takeBytes j (c :: tail) = [] := by
  rw [takeBytes, if_neg (Nat.not_le.mpr h)]

/-- More bytes than there are take the whole text. -/
theorem takeBytes_min (k : Nat) (s : List Char) :
    takeBytes (min k (byteLength s)) s = takeBytes k s := by
  induction s generalizing k with
  | nil => rw [takeBytes, takeBytes]
  | cons c s ih =>
    rw [takeBytes, takeBytes, byteLength_cons]
    by_cases hle : c.utf8Size ≤ k
    · have hrest : min k (c.utf8Size + byteLength s) - c.utf8Size =
          min (k - c.utf8Size) (byteLength s) := by omega
      rw [if_pos hle, if_pos (by omega), hrest, ih]
    · rw [if_neg hle, if_neg (by omega)]

theorem exists_takeBytes (n : Nat) (s : List Char) :
    ∃ t, s = takeBytes n s ++ t ∧ byteLength (takeBytes n s) ≤ n := by
  fun_induction takeBytes n s with
  | case1 n => exact ⟨[], rfl, Nat.zero_le n⟩
  | case2 n c cs hle ih =>
    obtain ⟨t, ht, hbytes⟩ := ih
    refine ⟨t, congrArg (c :: ·) ht, ?_⟩
    rw [byteLength_cons]
    omega
  | case3 n c cs hle => exact ⟨c :: cs, rfl, Nat.zero_le n⟩

/-- No longer beginning has so few bytes. -/
theorem byteLength_le_takeBytes (hs : s = p ++ t) (hp : byteLength p ≤ n) :
    byteLength p ≤ byteLength (takeBytes n s) := by
  obtain ⟨k, rfl⟩ := Nat.exists_eq_add_of_le hp
  rw [hs, takeBytes_append, byteLength_append]
  exact Nat.le_add_right _ _

/-! ## What the reader tells -/

/-- Within a line the reader moves on by columns. -/
theorem locate_append (h : '\n' ∉ s) (k line column : Nat) (t : List Char) :
    locate (byteLength s + k) line column (s ++ t) = locate k line (column + byteLength s) t := by
  induction s generalizing column with
  | nil =>
    show locate (0 + k) line column t = _
    rw [Nat.zero_add]
    rfl
  | cons c s ih =>
    have hc : c ≠ '\n' := fun heq => h (by rw [heq]; exact List.mem_cons_self)
    have hs : '\n' ∉ s := fun hmem => h (List.mem_cons_of_mem c hmem)
    have hrest : c.utf8Size + byteLength s + k - c.utf8Size = byteLength s + k := by omega
    rw [List.cons_append, locate, byteLength_cons, if_neg (by omega), if_neg hc, hrest, ih hs,
      Nat.add_assoc]

theorem locate_zero (line column : Nat) (t : List Char) :
    locate 0 line column t = (line, column) := by
  cases t with
  | nil => rfl
  | cons c t => rw [locate, if_pos c.utf8Size_pos, Nat.add_zero]

/-- A byte that the reader was at is told by the line and the byte column of it. -/
theorem locate_of_byte (mid tail : List Char) (hc : c ≠ '\n') (hj : j < c.utf8Size) :
    locate (byteLength mid + (j + 1)) 1 0 (mid ++ c :: tail) =
      (mid.count '\n' + 1, byteLength (lastLine mid) + j + 1) := by
  obtain ⟨above, hmid, hlast, -, hlocate⟩ := exists_lines mid
  have hlines := congrArg byteLength hmid
  have hsplit : mid ++ c :: tail = above ++ (lastLine mid ++ c :: tail) := by
    rw [← List.append_assoc, ← hmid]
  rw [byteLength_append] at hlines
  rw [hlines, hsplit, Nat.add_assoc, hlocate, locate_append hlast, Nat.zero_add, locate,
    if_neg hc]
  split
  · rw [Nat.add_assoc]
  · have hend : j + 1 - c.utf8Size = 0 := by omega
    have hwhole : j + 1 = c.utf8Size := by omega
    rw [hend, locate_zero, Nat.add_assoc, hwhole]

/-! ## The beginnings that places are told by -/

/-- The beginning of a text that ends where a line and a byte column of its part `rest` are. -/
def front (before rest : List Char) (line column : Nat) : List Char :=
  let lines := takeLines (line - 1) rest
  before ++ lines ++ takeBytes (column - 1) (rest.drop lines.length)

theorem positionAt_eq (before rest : List Char) (line column : Nat) :
    positionAt before rest line column = .behind (front before rest line column) :=
  Position.after_start _

/-- The line and the column of any byte of a character lead to the beginning before it. -/
theorem front_of_byte (before mid tail : List Char) (hj : j < c.utf8Size) :
    front before (mid ++ c :: tail) (mid.count '\n' + 1) (byteLength (lastLine mid) + j + 1) =
      before ++ mid := by
  obtain ⟨above, hmid, -, hlines, -⟩ := exists_lines mid
  have hdrop : (mid ++ c :: tail).drop above.length = lastLine mid ++ c :: tail := by
    have hsplit : mid ++ c :: tail = above ++ (lastLine mid ++ c :: tail) := by
      rw [← List.append_assoc, ← hmid]
    rw [hsplit, List.drop_left]
  simp only [front, Nat.add_sub_cancel, hlines, hdrop]
  rw [takeBytes_append, takeBytes_of_lt hj, List.append_nil, List.append_assoc, ← hmid]

/-- A failure that the reader found at a byte of a character is told by the place of the character
in the whole text. Behind a line feed it is told by the line below, so that one is left out. -/
theorem Error.ofFailure_position (before mid tail : List Char) {f : Json.Failure} (hc : c ≠ '\n')
    (hj : j < c.utf8Size)
    (hf : byteLength (mid ++ c :: tail) - byteLength f.rest + f.ahead = byteLength mid + (j + 1)) :
    (Error.ofFailure (before ++ (mid ++ c :: tail)) (mid ++ c :: tail) f).position =
      .behind (before ++ mid) := by
  rw [ofFailure_append]
  simp only [Json.Failure.toError, hf, locate_of_byte mid tail hc hj]
  rw [positionAt_eq, front_of_byte before mid tail hj]

theorem front_append_drop (before rest : List Char) (line column : Nat) :
    ∃ tail, before ++ rest = front before rest line column ++ tail := by
  obtain ⟨tail, htail, -⟩ := exists_takeBytes (column - 1)
    (rest.drop (takeLines (line - 1) rest).length)
  refine ⟨tail, ?_⟩
  rw [front, List.append_assoc, List.append_assoc, ← htail, takeLines_append_drop]

/-! ## The same in bytes -/

/-- The sum of two 64-bit sizes, if it is one. -/
def addSize? (a b : Nat) : Option Nat := if a + b < 2 ^ 64 then some (a + b) else none

/-- The sum of sizes, if it is one all along. -/
def sumSizes? (sizes : List Nat) : Option Nat := sizes.foldlM addSize? 0

theorem foldlM_addSize? (sizes : List Nat) (h : n + sizes.sum < 2 ^ 64) :
    sizes.foldlM addSize? n = some (n + sizes.sum) := by
  induction sizes generalizing n with
  | nil => rfl
  | cons k sizes ih =>
    rw [List.sum_cons] at h
    have hadd : addSize? n k = some (n + k) := if_pos (by omega)
    rw [List.foldlM_cons, hadd, List.sum_cons, ← Nat.add_assoc]
    exact ih (by omega)

/-- The lines of a text, each with the line feed that ends it. -/
def splitLines : List Char → List (List Char)
  | [] => []
  | c :: cs =>
    if c = '\n' then [c] :: splitLines cs
    else
      match splitLines cs with
      | [] => [[c]]
      | l :: ls => (c :: l) :: ls

theorem flatten_take_splitLines (n : Nat) (s : List Char) :
    ((splitLines s).take n).flatten = takeLines n s := by
  induction s generalizing n with
  | nil => cases n <;> rfl
  | cons c s ih =>
    cases n with
    | zero => rw [takeLines, List.take_zero, List.flatten_nil]
    | succ n =>
      rw [splitLines, takeLines]
      by_cases hc : c = '\n'
      · rw [if_pos hc, if_pos hc, List.take_succ_cons, List.flatten_cons, ih,
          List.singleton_append]
      · have hrest := ih (n + 1)
        rw [if_neg hc, if_neg hc, ← hrest]
        cases splitLines s with
        | nil => simp
        | cons l ls => rfl

theorem sum_map_byteLength (ls : List (List Char)) :
    (ls.map byteLength).sum = byteLength ls.flatten := by
  induction ls with
  | nil => rfl
  | cons l ls ih => rw [List.map_cons, List.sum_cons, ih, List.flatten_cons, byteLength_append]

/-- Whether a text can be cut at a byte. -/
def isBoundary (s : List Char) (n : Nat) : Bool := (restAt? n s).isSome

/-- The last byte up to `n` at which a text can be cut. Nothing comes of a search that finds none
down to the first byte. -/
def boundaryBefore? (s : List Char) : Nat → Option Nat
  | 0 => if isBoundary s 0 then some 0 else none
  | n + 1 => if isBoundary s (n + 1) then some (n + 1) else boundaryBefore? s n

theorem isBoundary_iff : isBoundary s n = true ↔ ∃ p t, s = p ++ t ∧ byteLength p = n := by
  constructor
  · intro h
    obtain ⟨t, ht⟩ := Option.isSome_iff_exists.mp h
    clear h
    fun_induction restAt? n s with
    | case1 s => exact ⟨[], s, rfl, rfl⟩
    | case2 n => cases ht
    | case3 n c cs hle ih =>
      obtain ⟨p, u, hs, hp⟩ := ih ht
      refine ⟨c :: p, u, congrArg (c :: ·) hs, ?_⟩
      rw [byteLength_cons, hp]
      omega
    | case4 n c cs hle => cases ht
  · rintro ⟨p, t, rfl, rfl⟩
    rw [isBoundary, restAt?_append]
    rfl

/-- The search ends behind the longest beginning of at most so many bytes. -/
theorem boundaryBefore?_eq (s : List Char) (n : Nat) :
    boundaryBefore? s n = some (byteLength (takeBytes n s)) := by
  induction n with
  | zero =>
    obtain ⟨t, -, hbytes⟩ := exists_takeBytes 0 s
    have hstart : isBoundary s 0 = true := isBoundary_iff.mpr ⟨[], s, rfl, rfl⟩
    rw [boundaryBefore?, if_pos hstart, Nat.le_zero.mp hbytes]
  | succ n ih =>
    obtain ⟨t, ht, hbytes⟩ := exists_takeBytes (n + 1) s
    rw [boundaryBefore?]
    split
    · next h =>
      obtain ⟨p, u, hs, hp⟩ := isBoundary_iff.mp h
      have hle := byteLength_le_takeBytes hs hp.le
      congr 1
      omega
    · next h =>
      have hne : byteLength (takeBytes (n + 1) s) ≠ n + 1 :=
        fun heq => h (isBoundary_iff.mpr ⟨_, t, ht, heq⟩)
      have hle := byteLength_le_takeBytes ht (n := n) (by omega)
      obtain ⟨u, hu, hbelow⟩ := exists_takeBytes n s
      have hge := byteLength_le_takeBytes hu (n := n + 1) (by omega)
      rw [ih]
      congr 1
      omega

/-- The place of a byte of a text that the reader began at `offset`, from the line and the byte
column that the reader tells it by. Nothing comes of it if the text cannot be cut where it is to be,
if a size needs more than 64 bits, or if no character begins up to the byte. -/
def placeOf? (text : String) (offset line column : Nat) : Option Position := do
  let rest ← restAt? offset text.toList
  let lineStart ← sumSizes? (((splitLines rest).take (line - 1)).map byteLength)
  let first ← addSize? offset lineStart
  let byte ← addSize? first (column - 1)
  let boundary ← boundaryBefore? text.toList (min byte text.utf8ByteSize)
  let behind ← restAt? boundary text.toList
  return (Position.behind (text.toList.take (text.toList.length - behind.length))).narrow

theorem sumSizes?_splitLines (hsize : byteLength rest < 2 ^ 64) (n : Nat) :
    sumSizes? (((splitLines rest).take n).map byteLength) =
      some (byteLength (takeLines n rest)) := by
  have hsum : (((splitLines rest).take n).map byteLength).sum = byteLength (takeLines n rest) := by
    rw [sum_map_byteLength, flatten_take_splitLines]
  have hlines := congrArg byteLength (takeLines_append_drop n rest)
  rw [byteLength_append] at hlines
  rw [sumSizes?, foldlM_addSize? _ (by omega), Nat.zero_add, hsum]

/-- The search for a character ends behind the beginning that the place is told by. -/
theorem boundaryBefore?_front (before rest : List Char) (line column : Nat) :
    boundaryBefore? (before ++ rest)
        (min (byteLength before + byteLength (takeLines (line - 1) rest) + (column - 1))
          (byteLength (before ++ rest))) =
      some (byteLength (front before rest line column)) := by
  have hlines := takeLines_append_drop (line - 1) rest
  rw [boundaryBefore?_eq, front]
  generalize takeLines (line - 1) rest = lines at hlines ⊢
  generalize rest.drop lines.length = below at hlines ⊢
  subst hlines
  congr 2
  calc takeBytes (min (byteLength before + byteLength lines + (column - 1))
        (byteLength (before ++ (lines ++ below)))) (before ++ (lines ++ below))
      = takeBytes (byteLength (before ++ lines) + min (column - 1) (byteLength below))
          (before ++ lines ++ below) := by
        rw [← byteLength_append, ← List.append_assoc, byteLength_append (before ++ lines) below,
          Nat.add_min_add_left]
    _ = before ++ lines ++ takeBytes (min (column - 1) (byteLength below)) below :=
        takeBytes_append ..
    _ = before ++ lines ++ takeBytes (column - 1) below := by rw [takeBytes_min]

/-- Nothing fails, and the place is that behind a beginning of the text. -/
theorem placeOf?_eq (htext : text.toList = before ++ rest) (hsize : text.utf8ByteSize < 2 ^ 32)
    (hcolumn : column < 2 ^ 32) :
    placeOf? text (byteLength before) line column =
      some (Position.behind (front before rest line column)).narrow := by
  have hbytes : byteLength (before ++ rest) = text.utf8ByteSize := by
    rw [← htext, byteLength_toList]
  have hrest : byteLength before + byteLength rest < 2 ^ 32 := by
    rwa [← byteLength_append, hbytes]
  have hlines := congrArg byteLength (takeLines_append_drop (line - 1) rest)
  rw [byteLength_append] at hlines
  have hsum := sumSizes?_splitLines (show byteLength rest < 2 ^ 64 by omega) (line - 1)
  have hfirst : addSize? (byteLength before) (byteLength (takeLines (line - 1) rest)) =
      some (byteLength before + byteLength (takeLines (line - 1) rest)) := if_pos (by omega)
  have hbyte : addSize? (byteLength before + byteLength (takeLines (line - 1) rest)) (column - 1) =
      some (byteLength before + byteLength (takeLines (line - 1) rest) + (column - 1)) :=
    if_pos (by omega)
  have hboundary := boundaryBefore?_front before rest line column
  obtain ⟨tail, htail⟩ := front_append_drop before rest line column
  have hcut : restAt? (byteLength (front before rest line column)) (before ++ rest) =
      some tail := by
    rw [htail, restAt?_append]
  have htake : (before ++ rest).take ((before ++ rest).length - tail.length) =
      front before rest line column := by
    rw [htail, List.length_append, Nat.add_sub_cancel, List.take_left]
  rw [hbytes] at hboundary
  simp only [placeOf?, htext, restAt?_append, hsum, hfirst, hbyte, hboundary, hcut, htake,
    Option.bind_eq_bind, Option.bind_some, Option.pure_def]

/-! ## Lines in 32 bits -/

theorem length_le_byteLength (s : List Char) : s.length ≤ byteLength s := by
  induction s with
  | nil => exact Nat.le_refl 0
  | cons c s ih =>
    have hpos := c.utf8Size_pos
    rw [List.length_cons, byteLength_cons]
    omega

/-- In front of a character, lines are told in 32 bits. -/
theorem narrow_behind_cons (htext : text.toList = before ++ c :: tail)
    (hsize : text.utf8ByteSize < 2 ^ 32) : (Position.behind before).narrow = .behind before := by
  have hpos := c.utf8Size_pos
  have hcount : before.count '\n' ≤ before.length := List.count_le_length
  have hlength := length_le_byteLength before
  have hbytes := congrArg byteLength htext
  rw [byteLength_toList, byteLength_append, byteLength_cons] at hbytes
  apply Position.narrow_of_lt
  show before.count '\n' + 1 < 2 ^ 32
  omega

/-- At the end they are, too, unless the text is made of line feeds, as many as there may be. -/
theorem narrow_behind (htext : text.toList = before ++ tail) (hsize : text.utf8ByteSize < 2 ^ 32)
    (hfeeds : text.toList ≠ List.replicate (2 ^ 32 - 1) '\n') :
    (Position.behind before).narrow = .behind before := by
  cases tail with
  | cons c tail => exact narrow_behind_cons htext hsize
  | nil =>
    rw [List.append_nil] at htext
    apply Position.narrow_of_lt
    show before.count '\n' + 1 < 2 ^ 32
    by_contra hlarge
    have hcount : before.count '\n' ≤ before.length := List.count_le_length
    have hlength := length_le_byteLength text.toList
    rw [byteLength_toList, htext] at hlength
    refine hfeeds (List.eq_replicate_iff.mpr ⟨by rw [htext]; omega, fun c hc => ?_⟩)
    rw [htext] at hc
    exact (List.count_eq_length.mp (by omega) c hc).symm

/-! ## Places of failures -/

/-- **Places of failures are exact.** Let a text be shorter than 2^32 bytes and let the reader begin
at a byte where a character begins. Then the place of any byte of a character from there on, told by
its line and its byte column among what is left of the text, is the line and the column of the
character in the whole text. For every other line and column, beyond the text or zero included, it
is the place of some character or of the end, with nothing that could fail on the way. The line is
kept in 32 bits; it needs more only at the end of a text of 2^32 - 1 line feeds and nothing else. -/
theorem positionAt_exact (htext : text.toList = before ++ rest)
    (hsize : text.utf8ByteSize < 2 ^ 32) :
    (∀ mid c tail j, rest = mid ++ c :: tail → j < c.utf8Size →
      positionAt before rest (mid.count '\n' + 1) (byteLength (lastLine mid) + j + 1) =
        .behind (before ++ mid) ∧
      placeOf? text (byteLength before) (mid.count '\n' + 1) (byteLength (lastLine mid) + j + 1) =
        some (.behind (before ++ mid))) ∧
    ∀ line column, column < 2 ^ 32 →
      ∃ beginning, beginning <+: text.toList ∧
        positionAt before rest line column = .behind beginning ∧
        placeOf? text (byteLength before) line column =
          some (Position.behind beginning).narrow ∧
        (text.toList ≠ List.replicate (2 ^ 32 - 1) '\n' →
          (Position.behind beginning).narrow = .behind beginning) := by
  constructor
  · rintro mid c tail j rfl hj
    have hwhole : text.toList = before ++ mid ++ c :: tail := by rw [htext, List.append_assoc]
    obtain ⟨above, hmid, -⟩ := exists_lines mid
    have hlines := congrArg byteLength hmid
    have hbytes := congrArg byteLength hwhole
    rw [byteLength_append] at hlines
    rw [byteLength_toList, byteLength_append, byteLength_append, byteLength_cons] at hbytes
    constructor
    · rw [positionAt_eq, front_of_byte before mid tail hj]
    · rw [placeOf?_eq htext hsize (by omega), front_of_byte before mid tail hj,
        narrow_behind_cons hwhole hsize]
  · intro line column hcolumn
    obtain ⟨tail, htail⟩ := front_append_drop before rest line column
    have hwhole := htext.trans htail
    exact ⟨front before rest line column, ⟨tail, hwhole.symm⟩, positionAt_eq ..,
      placeOf?_eq htext hsize hcolumn, narrow_behind hwhole hsize⟩

theorem positionAt_exact_multibyte :
    positionAt "[] ".toList "\"é\"\n[‽, !]".toList 2 3 = ⟨2, 2⟩ ∧
    placeOf? "[] \"é\"\n[‽, !]" 3 2 3 = some ⟨2, 2⟩ ∧
    ∃ beginning, beginning <+: "[] \"é\"\n[‽, !]".toList ∧
      placeOf? "[] \"é\"\n[‽, !]" 3 7 0 = some (.behind beginning) := by
  have htext : "[] \"é\"\n[‽, !]".toList = "[] ".toList ++ "\"é\"\n[‽, !]".toList := rfl
  have hsize : "[] \"é\"\n[‽, !]".utf8ByteSize < 2 ^ 32 := by decide
  have hfeeds : "[] \"é\"\n[‽, !]".toList ≠ List.replicate (2 ^ 32 - 1) '\n' := by
    intro h
    have hlength := congrArg List.length h
    rw [List.length_replicate] at hlength
    exact absurd hlength (by decide)
  obtain ⟨hexact, htotal⟩ := positionAt_exact htext hsize
  have hbyte := hexact "\"é\"\n[".toList '‽' ", !]".toList 1 rfl (by decide)
  obtain ⟨beginning, hbeginning, -, hplace, hnarrow⟩ := htotal 7 0 (by decide)
  rw [hnarrow hfeeds] at hplace
  exact ⟨hbyte.1, hbyte.2, beginning, hbeginning, hplace⟩

end Document

end JsonFilter
