import ArithWat.Text.Blank

/-!
# Positions in a text

A position is a number of bytes of the UTF-8 form of a text.  It is a *boundary*
when it falls between two characters or at an end.  This module cuts texts at
boundaries (`dropBytes?`, `takeBytes?`, `slice`), turns a position into a line
and a column (`placeAt`), and finds the line around a position (`lineAround`).
Every function is total: a position past the end or inside a character has its
own answer.
-/

namespace ArithWat.Text

/-- The number of bytes of a text in UTF-8. -/
def byteSize : List Char → Nat
  | [] => 0
  | c :: cs => c.utf8Size + byteSize cs

@[simp] theorem byteSize_append (xs ys : List Char) :
    byteSize (xs ++ ys) = byteSize xs + byteSize ys := by
  induction xs with
  | nil => simp [byteSize]
  | cons c xs ih => simp [byteSize, ih, Nat.add_assoc]

@[simp] theorem byteSize_eq_zero_iff {cs : List Char} : byteSize cs = 0 ↔ cs = [] := by
  cases cs with
  | nil => simp [byteSize]
  | cons c cs =>
    have := c.utf8Size_pos
    simp only [byteSize, reduceCtorEq, iff_false]
    omega

/-- What follows the first `n` bytes; `none` unless `n` is a boundary. -/
def dropBytes? : List Char → Nat → Option (List Char)
  | cs, 0 => some cs
  | [], _ + 1 => none
  | c :: cs, n + 1 => if c.utf8Size ≤ n + 1 then dropBytes? cs (n + 1 - c.utf8Size) else none

/-- What follows a boundary is what is left after characters of that many bytes. -/
theorem dropBytes?_eq_some_iff {cs rest : List Char} {n : Nat} :
    dropBytes? cs n = some rest ↔ ∃ head, cs = head ++ rest ∧ byteSize head = n := by
  fun_induction dropBytes? cs n with
  | case1 cs => simp
  | case2 n =>
    simp only [reduceCtorEq, false_iff, not_exists, not_and]
    intro head h
    simp [(List.append_eq_nil_iff.mp h.symm).1, byteSize]
  | case3 c cs n hle ih =>
    rw [ih]
    clear ih
    constructor
    · rintro ⟨head, rfl, hb⟩
      exact ⟨c :: head, rfl, by simp only [byteSize]; omega⟩
    · rintro ⟨_ | ⟨d, head⟩, h, hb⟩
      · simp [byteSize] at hb
      · obtain ⟨rfl, hcs⟩ := List.cons.inj h
        simp only [byteSize] at hb
        exact ⟨head, hcs, by omega⟩
  | case4 c cs n hlt =>
    simp only [reduceCtorEq, false_iff, not_exists, not_and]
    rintro (_ | ⟨d, head⟩) h
    · simp [byteSize]
    · obtain ⟨rfl, -⟩ := List.cons.inj h
      simp only [byteSize]
      omega

/-- The first `n` bytes; `none` unless `n` is a boundary. -/
def takeBytes? : List Char → Nat → Option (List Char)
  | _, 0 => some []
  | [], _ + 1 => none
  | c :: cs, n + 1 =>
    if c.utf8Size ≤ n + 1 then (takeBytes? cs (n + 1 - c.utf8Size)).map (c :: ·) else none

/-- What precedes a boundary is characters of that many bytes. -/
theorem takeBytes?_eq_some_iff {cs head : List Char} {n : Nat} :
    takeBytes? cs n = some head ↔ ∃ rest, cs = head ++ rest ∧ byteSize head = n := by
  fun_induction takeBytes? cs n generalizing head with
  | case1 cs =>
    simp only [byteSize_eq_zero_iff, Option.some.injEq]
    constructor
    · rintro rfl; exact ⟨cs, rfl, rfl⟩
    · rintro ⟨-, -, rfl⟩; rfl
  | case2 n =>
    simp only [reduceCtorEq, false_iff, not_exists, not_and]
    intro rest h
    simp [(List.append_eq_nil_iff.mp h.symm).1, byteSize]
  | case3 c cs n hle ih =>
    rw [Option.map_eq_some_iff]
    constructor
    · rintro ⟨head, hh, rfl⟩
      obtain ⟨rest, rfl, hb⟩ := ih.mp hh
      exact ⟨rest, rfl, by simp only [byteSize]; omega⟩
    · rintro ⟨rest, h, hb⟩
      cases head with
      | nil => simp [byteSize] at hb
      | cons d head =>
        obtain ⟨rfl, hcs⟩ := List.cons.inj h
        simp only [byteSize] at hb
        exact ⟨head, ih.mpr ⟨rest, hcs, by omega⟩, rfl⟩
  | case4 c cs n hlt =>
    simp only [reduceCtorEq, false_iff, not_exists, not_and]
    intro rest h
    cases head with
    | nil => simp [byteSize]
    | cons d head =>
      obtain ⟨rfl, -⟩ := List.cons.inj h
      simp only [byteSize]
      omega

/-- The text from byte `start` up to byte `stop`; `none` unless both are
boundaries and `start ≤ stop`. -/
def slice? (cs : List Char) (start stop : Nat) : Option (List Char) :=
  if start ≤ stop then
    match dropBytes? cs start with
    | some rest => takeBytes? rest (stop - start)
    | none => none
  else none

/-- **A slice is a factor of the text at its place.** -/
theorem slice?_eq_some_iff {cs mid : List Char} {start stop : Nat} :
    slice? cs start stop = some mid ↔
      ∃ head rest, cs = head ++ mid ++ rest ∧ byteSize head = start ∧
        start + byteSize mid = stop := by
  unfold slice?
  split
  · rename_i hle
    constructor
    · intro h
      split at h
      · rename_i tail hd
        obtain ⟨head, rfl, hs⟩ := dropBytes?_eq_some_iff.mp hd
        obtain ⟨rest, rfl, hm⟩ := takeBytes?_eq_some_iff.mp h
        exact ⟨head, rest, by simp, hs, by omega⟩
      · cases h
    · rintro ⟨head, rest, rfl, hs, hm⟩
      have hd : dropBytes? (head ++ mid ++ rest) start = some (mid ++ rest) :=
        dropBytes?_eq_some_iff.mpr ⟨head, by simp, hs⟩
      rw [hd]
      exact takeBytes?_eq_some_iff.mpr ⟨rest, rfl, by omega⟩
  · rename_i hlt
    constructor
    · intro h; cases h
    · rintro ⟨head, rest, -, -, hm⟩; omega

/-! ## Lines and columns -/

/-- A place a reader can find: line and column, both counted from one. -/
structure Place where
  line : Nat
  col : Nat
  deriving DecidableEq, Repr

namespace Place

/-- The place of the first character of a text. -/
def start : Place := ⟨1, 1⟩

/-- The place right after a character that stands at `p`. -/
def after (p : Place) (c : Char) : Place :=
  if c = '\n' then ⟨p.line + 1, 1⟩ else ⟨p.line, p.col + 1⟩

/-- The place reached from `p` over the characters that begin within the next
`n` bytes. -/
def advance (p : Place) : List Char → Nat → Place
  | [], _ => p
  | _ :: _, 0 => p
  | c :: cs, n + 1 => advance (p.after c) cs (n + 1 - c.utf8Size)

end Place

/-- **The line and column of a position.**  Inside a character it is the place of
the next boundary, past the end that of the end. -/
def placeAt (cs : List Char) (position : Nat) : Place := Place.start.advance cs position

/-! ## The line around a position -/

/-- What follows the last line feed, the whole text if there is none. -/
def lastLine (cs : List Char) : List Char := (cs.reverse.takeWhile (· ≠ '\n')).reverse

/-- What precedes the first line feed, the whole text if there is none. -/
def firstLine (cs : List Char) : List Char := cs.takeWhile (· ≠ '\n')

/-- **The line around a position**, trimmed.  A position past the end counts as
the end.  A position inside a character has no line of its own, and the whole
text stands for it. -/
def lineAround (cs : List Char) (position : Nat) : List Char :=
  let p := min position (byteSize cs)
  match takeBytes? cs p, dropBytes? cs p with
  | some before, some rest => trim (lastLine before ++ firstLine rest)
  | _, _ => trim cs

end ArithWat.Text
