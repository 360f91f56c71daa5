import ArithWat.Error

/-!
# Positions after a text is continued

What a position of a text says does not change when another text stands before it, if the
position moves along: its slices are the same (`slice?_append_right`), and if the text
before it ends in a line feed, so is the line around it (`lineAround_append_newline`), and
its place is the same place some lines further down (`placeAt_append_newline`).  Slices
that end within a text do not change when more follows (`slice?_append_left`).

A report of an error *moves* with its positions (`CompileError.shift`).
-/

namespace ArithWat

namespace Text

/-! ## Slices -/

theorem dropBytes?_cons (c : Char) (cs : List Char) (n : Nat) :
    dropBytes? (c :: cs) (c.utf8Size + n) = dropBytes? cs n := by
  obtain ⟨m, hm⟩ : ∃ m, c.utf8Size + n = m + 1 :=
    ⟨c.utf8Size + n - 1, by have := c.utf8Size_pos; omega⟩
  rw [hm, dropBytes?, if_pos (by omega), ← hm, Nat.add_sub_cancel_left]

theorem dropBytes?_append (head cs : List Char) (n : Nat) :
    dropBytes? (head ++ cs) (byteSize head + n) = dropBytes? cs n := by
  induction head with
  | nil => simp [byteSize]
  | cons c head ih => rw [List.cons_append, byteSize, Nat.add_assoc, dropBytes?_cons, ih]

/-- **A slice does not depend on what stands before the text.** -/
theorem slice?_append_right (head cs : List Char) (start stop : Nat) :
    slice? (head ++ cs) (byteSize head + start) (byteSize head + stop) =
      slice? cs start stop := by
  simp only [slice?, dropBytes?_append, Nat.add_le_add_iff_left, Nat.add_sub_add_left]

/-- No slice ends past the text. -/
theorem slice?_eq_none_of_lt {cs : List Char} {start stop : Nat} (h : byteSize cs < stop) :
    slice? cs start stop = none := by
  cases hslice : slice? cs start stop with
  | none => rfl
  | some mid =>
    obtain ⟨head, rest, rfl, hstart, hstop⟩ := slice?_eq_some_iff.mp hslice
    rw [byteSize_append, byteSize_append] at h
    omega

/-- The cut of a text at a position within it does not depend on what follows. -/
theorem append_cancel_of_byteSize_le {xs ys cs more : List Char} (h : xs ++ ys = cs ++ more)
    (hle : byteSize xs ≤ byteSize cs) : ∃ mid, cs = xs ++ mid ∧ ys = mid ++ more := by
  rcases List.append_eq_append_iff.mp h with ⟨mid, rfl, rfl⟩ | ⟨mid, rfl, rfl⟩
  · exact ⟨mid, rfl, rfl⟩
  · rw [byteSize_append] at hle
    have hmid : mid = [] := byteSize_eq_zero_iff.mp (by omega)
    exact ⟨[], by simp [hmid], by simp [hmid]⟩

/-- **A slice does not depend on what follows the text it ends in.** -/
theorem slice?_append_left {cs : List Char} {stop : Nat} (h : stop ≤ byteSize cs)
    (more : List Char) (start : Nat) : slice? (cs ++ more) start stop = slice? cs start stop := by
  refine Option.ext fun mid => ?_
  rw [slice?_eq_some_iff, slice?_eq_some_iff]
  constructor
  · rintro ⟨head, rest, hcs, hstart, hstop⟩
    have hle : byteSize (head ++ mid) ≤ byteSize cs := by
      rw [byteSize_append]
      omega
    obtain ⟨tail, rfl, -⟩ := append_cancel_of_byteSize_le hcs.symm hle
    exact ⟨head, tail, rfl, hstart, hstop⟩
  · rintro ⟨head, rest, rfl, hstart, hstop⟩
    exact ⟨head, rest ++ more, by simp, hstart, hstop⟩

/-! ## Places -/

namespace Place

/-- The place with the same column some lines further down. -/
def down (lines : Nat) (p : Place) : Place := ⟨p.line + lines, p.col⟩

theorem after_down (lines : Nat) (p : Place) (c : Char) :
    (p.down lines).after c = (p.after c).down lines := by
  by_cases hc : c = '\n'
  · simp [after, down, hc, Nat.add_right_comm]
  · simp [after, down, hc]

theorem advance_down (lines : Nat) (p : Place) (cs : List Char) (n : Nat) :
    (p.down lines).advance cs n = (p.advance cs n).down lines := by
  induction cs generalizing p n with
  | nil => rfl
  | cons c cs ih =>
    cases n with
    | zero => rfl
    | succ n => rw [advance, advance, after_down, ih]

theorem advance_cons (p : Place) (c : Char) (cs : List Char) (n : Nat) :
    p.advance (c :: cs) (c.utf8Size + n) = (p.after c).advance cs n := by
  obtain ⟨m, hm⟩ : ∃ m, c.utf8Size + n = m + 1 :=
    ⟨c.utf8Size + n - 1, by have := c.utf8Size_pos; omega⟩
  rw [hm, advance, ← hm, Nat.add_sub_cancel_left]

theorem advance_append (p : Place) (head cs : List Char) (n : Nat) :
    p.advance (head ++ cs) (byteSize head + n) = (head.foldl after p).advance cs n := by
  induction head generalizing p with
  | nil => simp [byteSize]
  | cons c head ih =>
    rw [List.cons_append, byteSize, Nat.add_assoc, advance_cons, ih, List.foldl_cons]

@[simp] theorem advance_zero (p : Place) (cs : List Char) : p.advance cs 0 = p := by
  cases cs <;> rfl

/-- Over a text one gets as many lines further down as it has line feeds. -/
theorem line_foldl_after (p : Place) (cs : List Char) :
    (cs.foldl after p).line = p.line + cs.count '\n' := by
  induction cs generalizing p with
  | nil => simp
  | cons c cs ih =>
    rw [List.foldl_cons, ih]
    by_cases hc : c = '\n'
    · simp [after, hc, Nat.add_right_comm, Nat.add_assoc]
    · simp [after, hc]

/-- A line feed leads to the first column, whatever stands before it. -/
theorem foldl_after_newline (cs : List Char) :
    (cs ++ ['\n']).foldl after start = start.down (cs.count '\n' + 1) := by
  rw [List.foldl_append, List.foldl_cons, List.foldl_nil, after, if_pos rfl, line_foldl_after]
  rfl

end Place

/-- The place of a boundary is reached over all that stands before it. -/
theorem placeAt_eq_foldl (before rest : List Char) :
    placeAt (before ++ rest) (byteSize before) = before.foldl Place.after Place.start := by
  have hplace := Place.advance_append Place.start before rest 0
  rwa [Nat.add_zero, Place.advance_zero] at hplace

/-- The number of bytes before a text that stands on the lines after `cs`. -/
theorem byteSize_newline (cs : List Char) : byteSize (cs ++ ['\n']) = byteSize cs + 1 :=
  byteSize_append cs ['\n']

/-- **A place is the same place further down** if lines stand before it. -/
theorem placeAt_append_newline (cs rest : List Char) (n : Nat) :
    placeAt ((cs ++ ['\n']) ++ rest) (byteSize (cs ++ ['\n']) + n) =
      (placeAt rest n).down (cs.count '\n' + 1) := by
  rw [placeAt, Place.advance_append, Place.foldl_after_newline, Place.advance_down, placeAt]

/-! ## Lines -/

theorem lastLine_append_newline (cs rest : List Char) :
    lastLine ((cs ++ ['\n']) ++ rest) = lastLine rest := by
  have hstop : ('\n' :: cs.reverse).takeWhile (· ≠ '\n') = [] := rfl
  simp only [lastLine, List.reverse_append, List.reverse_cons, List.reverse_nil, List.nil_append,
    List.singleton_append, List.takeWhile_append, hstop, List.append_nil]
  split
  · rename_i hlength
    rw [(List.takeWhile_prefix _).eq_of_length hlength]
  · rfl

theorem lineAround_append (before rest : List Char) :
    lineAround (before ++ rest) (byteSize before) =
      trim (lastLine before ++ firstLine rest) := by
  have hmin : min (byteSize before) (byteSize (before ++ rest)) = byteSize before := by
    rw [byteSize_append]
    omega
  have htake : takeBytes? (before ++ rest) (byteSize before) = some before :=
    takeBytes?_eq_some_iff.mpr ⟨rest, rfl, rfl⟩
  have hdrop : dropBytes? (before ++ rest) (byteSize before) = some rest :=
    dropBytes?_eq_some_iff.mpr ⟨before, rfl, rfl⟩
  simp only [lineAround, hmin, htake, hdrop]

/-- **The line around a boundary does not depend on the lines before.** -/
theorem lineAround_append_newline (cs before rest : List Char) :
    lineAround ((cs ++ ['\n']) ++ (before ++ rest))
      (byteSize (cs ++ ['\n']) + byteSize before) =
      lineAround (before ++ rest) (byteSize before) := by
  rw [← List.append_assoc, ← byteSize_append, lineAround_append, lineAround_append,
    lastLine_append_newline]

end Text

/-! ## Reports -/

/-- The span some bytes further on. -/
def Span.shift (bytes : Nat) (span : Span) : Span := ⟨span.start + bytes, span.stop + bytes⟩

/-- A report of a character, some bytes further on and some lines further down. -/
def LexicalError.shift (bytes lines : Nat) (e : LexicalError) : LexicalError :=
  { e with location := e.location + bytes, place := e.place.down lines }

/-- A report of a fault, some bytes further on and some lines further down. -/
def ParseError.shift (bytes lines : Nat) (e : ParseError) : ParseError :=
  { e with span := e.span.shift bytes, place := e.place.down lines }

/-- **A report, some bytes further on and some lines further down.**  All that says what is
wrong stays: the sort and wording of a fault, its text and column, a character and the line
around it, the name of a variable. -/
def CompileError.shift (bytes lines : Nat) : CompileError → CompileError
  | lexical e => lexical (e.shift bytes lines)
  | parse e => parse (e.shift bytes lines)
  | reference e => reference { e with span := e.span.shift bytes }

open Text

/-- The text of a span does not depend on what stands before the script. -/
theorem Span.text_append (head source : List Char) (span : Span) :
    (span.shift (byteSize head)).text (head ++ source) = span.text source := by
  simp only [text, shift, Nat.add_comm _ (byteSize head), slice?_append_right]

/-- **The report of a fault moves with its span.** -/
theorem Fault.report_append (fault : Fault) (cs rest : List Char) (span : Span) :
    fault.report ((cs ++ ['\n']) ++ rest) (span.shift (byteSize (cs ++ ['\n']))) =
      (fault.report rest span).shift (byteSize (cs ++ ['\n'])) (cs.count '\n' + 1) := by
  simp only [report, ParseError.report, ParseError.shift, Span.text_append]
  congr 1
  rw [Span.shift, Nat.add_comm, placeAt_append_newline]

/-- The report of a boundary shows the character that stands behind it. -/
theorem LexicalError.char_report (before rest : List Char) (c : Char) :
    (report (before ++ c :: rest) (byteSize before)).char = c := by
  have hdrop : dropBytes? (before ++ c :: rest) (byteSize before) = some (c :: rest) :=
    dropBytes?_eq_some_iff.mpr ⟨before, rfl, rfl⟩
  rw [report, hdrop]
  rfl

/-- **The report of a character moves with its position.** -/
theorem LexicalError.report_append (cs before rest : List Char) :
    report ((cs ++ ['\n']) ++ (before ++ rest)) (byteSize (cs ++ ['\n']) + byteSize before) =
      (report (before ++ rest) (byteSize before)).shift
        (byteSize (cs ++ ['\n'])) (cs.count '\n' + 1) := by
  simp only [report, shift, placeAt_append_newline, lineAround_append_newline, dropBytes?_append]
  congr 1
  exact Nat.add_comm _ _

end ArithWat
