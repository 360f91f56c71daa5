import ArithWat.Proofs.ErrorPositions

/-!
# Lines of a text

A text is cut into lines at its line feeds (`lines`).  A boundary falls into one of the lines
(`exists_lines_eq`): each line above it has a line feed before the boundary, and its own line is
what stands since the last line feed before it, up to the next one after it.

So a place leads back to the boundary that it is the place of, by counting lines and characters
(`textBefore?`).  Places come in the order of their boundaries, since every character leads to a
later place (`Place.precedes_after`).  And the line around a position, which is found by looking
for line feeds on both sides, is the line with the number of its place.
-/

namespace ArithWat.Text

/-- The lines of a text, without their line feeds. -/
def lines (cs : List Char) : List (List Char) := cs.splitOn '\n'

/-- Lines as they stand in a text, each with its line feed. -/
def terminated (ls : List (List Char)) : List Char := ls.flatMap (· ++ ['\n'])

/-! ## Where a boundary falls -/

theorem newline_not_mem_firstLine (cs : List Char) : '\n' ∉ firstLine cs := by
  intro h
  simpa using List.mem_takeWhile_imp h

theorem newline_not_mem_lastLine (cs : List Char) : '\n' ∉ lastLine cs := by
  intro h
  simpa using List.mem_takeWhile_imp (List.mem_reverse.mp h)

/-- A text is whole lines, as many as it has line feeds, and its last line. -/
theorem exists_terminated (cs : List Char) :
    ∃ above, cs = terminated above ++ lastLine cs ∧ above.length = cs.count '\n' ∧
      ∀ line ∈ above, '\n' ∉ line := by
  induction cs using List.reverseRecOn with
  | nil => exact ⟨[], rfl, rfl, List.forall_mem_nil _⟩
  | append_singleton cs c ih =>
    obtain ⟨above, hcs, hlength, habove⟩ := ih
    rw [lastLine_concat]
    by_cases hc : c = '\n'
    · -- A line feed makes the last line one of the whole lines.
      refine ⟨above ++ [lastLine cs], ?_, ?_, ?_⟩
      · rw [if_pos hc, hc, terminated, List.flatMap_append, ← terminated, List.flatMap_singleton,
          ← List.append_assoc, ← hcs, List.append_nil]
      · rw [hc, List.count_append, List.length_append, hlength]
        rfl
      · rw [List.forall_mem_append, List.forall_mem_singleton]
        exact ⟨habove, newline_not_mem_lastLine cs⟩
    · refine ⟨above, ?_, ?_, habove⟩
      · rw [if_neg hc, ← List.append_assoc, ← hcs]
      · rw [List.count_append, hlength, List.count_singleton, if_neg (by simpa using hc),
          Nat.add_zero]

theorem lines_terminated_append {above : List (List Char)} (h : ∀ line ∈ above, '\n' ∉ line)
    (rest : List Char) : lines (terminated above ++ rest) = above ++ lines rest := by
  induction above with
  | nil => rfl
  | cons line above ih =>
    obtain ⟨hline, habove⟩ := List.forall_mem_cons.mp h
    rw [terminated, List.flatMap_cons, ← terminated, List.append_assoc, List.append_assoc,
      List.singleton_append, lines, List.splitOn_append_cons_self_of_not_mem hline, ← lines,
      ih habove, List.cons_append]

/-- The first line of a text that begins in the middle of a line. -/
theorem exists_lines_append {line : List Char} (h : '\n' ∉ line) (rest : List Char) :
    ∃ below, lines (line ++ rest) = (line ++ firstLine rest) :: below := by
  have hline : '\n' ∉ line ++ firstLine rest :=
    fun hmem => (List.mem_append.mp hmem).elim h (newline_not_mem_firstLine rest)
  have hrest : rest = firstLine rest ++ rest.dropWhile (· ≠ '\n') :=
    List.takeWhile_append_dropWhile.symm
  cases htail : rest.dropWhile (· ≠ '\n') with
  | nil =>
    rw [htail, List.append_nil] at hrest
    rw [← hrest] at hline ⊢
    exact ⟨[], List.splitOn_eq_singleton hline⟩
  | cons c tail =>
    have hc : c = '\n' := by
      have hhead := List.head?_dropWhile_not (· ≠ '\n') rest
      rw [htail] at hhead
      simpa using hhead
    refine ⟨lines tail, ?_⟩
    rw [htail, hc] at hrest
    conv => lhs; rw [hrest, ← List.append_assoc]
    exact List.splitOn_append_cons_self_of_not_mem hline tail

/-- The line that a boundary falls into, and the lines above and below it. -/
theorem exists_lines_eq (before rest : List Char) :
    ∃ above below, lines (before ++ rest) = above ++ (lastLine before ++ firstLine rest) :: below ∧
      above.length = before.count '\n' ∧ before = terminated above ++ lastLine before := by
  obtain ⟨above, hbefore, hlength, habove⟩ := exists_terminated before
  obtain ⟨below, hbelow⟩ := exists_lines_append (newline_not_mem_lastLine before) rest
  refine ⟨above, below, ?_, hlength, hbefore⟩
  conv => lhs; rw [hbefore, List.append_assoc, lines_terminated_append habove, hbelow]

/-- **The line that a boundary falls into** has as many lines above it as there are line feeds
before the boundary. -/
theorem getElem?_lines (before rest : List Char) :
    (lines (before ++ rest))[before.count '\n']? = some (lastLine before ++ firstLine rest) := by
  obtain ⟨above, below, hlines, hlength, -⟩ := exists_lines_eq before rest
  rw [hlines, ← hlength, List.getElem?_append_right (Nat.le_refl _), Nat.sub_self,
    List.getElem?_cons_zero]

/-- What stands before a boundary is the lines above and a part of its own. -/
theorem terminated_take_lines (before rest : List Char) :
    terminated ((lines (before ++ rest)).take (before.count '\n')) ++ lastLine before = before := by
  obtain ⟨above, below, hlines, hlength, hbefore⟩ := exists_lines_eq before rest
  rw [hlines, ← hlength, List.take_left, ← hbefore]

/-! ## From a place back to its boundary -/

/-- A position between two characters, or at an end: the text can be cut there. -/
def IsBoundary (cs : List Char) (n : Nat) : Prop := (takeBytes? cs n).isSome = true

instance (cs : List Char) (n : Nat) : Decidable (IsBoundary cs n) :=
  inferInstanceAs (Decidable (_ = true))

theorem isBoundary_iff {cs : List Char} {n : Nat} :
    IsBoundary cs n ↔ ∃ before rest, cs = before ++ rest ∧ byteSize before = n := by
  rw [IsBoundary, Option.isSome_iff_exists]
  simp only [takeBytes?_eq_some_iff]

/-- **What stands before a place**, found by counting: the lines above, each with its line feed,
and the characters to the left on its own line.  There is no such text if there is no such line,
or not so many characters on it. -/
def textBefore? (cs : List Char) : Place → Option (List Char)
  | ⟨above + 1, left + 1⟩ =>
    match (lines cs)[above]? with
    | some line =>
      if left ≤ line.length then some (terminated ((lines cs).take above) ++ line.take left)
      else none
    | none => none
  | _ => none

theorem textBefore?_placeAt (before rest : List Char) :
    textBefore? (before ++ rest) (placeAt (before ++ rest) (byteSize before)) = some before := by
  have hleft : (lastLine before).length ≤ (lastLine before ++ firstLine rest).length := by
    rw [List.length_append]
    exact Nat.le_add_right _ _
  rw [placeAt_append, Nat.add_comm 1, Nat.add_comm 1]
  simp only [textBefore?, getElem?_lines, if_pos hleft, List.take_left, terminated_take_lines]

/-! ## The order of places -/

namespace Place

/-- **A place comes before another**: on a line above it, or to the left on the same line. -/
def Precedes (p q : Place) : Prop := p.line < q.line ∨ p.line = q.line ∧ p.col < q.col

theorem Precedes.trans {p q r : Place} (hpq : p.Precedes q) (hqr : q.Precedes r) :
    p.Precedes r := by
  unfold Precedes at *
  omega

theorem not_precedes_self (p : Place) : ¬ p.Precedes p := by
  unfold Precedes
  omega

/-- Every character leads to a later place. -/
theorem precedes_after (p : Place) (c : Char) : p.Precedes (p.after c) := by
  by_cases hc : c = '\n'
  · rw [after, if_pos hc]
    exact .inl (Nat.lt_succ_self _)
  · rw [after, if_neg hc]
    exact .inr ⟨rfl, Nat.lt_succ_self _⟩

theorem precedes_foldl_after (p : Place) (c : Char) (cs : List Char) :
    p.Precedes ((c :: cs).foldl after p) := by
  induction cs generalizing p c with
  | nil => exact p.precedes_after c
  | cons d cs ih => exact (p.precedes_after c).trans (ih (p.after c) d)

end Place

theorem placeAt_precedes {cs : List Char} {m n : Nat} (hm : IsBoundary cs m)
    (hn : IsBoundary cs n) (h : m < n) : (placeAt cs m).Precedes (placeAt cs n) := by
  obtain ⟨before, rest, hcs, rfl⟩ := isBoundary_iff.mp hm
  obtain ⟨before', rest', hcs', rfl⟩ := isBoundary_iff.mp hn
  -- The earlier boundary cuts what stands before the later one.
  obtain ⟨mid, rfl, -⟩ := append_cancel_of_byteSize_le (hcs.symm.trans hcs') (Nat.le_of_lt h)
  rcases mid with _ | ⟨c, mid⟩
  · rw [List.append_nil] at h
    exact absurd h (Nat.lt_irrefl _)
  · have hplace : placeAt cs (byteSize before) = before.foldl Place.after Place.start := by
      rw [hcs, placeAt_eq_foldl]
    rw [hplace, hcs', placeAt_eq_foldl, List.foldl_append]
    exact Place.precedes_foldl_after _ c mid

theorem eq_of_placeAt_eq {cs : List Char} {m n : Nat} (hm : IsBoundary cs m)
    (hn : IsBoundary cs n) (h : placeAt cs m = placeAt cs n) : m = n := by
  rcases Nat.lt_trichotomy m n with hlt | heq | hgt
  · exact absurd (h ▸ placeAt_precedes hm hn hlt) (Place.not_precedes_self _)
  · exact heq
  · exact absurd (h ▸ placeAt_precedes hn hm hgt) (Place.not_precedes_self _)

/-! ## Positions that are no boundaries -/

/-- A position inside a character counts as the end of the character. -/
theorem placeAt_of_lt {before rest : List Char} {c : Char} {n : Nat} (hlt : byteSize before < n)
    (hle : n ≤ byteSize before + c.utf8Size) :
    placeAt (before ++ c :: rest) n = (before.foldl Place.after Place.start).after c := by
  obtain ⟨k, rfl⟩ := Nat.exists_eq_add_of_lt hlt
  have hover : k + 1 - c.utf8Size = 0 := by omega
  rw [placeAt, Nat.add_assoc, Place.advance_append, Place.advance, hover, Place.advance_zero]

/-- A position past the end counts as the end. -/
theorem placeAt_of_le {cs : List Char} {n : Nat} (h : byteSize cs ≤ n) :
    placeAt cs n = placeAt cs (byteSize cs) := by
  have hend : ∀ k, placeAt cs (byteSize cs + k) = cs.foldl Place.after Place.start := by
    intro k
    have hplace := Place.advance_append Place.start cs [] k
    rwa [List.append_nil] at hplace
  obtain ⟨k, rfl⟩ := Nat.exists_eq_add_of_le h
  rw [hend k, ← hend 0, Nat.add_zero]

/-- **Line and column identify a position.**  What stands before a boundary is found again from
its place by counting lines and characters, so that different boundaries have different places,
which come in the order of the boundaries.  A position inside a character has the place of the
next boundary, and one past the end has the place of the end. -/
theorem placeAt_identifies (cs : List Char) :
    (∀ n before, takeBytes? cs n = some before → textBefore? cs (placeAt cs n) = some before) ∧
    (∀ m n, IsBoundary cs m → IsBoundary cs n →
      (placeAt cs m = placeAt cs n → m = n) ∧
      (m < n → (placeAt cs m).Precedes (placeAt cs n))) ∧
    (∀ before c rest n, cs = before ++ c :: rest → byteSize before < n →
      n < byteSize before + c.utf8Size →
      placeAt cs n = placeAt cs (byteSize before + c.utf8Size)) ∧
    ∀ n, byteSize cs ≤ n → placeAt cs n = placeAt cs (byteSize cs) := by
  refine ⟨?_, fun m n hm hn => ⟨eq_of_placeAt_eq hm hn, placeAt_precedes hm hn⟩, ?_,
    fun n hn => placeAt_of_le hn⟩
  · intro n before h
    obtain ⟨rest, rfl, rfl⟩ := takeBytes?_eq_some_iff.mp h
    exact textBefore?_placeAt before rest
  · rintro before c rest n rfl hlt hstop
    rw [placeAt_of_lt hlt (Nat.le_of_lt hstop),
      placeAt_of_lt (Nat.lt_trans hlt hstop) (Nat.le_refl _)]

/-- Positions before and after the second of two line feeds, inside a letter of two bytes, and
far past the end. -/
theorem placeAt_identifies_accent :
    let cs := "aé\n\nb".toList
    takeBytes? cs 5 = some "aé\n\n".toList ∧ placeAt cs 5 = ⟨3, 1⟩ ∧
    textBefore? cs (placeAt cs 5) = some "aé\n\n".toList ∧
    IsBoundary cs 4 ∧ IsBoundary cs 5 ∧ (placeAt cs 4).Precedes (placeAt cs 5) ∧
    ¬ IsBoundary cs 2 ∧ placeAt cs 2 = placeAt cs 3 ∧ placeAt cs 100 = placeAt cs 6 := by
  intro cs
  obtain ⟨hfind, horder, hinside, hpast⟩ := placeAt_identifies cs
  have htake : takeBytes? cs 5 = some "aé\n\n".toList := by decide +kernel
  have h4 : IsBoundary cs 4 := by decide +kernel
  have h5 : IsBoundary cs 5 := by decide +kernel
  exact ⟨htake, by decide +kernel, hfind 5 _ htake, h4, h5, (horder 4 5 h4 h5).2 (by decide),
    by decide +kernel, hinside ['a'] 'é' "\n\nb".toList 2 rfl (by decide) (by decide),
    hpast 100 (by decide)⟩

/-! ## The line around a position -/

/-- The line around a boundary is the line that it falls into. -/
theorem exists_line_of_append (before rest : List Char) :
    ∃ above line, (placeAt (before ++ rest) (byteSize before)).line = above + 1 ∧
      (lines (before ++ rest))[above]? = some line ∧
      lineAround (before ++ rest) (byteSize before) = trim line := by
  refine ⟨_, _, ?_, getElem?_lines before rest, lineAround_append before rest⟩
  rw [placeAt_append]
  exact Nat.add_comm _ _

/-- **The line around a position is the line with the number of its place**, trimmed, for every
boundary and for every position past the end. -/
theorem lineAround_eq_trim_line {cs : List Char} {n : Nat}
    (h : IsBoundary cs n ∨ byteSize cs < n) :
    ∃ above line, (placeAt cs n).line = above + 1 ∧ (lines cs)[above]? = some line ∧
      lineAround cs n = trim line := by
  rcases h with h | h
  · obtain ⟨before, rest, rfl, rfl⟩ := isBoundary_iff.mp h
    exact exists_line_of_append before rest
  · have hclamp : lineAround cs n = lineAround cs (byteSize cs) := by
      rw [lineAround, lineAround, Nat.min_eq_right (Nat.le_of_lt h), Nat.min_self]
    have hend := exists_line_of_append cs []
    rw [List.append_nil] at hend
    rw [placeAt_of_le (Nat.le_of_lt h), hclamp]
    exact hend

/-- The end of a line that is followed by an empty line, the empty line itself, and the greatest
position of 64 bits, which lies past the end. -/
theorem lineAround_eq_trim_line_empty :
    let cs := "x = 1\n\xa0y é \r\n\n".toList
    (IsBoundary cs 14 ∧ (placeAt cs 14).line = 2 ∧ lineAround cs 14 = "y é".toList ∧
      ∃ above line, (placeAt cs 14).line = above + 1 ∧ (lines cs)[above]? = some line ∧
        lineAround cs 14 = trim line) ∧
    (IsBoundary cs 15 ∧ (placeAt cs 15).line = 3 ∧
      ∃ above line, (placeAt cs 15).line = above + 1 ∧ (lines cs)[above]? = some line ∧
        lineAround cs 15 = trim line) ∧
    byteSize cs < 18446744073709551615 ∧ (placeAt cs 18446744073709551615).line = 4 ∧
      ∃ above line, (placeAt cs 18446744073709551615).line = above + 1 ∧
        (lines cs)[above]? = some line ∧ lineAround cs 18446744073709551615 = trim line := by
  intro cs
  have h14 : IsBoundary cs 14 := by decide +kernel
  have h15 : IsBoundary cs 15 := by decide +kernel
  have hpast : byteSize cs < 18446744073709551615 := by decide +kernel
  exact ⟨⟨h14, by decide +kernel, by decide +kernel, lineAround_eq_trim_line (.inl h14)⟩,
    ⟨h15, by decide +kernel, lineAround_eq_trim_line (.inl h15)⟩,
    hpast, by decide +kernel, lineAround_eq_trim_line (.inr hpast)⟩

end ArithWat.Text
