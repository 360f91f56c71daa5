import ArithWat.Proofs.Positions
import ArithWat.Proofs.Scanning
import ArithWat.Proofs.Spans

/-!
# The scan restarts at a line feed

No piece other than a line continuation reaches over a line feed, and a line continuation
that lacks its line feed is a stray character.  So a text without stray characters is cut
in the same way when a line feed and more text follow (`pieces_append_newline`), and the
scan of the rest is the scan of a text of its own, moved along (`lexemes_append_newline`).
-/

namespace ArithWat

namespace Scan
open Text

/-! ## How far a piece reaches -/

theorem runLength_le (p : Char → Bool) (cs : List Char) : runLength p cs ≤ cs.length :=
  (List.takeWhile_sublist p).length_le

theorem fractionLength_le (cs : List Char) : fractionLength cs ≤ cs.length := by
  fun_cases fractionLength cs with
  | case1 cs =>
    have := runLength_le isDigitPart cs
    rw [List.length_cons]
    omega
  | case2 => exact Nat.zero_le _

theorem exponentLength_le (cs : List Char) : exponentLength cs ≤ cs.length := by
  fun_cases exponentLength cs with
  | case1 => exact Nat.zero_le _
  | case2 m hm => exact Nat.le_refl _
  | case3 m hm s ds hs =>
    have := runLength_le isDigitPart ds
    simp only [List.length_cons]
    omega
  | case4 m hm s ds hs =>
    have := runLength_le isDigitPart (s :: ds)
    rw [List.length_cons]
    omega
  | case5 m cs hm => exact Nat.zero_le _

theorem fraction_le (cs : List Char) :
    runLength isDigitPart cs + fractionLength (cs.drop (runLength isDigitPart cs)) ≤
      cs.length := by
  have hrun := runLength_le isDigitPart cs
  have hfraction := fractionLength_le (cs.drop (runLength isDigitPart cs))
  rw [List.length_drop] at hfraction
  omega

theorem decimalLength_le (cs : List Char) : decimalLength cs ≤ cs.length := by
  have hfraction := fraction_le cs
  have hexponent := exponentLength_le (cs.drop
    (runLength isDigitPart cs + fractionLength (cs.drop (runLength isDigitPart cs))))
  rw [List.length_drop] at hexponent
  simp only [decimalLength]
  omega

theorem pointLength_le (cs : List Char) : pointLength cs ≤ cs.length := by
  have hrun := runLength_le isDigitPart cs
  have hexponent := exponentLength_le (cs.drop (runLength isDigitPart cs))
  rw [List.length_drop] at hexponent
  simp only [pointLength]
  omega

theorem numberLength_le (d : Char) (cs : List Char) : numberLength d cs ≤ cs.length := by
  fun_cases numberLength d cs with
  | case1 m ds hmark =>
    have := runLength_le isRadixPart ds
    rw [List.length_cons]
    omega
  | case2 m ds hmark => exact decimalLength_le (m :: ds)
  | case3 => exact Nat.zero_le _

/-- A piece ends within the text. -/
theorem munch_le (c : Char) (cs : List Char) : (munch c cs).2 ≤ cs.length := by
  unfold munch
  split
  · exact runLength_le _ _
  split
  · exact runLength_le _ _
  split
  · split
    · exact Nat.succ_le_succ (Nat.zero_le _)
    · exact Nat.succ_le_succ (Nat.succ_le_succ (Nat.zero_le _))
    · exact Nat.zero_le _
  split
  · exact runLength_le _ _
  split
  · exact numberLength_le _ _
  split
  · split
    · rename_i d ds
      split
      · have := pointLength_le ds
        simp only [List.length_cons]
        omega
      · exact Nat.zero_le _
    · exact Nat.zero_le _
  split
  · rename_i hslash
    simp only [Bool.and_eq_true] at hslash
    cases cs with
    | nil => cases of_decide_eq_true hslash.2
    | cons d ds => exact Nat.succ_le_succ (Nat.zero_le _)
  · split <;> exact Nat.zero_le _

/-! ## No piece reaches over a line feed

For a class that has no line feeds a run ends before one, and all else follows. -/

/-- A run ends before a character that is not of the class. -/
theorem runLength_append_cons {p : Char → Bool} {c : Char} (hc : p c = false)
    (cs rest : List Char) : runLength p (cs ++ c :: rest) = runLength p cs := by
  have hstop : (c :: rest).takeWhile p = [] := List.takeWhile_cons_of_neg (by simp [hc])
  rw [runLength, List.takeWhile_append, hstop, List.append_nil]
  split
  · rename_i hlength
    exact hlength.symm
  · rfl

theorem runLength_newline {p : Char → Bool} (hp : p '\n' = false) (cs rest : List Char) :
    runLength p (cs ++ '\n' :: rest) = runLength p cs :=
  runLength_append_cons hp cs rest

theorem fractionLength_newline (cs rest : List Char) :
    fractionLength (cs ++ '\n' :: rest) = fractionLength cs := by
  fun_cases fractionLength cs with
  | case1 cs => rw [List.cons_append, fractionLength, runLength_newline rfl]
  | case2 cs hcs =>
    cases cs with
    | nil => rfl
    | cons c cs =>
      rw [List.cons_append, fractionLength]
      rintro cs' h
      exact hcs cs (by rw [(List.cons.inj h).1])

theorem exponentLength_newline (cs rest : List Char) :
    exponentLength (cs ++ '\n' :: rest) = exponentLength cs := by
  fun_cases exponentLength cs with
  | case1 => rfl
  | case2 m hm => simp [exponentLength, hm, isSign, runLength, isDigitPart]
  | case3 m hm s ds hs =>
    have hrun := runLength_newline (p := isDigitPart) rfl ds rest
    simp [exponentLength, hm, hs, hrun]
  | case4 m hm s ds hs =>
    have hrun := runLength_newline (p := isDigitPart) rfl (s :: ds) rest
    rw [List.cons_append] at hrun
    simp [exponentLength, hm, hs, hrun]
  | case5 m cs hm => simp [exponentLength, hm]

theorem decimalLength_newline (cs rest : List Char) :
    decimalLength (cs ++ '\n' :: rest) = decimalLength cs := by
  simp only [decimalLength, runLength_newline (p := isDigitPart) rfl]
  rw [List.drop_append_of_le_length (runLength_le _ _), fractionLength_newline,
    List.drop_append_of_le_length (fraction_le cs), exponentLength_newline]

theorem pointLength_newline (cs rest : List Char) :
    pointLength (cs ++ '\n' :: rest) = pointLength cs := by
  simp only [pointLength, runLength_newline (p := isDigitPart) rfl]
  rw [List.drop_append_of_le_length (runLength_le _ _), exponentLength_newline]

theorem numberLength_newline (d : Char) (cs rest : List Char) :
    numberLength d (cs ++ '\n' :: rest) = numberLength d cs := by
  cases cs with
  | nil =>
    have hmark : isRadixMark '\n' = false := rfl
    rw [List.nil_append, numberLength, hmark, Bool.and_false]
    exact decimalLength_newline [] rest
  | cons m ds =>
    rw [List.cons_append, numberLength, numberLength, runLength_newline rfl,
      ← List.cons_append, decimalLength_newline]

/-- **A piece that is not stray does not depend on what follows a line feed.** -/
theorem munch_newline {c : Char} {cs : List Char} (h : (munch c cs).1 ≠ .stray)
    (rest : List Char) : munch c (cs ++ '\n' :: rest) = munch c cs := by
  unfold munch at h ⊢
  split
  · rw [runLength_newline rfl]
  split
  · rw [runLength_newline rfl]
  split
  · -- A line continuation has its line feed already, or it is stray.
    rename_i hspace hhash hbackslash
    rw [if_neg hspace, if_neg hhash, if_pos hbackslash] at h
    split at h
    · rfl
    · rfl
    · exact absurd rfl h
  split
  · rw [runLength_newline rfl]
  split
  · rw [numberLength_newline]
  split
  · rename_i hspace hhash hbackslash hstart hdigit hpoint
    rw [if_neg hspace, if_neg hhash, if_neg hbackslash, if_neg hstart, if_neg hdigit,
      if_pos hpoint] at h
    cases cs with
    | nil => exact absurd rfl h
    | cons d ds => simp only [List.cons_append, pointLength_newline]
  · -- A slash before the line feed is not doubled by it.
    have hhead : (cs ++ '\n' :: rest).head? = some '/' ↔ cs.head? = some '/' := by
      cases cs with
      | nil => simp
      | cons d ds => simp
    simp only [hhead]

/-! ## Pieces -/

/-- **A text is cut in the same way when more follows**, if this is so for its first piece and
what is left after that piece is such a text again. -/
theorem pieces_append {P : List Char → Prop} {rest : List Char}
    (hstep : ∀ c cs, P (c :: cs) →
      munch c (cs ++ rest) = munch c cs ∧ P (cs.drop (munch c cs).2))
    {cs : List Char} (h : P cs) : pieces (cs ++ rest) = pieces cs ++ pieces rest := by
  induction cs using cut_induction with
  | nil => rfl
  | cons c cs ih =>
    obtain ⟨hmunch, hleft⟩ := hstep c cs h
    have hle := munch_le c cs
    rw [List.cons_append, pieces_cons, pieces_cons, hmunch, List.take_append_of_le_length hle,
      List.drop_append_of_le_length hle, ih hleft, List.cons_append]

/-- **The cut restarts at a line feed.** -/
theorem pieces_append_newline {cs : List Char} (h : ∀ p ∈ pieces cs, p.kind ≠ .stray)
    (rest : List Char) :
    pieces (cs ++ '\n' :: rest) = pieces cs ++ ⟨.token .newline, '\n', []⟩ :: pieces rest := by
  refine pieces_append (P := fun cs => ∀ p ∈ pieces cs, p.kind ≠ .stray) (fun c cs h => ?_) h
  rw [pieces_cons, List.forall_mem_cons] at h
  exact ⟨munch_newline h.1 rest, h.2⟩

/-! ## Lexemes -/

theorem itemsFrom_append (offset : Nat) (ps qs : List Piece) :
    itemsFrom offset (ps ++ qs) =
      itemsFrom offset ps ++ itemsFrom (offset + byteSize (ps.map Piece.text).flatten) qs := by
  induction ps generalizing offset with
  | nil => rfl
  | cons p ps ih =>
    rw [List.map_cons, List.flatten_cons, byteSize_append, ← Nat.add_assoc]
    rw [List.cons_append, itemsFrom, itemsFrom, ih]
    cases p.kind <;> rfl

/-- Pieces that stand after lines give the items that they give by themselves, moved along. -/
theorem mapM_check_append (cs before : List Char) (ps : List Piece) :
    (itemsFrom (byteSize (cs ++ ['\n']) + byteSize before) ps).mapM
        (Item.check ((cs ++ ['\n']) ++ (before ++ (ps.map Piece.text).flatten))) =
      ((itemsFrom (byteSize before) ps).mapM
          (Item.check (before ++ (ps.map Piece.text).flatten))).bimap
        (·.shift (byteSize (cs ++ ['\n'])) (cs.count '\n' + 1))
        (List.map (Lexeme.mapSpan (Span.shift (byteSize (cs ++ ['\n']))))) := by
  induction ps generalizing before with
  | nil => rfl
  | cons p ps ih =>
    have hmore := ih (before ++ p.text)
    obtain ⟨kind, first, rest⟩ := p
    rw [byteSize_append before, ← Nat.add_assoc, List.append_assoc before, ← List.flatten_cons,
      ← List.map_cons] at hmore
    cases kind with
    | token t =>
      have hspan : ∀ start size, Span.mk (byteSize (cs ++ ['\n']) + start)
          (byteSize (cs ++ ['\n']) + start + size) =
            Span.shift (byteSize (cs ++ ['\n'])) ⟨start, start + size⟩ := by
        intro start size
        simp only [Span.shift, Span.mk.injEq]
        omega
      rw [itemsFrom, itemsFrom, List.mapM_cons, List.mapM_cons, hmore, hspan]
      exact Except.bimap_bind fun rs => rfl
    | layout => exact hmore
    | stray =>
      rw [itemsFrom, itemsFrom, List.mapM_cons, List.mapM_cons, Item.check,
        LexicalError.report_append]
      rfl

/-- The line feed after a text. -/
def newlineAfter (cs : List Char) : Lexeme :=
  ⟨.newline, "\n", ⟨byteSize cs, byteSize (cs ++ ['\n'])⟩⟩

/-- **What is scanned after lines is scanned as a text of its own**, and its lexemes or its
error are moved along. -/
theorem lexemes_append_newline {cs : List Char} {ls : List Lexeme} (h : lexemes cs = .ok ls)
    (rest : List Char) :
    lexemes ((cs ++ ['\n']) ++ rest) =
      (lexemes rest).bimap (·.shift (byteSize (cs ++ ['\n'])) (cs.count '\n' + 1)) fun rs =>
        ls ++ newlineAfter cs :: rs.map (·.mapSpan (Span.shift (byteSize (cs ++ ['\n'])))) := by
  obtain ⟨hstray, -⟩ := lexemes_eq_ok_iff.mp h
  have hfirst : (scan cs).mapM (Item.check ((cs ++ ['\n']) ++ rest)) = .ok ls :=
    mapM_check_eq_ok_iff.mpr (lexemes_eq_ok_iff.mp h)
  have hrest : (itemsFrom (byteSize (cs ++ ['\n'])) (pieces rest)).mapM
      (Item.check ((cs ++ ['\n']) ++ rest)) =
        (lexemes rest).bimap (·.shift (byteSize (cs ++ ['\n'])) (cs.count '\n' + 1))
          (List.map (Lexeme.mapSpan (Span.shift (byteSize (cs ++ ['\n']))))) := by
    have hmove := mapM_check_append cs [] (pieces rest)
    rwa [flatten_pieces] at hmove
  have hscan : scan ((cs ++ ['\n']) ++ rest) = scan cs ++ .lexeme (newlineAfter cs) ::
        itemsFrom (byteSize (cs ++ ['\n'])) (pieces rest) := by
    rw [scan, List.append_assoc, List.singleton_append, pieces_append_newline hstray,
      itemsFrom_append, flatten_pieces, Nat.zero_add, itemsFrom, newlineAfter, byteSize_append]
    rfl
  rw [lexemes, hscan, List.mapM_append, hfirst, Except.ok_bind, List.mapM_cons, Item.check,
    Except.ok_bind, hrest]
  cases lexemes rest with
  | error e => rfl
  | ok rs => rfl

end Scan

end ArithWat
