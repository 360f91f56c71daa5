import ArithWat.Proofs.Outcome
import ArithWat.Tree.Grammar

/-!
# Where lexemes come from

The cut of a text goes on, after each piece, as the cut of what is left (`pieces_cons`).
A script without stray characters has the lexemes of its pieces (`lexemes_eq_ok_iff`),
and each of them is *genuine*: its span is a range of the script, its text is the text of
the span, and the text is one that its token can have (`genuine_of_lexemes`).
-/

namespace ArithWat

namespace Scan

/-! ## Runs -/

/-- The characters of a name: a start and further parts. -/
def isName : List Char → Bool
  | [] => false
  | c :: cs => isNameStart c && cs.all isNamePart

theorem take_runLength (p : Char → Bool) (cs : List Char) :
    cs.take (runLength p cs) = cs.takeWhile p := by
  have hsplit : cs = cs.takeWhile p ++ cs.dropWhile p := List.takeWhile_append_dropWhile.symm
  calc
    cs.take (runLength p cs)
      = (cs.takeWhile p ++ cs.dropWhile p).take (cs.takeWhile p).length := by rw [← hsplit]; rfl
    _ = cs.takeWhile p := List.take_left

/-- A run ends where a character follows that is not of the class. -/
theorem runLength_append {p : Char → Bool} {cs rest : List Char} (hcs : ∀ c ∈ cs, p c = true)
    (hrest : ∀ c ∈ rest.head?, p c = false) : runLength p (cs ++ rest) = cs.length := by
  have hstop : rest.takeWhile p = [] := by
    cases rest with
    | nil => rfl
    | cons c rest => simp [hrest c rfl]
  rw [runLength, List.takeWhile_append_of_pos hcs, hstop, List.append_nil]

end Scan

/-- What the text of a token looks like. -/
def Token.Spells : Token → List Char → Prop
  | .name, cs => Scan.isName cs = true
  | .number, cs => ∃ c rest, cs = c :: rest ∧ (c.isDigit = true ∨ c = '.')
  | .assign, cs => cs = ['=']
  | .plus, cs => cs = ['+']
  | .minus, cs => cs = ['-']
  | .star, cs => cs = ['*']
  | .slash, cs => cs = ['/']
  | .doubleSlash, cs => cs = ['/', '/']
  | .percent, cs => cs = ['%']
  | .openParen, cs => cs = ['(']
  | .closeParen, cs => cs = [')']
  | .comma, cs => cs = [',']
  | .semicolon, cs => cs = [';']
  | .newline, cs => cs = ['\n']

namespace Scan

theorem spells_of_symbol? {c : Char} {t : Token} (h : symbol? c = some t) : t.Spells [c] := by
  unfold symbol? at h
  split at h <;> cases h <;> rfl

/-- **The longest piece has a text of its token.** -/
theorem spells_of_munch {c : Char} {cs : List Char} {t : Token} {n : Nat}
    (h : munch c cs = (.token t, n)) : t.Spells (c :: cs.take n) := by
  unfold munch at h
  split at h
  · cases h
  split at h
  · cases h
  split at h
  · split at h <;> cases h
  split at h
  · rename_i hstart
    cases h
    rw [take_runLength]
    simp [Token.Spells, isName, hstart]
  split at h
  · rename_i hdigit
    cases h
    exact ⟨c, _, rfl, .inl hdigit⟩
  split at h
  · rename_i hpoint
    split at h
    · split at h
      · cases h
        exact ⟨c, _, rfl, .inr hpoint⟩
      · cases h
    · cases h
  split at h
  · rename_i hslash
    cases h
    simp only [Bool.and_eq_true, decide_eq_true_eq] at hslash
    obtain ⟨rfl, hhead⟩ := hslash
    cases cs with
    | nil => cases hhead
    | cons d ds =>
      cases hhead
      rfl
  · split at h
    · rename_i hsymbol
      cases h
      exact spells_of_symbol? hsymbol
    · cases h

/-! ## Names and numbers -/

theorem isSpace_eq_false {c : Char} (h : isNameStart c = true ∨ c.isDigit = true) :
    isSpace c = false := by
  cases hspace : isSpace c with
  | false => rfl
  | true =>
    simp only [isSpace, Bool.or_eq_true, decide_eq_true_eq] at hspace
    rcases hspace with ((rfl | rfl) | rfl) | rfl <;> revert h <;> decide

/-- The letters, by their code points. -/
theorem isAlpha_eq (c : Char) :
    c.isAlpha = (decide (c.val ≥ 'A'.val ∧ c.val ≤ 'Z'.val) ||
      (decide (c.val ≥ 'a'.val) && decide (c.val ≤ 'z'.val))) := rfl

theorem isNameStart_of_isDigit {c : Char} (h : c.isDigit = true) : isNameStart c = false := by
  simp only [isNameStart, Bool.or_eq_false_iff, decide_eq_false_iff_not]
  refine ⟨by grind [Char.isDigit, isAlpha_eq], ?_⟩
  rintro rfl
  revert h
  decide

theorem munch_of_isNameStart {c : Char} (h : isNameStart c = true) (cs : List Char) :
    munch c cs = (.token .name, runLength isNamePart cs) := by
  have hspace := isSpace_eq_false (.inl h)
  have hhash : c ≠ '#' := by rintro rfl; revert h; decide
  have hbackslash : c ≠ '\\' := by rintro rfl; revert h; decide
  simp [munch, h, hspace, hhash, hbackslash]

theorem munch_of_isDigit {c : Char} (h : c.isDigit = true) (cs : List Char) :
    munch c cs = (.token .number, numberLength c cs) := by
  have hspace := isSpace_eq_false (.inr h)
  have hstart := isNameStart_of_isDigit h
  have hhash : c ≠ '#' := by rintro rfl; revert h; decide
  have hbackslash : c ≠ '\\' := by rintro rfl; revert h; decide
  simp [munch, h, hspace, hstart, hhash, hbackslash]

/-! ## Pieces -/

theorem piecesAfter_eq (cs : List Char) (n : Nat) : piecesAfter cs n = pieces (cs.drop n) := by
  induction cs generalizing n with
  | nil => simp [pieces, piecesAfter]
  | cons c cs ih =>
    cases n with
    | zero => rfl
    | succ n => rw [piecesAfter, ih, List.drop_succ_cons]

/-- **The cut goes on after a piece as the cut of what is left.** -/
theorem pieces_cons (c : Char) (cs : List Char) :
    pieces (c :: cs) =
      ⟨(munch c cs).1, c, cs.take (munch c cs).2⟩ :: pieces (cs.drop (munch c cs).2) := by
  rw [← piecesAfter_eq]
  rfl

/-- Induction along the cut of a text. -/
theorem cut_induction {motive : List Char → Prop} (nil : motive [])
    (cons : ∀ c cs, motive (cs.drop (munch c cs).2) → motive (c :: cs)) (cs : List Char) :
    motive cs := by
  -- The texts that are met are suffixes, so the length of the text bounds the induction.
  have hbounded : ∀ n cs, List.length cs ≤ n → motive cs := by
    intro n
    induction n with
    | zero =>
      intro cs hcs
      rw [List.length_eq_zero_iff.mp (Nat.le_zero.mp hcs)]
      exact nil
    | succ n ih =>
      intro cs hcs
      cases cs with
      | nil => exact nil
      | cons c cs =>
        rw [List.length_cons] at hcs
        refine cons c cs (ih _ ?_)
        rw [List.length_drop]
        omega
  exact hbounded cs.length cs (Nat.le_refl _)

theorem spells_of_mem_pieces {source : List Char} {p : Piece} {t : Token}
    (hp : p ∈ pieces source) (ht : p.kind = .token t) : t.Spells p.text := by
  induction source using cut_induction with
  | nil => cases hp
  | cons c cs ih =>
    rw [pieces_cons] at hp
    rcases List.mem_cons.mp hp with rfl | hp
    · exact spells_of_munch (Prod.ext ht rfl)
    · exact ih hp

/-! ## Lexemes -/

/-- The lexemes among pieces of which the first begins at byte `offset`. -/
def lexemesFrom (offset : Nat) : List Piece → List Lexeme
  | [] => []
  | p :: ps =>
    let stop := offset + Text.byteSize p.text
    match p.kind with
    | .token t => ⟨t, String.ofList p.text, ⟨offset, stop⟩⟩ :: lexemesFrom stop ps
    | _ => lexemesFrom stop ps

/-- Pieces without a stray character give their lexemes. -/
theorem mapM_check_eq_ok_iff {source : List Char} {offset : Nat} {ps : List Piece}
    {ls : List Lexeme} :
    (itemsFrom offset ps).mapM (Item.check source) = .ok ls ↔
      (∀ p ∈ ps, p.kind ≠ .stray) ∧ lexemesFrom offset ps = ls := by
  induction ps generalizing offset ls with
  | nil => simp [itemsFrom, lexemesFrom, pure, Except.pure]
  | cons p ps ih =>
    obtain ⟨kind, first, rest⟩ := p
    cases kind with
    | token t =>
      simp only [itemsFrom, List.mapM_cons, Item.check, Except.ok_bind, Except.bind_eq_ok_iff, ih,
        lexemesFrom, List.forall_mem_cons]
      constructor
      · rintro ⟨ls', ⟨hps, rfl⟩, hls⟩
        exact ⟨⟨by simp, hps⟩, Except.ok.inj hls⟩
      · rintro ⟨⟨-, hps⟩, rfl⟩
        exact ⟨_, ⟨hps, rfl⟩, rfl⟩
    | layout => simp [itemsFrom, lexemesFrom, ih]
    | stray => simp [itemsFrom, Item.check]

/-- **A script without stray characters has the lexemes of its pieces.** -/
theorem lexemes_eq_ok_iff {source : List Char} {ls : List Lexeme} :
    lexemes source = .ok ls ↔
      (∀ p ∈ pieces source, p.kind ≠ .stray) ∧ lexemesFrom 0 (pieces source) = ls :=
  mapM_check_eq_ok_iff

end Scan

/-- **A lexeme is genuine** if it stands in the script and its token can have its text. -/
structure Lexeme.Genuine (source : List Char) (l : Lexeme) : Prop where
  text_eq : l.span.text source = l.text
  stop_le : l.span.stop ≤ Text.byteSize source
  spells : l.token.Spells l.text.toList

namespace Scan

theorem genuine_of_mem_lexemesFrom {source : List Char} {ps : List Piece} (before : List Char)
    (hsource : source = before ++ (ps.map Piece.text).flatten)
    (hspells : ∀ p ∈ ps, ∀ t, p.kind = .token t → t.Spells p.text) :
    ∀ l ∈ lexemesFrom (Text.byteSize before) ps, l.Genuine source := by
  induction ps generalizing before with
  | nil => exact List.forall_mem_nil _
  | cons p ps ih =>
    rw [List.forall_mem_cons] at hspells
    rw [List.map_cons, List.flatten_cons, ← List.append_assoc] at hsource
    have hmore := ih _ hsource hspells.2
    rw [Text.byteSize_append] at hmore
    have hslice : Text.slice? source (Text.byteSize before)
        (Text.byteSize before + Text.byteSize p.text) = some p.text :=
      Text.slice?_eq_some_iff.mpr ⟨before, _, hsource, rfl, rfl⟩
    have hstop : Text.byteSize before + Text.byteSize p.text ≤ Text.byteSize source := by
      rw [hsource, Text.byteSize_append, Text.byteSize_append]
      exact Nat.le_add_right _ _
    unfold lexemesFrom
    split
    · rename_i t hkind
      refine List.forall_mem_cons.mpr ⟨⟨?_, hstop, ?_⟩, hmore⟩
      · rw [Span.text, hslice, Option.getD_some]
      · rw [String.toList_ofList]
        exact hspells.1 t hkind
    · exact hmore

/-- **The lexemes of a script are genuine.** -/
theorem genuine_of_lexemes {source : List Char} {ls : List Lexeme}
    (h : lexemes source = .ok ls) : ∀ l ∈ ls, l.Genuine source := by
  obtain ⟨-, rfl⟩ := lexemes_eq_ok_iff.mp h
  refine genuine_of_mem_lexemesFrom [] (flatten_pieces source).symm ?_
  exact fun p hp t ht => spells_of_mem_pieces hp ht

end Scan

/-- The significant lexemes are among the lexemes. -/
theorem Lexeme.significant_sublist (depth : Nat) (ls : List Lexeme) :
    (significant depth ls).Sublist ls := by
  fun_induction significant depth ls with
  | case1 => exact .slnil
  | case2 depth l ls h ih => exact ih.cons_cons l
  | case3 depth l ls h ih => exact ih.cons_cons l
  | case4 l ls h ih => exact ih.cons_cons l
  | case5 depth l ls h hdepth ih => exact ih.cons l
  | case6 depth l ls h₁ h₂ h₃ ih => exact ih.cons_cons l

theorem Scan.genuine_of_significant {source : List Char} {ls : List Lexeme}
    (h : lexemes source = .ok ls) : ∀ l ∈ Lexeme.significant 0 ls, l.Genuine source :=
  fun l hl => genuine_of_lexemes h l ((Lexeme.significant_sublist 0 ls).subset hl)

end ArithWat
