import ArithWat.Proofs.Expressible

/-!
# Printing programs

A program as a script, without parentheses around expressions: numbers in decimal with a
minus sign if they are negative, blanks around operators and after the comma between two
arguments, and one statement on each line.

The text is scanned as what it was put together from: a program has a *spelling*, the
tokens of its script with their texts (`Program.spelling`), and the lexemes of the script
are those (`Program.exists_lexemes`).  A word ends where a character follows that could not
belong to it, so each step of the proof says what the next character is not (`Breaks`).
-/

namespace ArithWat

/-! ## The printed text -/

/-- The character of an operator. -/
def ArithOp.symbol : ArithOp → Char
  | add => '+'
  | sub => '-'
  | mul => '*'

/-- An integer in decimal. -/
def numeral (v : Int) : List Char :=
  if v < 0 then '-' :: Nat.toDigits 10 v.natAbs else Nat.toDigits 10 v.natAbs

/-- **The text of an expression.** -/
def Expr.written : Expr → List Char
  | num v => numeral v
  | ref name _ => name.toList
  | binary op l r => l.written ++ [' ', op.symbol, ' '] ++ r.written
  | call1 f a => f.name.toList ++ ['('] ++ a.written ++ [')']
  | call2 f a b => f.name.toList ++ ['('] ++ a.written ++ [',', ' '] ++ b.written ++ [')']

/-- The text of a statement. -/
def Stmt.written : Stmt → List Char
  | define name value => name.toList ++ [' ', '=', ' '] ++ value.written
  | expr value => value.written

/-- **The text of a program**: each statement on a line of its own. -/
def Program.written (p : Program) : List Char := p.flatMap fun s => s.written ++ ['\n']

/-! ## Spellings -/

/-- A token with its text, wherever it stands. -/
abbrev Spelling := Token × List Char

/-- The token of a lexeme with its text. -/
def Lexeme.spelling (l : Lexeme) : Spelling := (l.token, l.text.toList)

/-- The token of an operator. -/
def ArithOp.token : ArithOp → Token
  | add => .plus
  | sub => .minus
  | mul => .star

/-- The tokens of an expression. -/
def Expr.spelling : Expr → List Spelling
  | num v =>
    if v < 0 then [(.minus, ['-']), (.number, Nat.toDigits 10 v.natAbs)]
    else [(.number, Nat.toDigits 10 v.natAbs)]
  | ref name _ => [(.name, name.toList)]
  | binary op l r => l.spelling ++ (op.token, [op.symbol]) :: r.spelling
  | call1 f a =>
    (.name, f.name.toList) :: (.openParen, ['(']) :: (a.spelling ++ [(.closeParen, [')'])])
  | call2 f a b =>
    (.name, f.name.toList) :: (.openParen, ['(']) ::
      (a.spelling ++ (.comma, [',']) :: (b.spelling ++ [(.closeParen, [')'])]))

/-- The tokens of a statement. -/
def Stmt.spelling : Stmt → List Spelling
  | define name value => (.name, name.toList) :: (.assign, ['=']) :: value.spelling
  | expr value => value.spelling

/-- **The tokens of a program**, with a line feed after each statement. -/
def Program.spelling (p : Program) : List Spelling :=
  p.flatMap fun s => s.spelling ++ [(.newline, ['\n'])]

/-! ## Scanning -/

namespace Scan

/-- The token of a piece with its text. -/
def Piece.spelling? (p : Piece) : Option Spelling :=
  match p.kind with
  | .token t => some (t, p.text)
  | _ => none

/-- A text is scanned as these tokens, with layout between them and nothing stray. -/
def Yields (cs : List Char) (ws : List Spelling) : Prop :=
  (∀ p ∈ pieces cs, p.kind ≠ .stray) ∧ (pieces cs).filterMap Piece.spelling? = ws

theorem map_spelling_lexemesFrom (offset : Nat) (ps : List Piece) :
    (lexemesFrom offset ps).map Lexeme.spelling = ps.filterMap Piece.spelling? := by
  induction ps generalizing offset with
  | nil => rfl
  | cons p ps ih =>
    obtain ⟨kind, first, rest⟩ := p
    cases kind with
    | token t => simp [lexemesFrom, Piece.spelling?, Lexeme.spelling, ih]
    | layout => exact ih _
    | stray => exact ih _

/-- The lexemes of a text that is scanned as some tokens are these tokens. -/
theorem Yields.exists_lexemes {cs : List Char} {ws : List Spelling} (h : Yields cs ws) :
    ∃ ls, lexemes cs = .ok ls ∧ ls.map Lexeme.spelling = ws :=
  ⟨_, lexemes_eq_ok_iff.mpr ⟨h.1, rfl⟩, (map_spelling_lexemesFrom 0 _).trans h.2⟩

theorem yields_nil : Yields [] [] := ⟨nofun, rfl⟩

theorem pieces_cons_append {c : Char} {cs rest : List Char} {kind : PieceKind}
    (h : munch c (cs ++ rest) = (kind, cs.length)) :
    pieces (c :: (cs ++ rest)) = ⟨kind, c, cs⟩ :: pieces rest := by
  rw [pieces_cons, h]
  simp

/-- A token in front. -/
theorem Yields.token {c : Char} {cs rest : List Char} {t : Token} {ws : List Spelling}
    (hrest : Yields rest ws) (h : munch c (cs ++ rest) = (.token t, cs.length)) :
    Yields (c :: (cs ++ rest)) ((t, c :: cs) :: ws) := by
  rw [Yields, pieces_cons_append h, List.forall_mem_cons, ← hrest.2]
  exact ⟨⟨by simp, hrest.1⟩, rfl⟩

/-- A blank in front. -/
theorem Yields.space {rest : List Char} {ws : List Spelling} (hrest : Yields rest ws)
    (h : ∀ c ∈ rest.head?, isSpace c = false) : Yields (' ' :: rest) ws := by
  have hrun : runLength isSpace ([] ++ rest) = 0 := runLength_append (List.forall_mem_nil _) h
  have hmunch : munch ' ' ([] ++ rest) = (.layout, 0) := by
    change (PieceKind.layout, runLength isSpace ([] ++ rest)) = _
    rw [hrun]
  have hpieces : pieces (' ' :: rest) = ⟨.layout, ' ', []⟩ :: pieces rest :=
    pieces_cons_append hmunch
  rw [Yields, hpieces, List.forall_mem_cons, ← hrest.2]
  exact ⟨⟨by simp, hrest.1⟩, rfl⟩

/-- A text that begins with no character of a name or a number. -/
def Breaks (cs : List Char) : Prop := ∀ c ∈ cs.head?, isNamePart c = false ∧ c ≠ '.'

/-- No class of characters of names goes on. -/
theorem Breaks.head {cs : List Char} (h : Breaks cs) {p : Char → Bool}
    (hp : ∀ c, p c = true → isNamePart c = true) : ∀ c ∈ cs.head?, p c = false := by
  intro c hc
  cases hpc : p c with
  | false => rfl
  | true => exact absurd (hp c hpc) (by simp [(h c hc).1])

theorem munch_name {c : Char} {cs rest : List Char} (hname : isName (c :: cs) = true)
    (hrest : Breaks rest) : munch c (cs ++ rest) = (.token .name, cs.length) := by
  simp only [isName, Bool.and_eq_true, List.all_eq_true] at hname
  rw [munch_of_isNameStart hname.1, runLength_append hname.2 fun d hd => (hrest d hd).1]

theorem isNamePart_of_isDigitPart (c : Char) (h : isDigitPart c = true) :
    isNamePart c = true := by
  simp only [isDigitPart, isNamePart, Char.isAlphanum, Bool.or_eq_true] at h ⊢
  rcases h with h | h
  · exact .inl (.inr h)
  · exact .inr h

theorem isNamePart_of_isRadixMark (c : Char) (h : isRadixMark c = true) :
    isNamePart c = true := by
  simp only [isRadixMark, Bool.or_eq_true, decide_eq_true_eq] at h
  rcases h with ((((rfl | rfl) | rfl) | rfl) | rfl) | rfl <;> decide

theorem isNamePart_of_isExponentMark (c : Char) (h : isExponentMark c = true) :
    isNamePart c = true := by
  simp only [isExponentMark, Bool.or_eq_true, decide_eq_true_eq] at h
  rcases h with rfl | rfl <;> decide

theorem isRadixMark_of_isDigit {c : Char} (h : c.isDigit = true) : isRadixMark c = false := by
  cases hmark : isRadixMark c with
  | false => rfl
  | true =>
    simp only [isRadixMark, Bool.or_eq_true, decide_eq_true_eq] at hmark
    rcases hmark with ((((rfl | rfl) | rfl) | rfl) | rfl) | rfl <;> revert h <;> decide

theorem Breaks.fractionLength_eq {cs : List Char} (h : Breaks cs) : fractionLength cs = 0 := by
  unfold fractionLength
  split
  · exact absurd rfl (h '.' rfl).2
  · rfl

theorem Breaks.exponentLength_eq {cs : List Char} (h : Breaks cs) : exponentLength cs = 0 := by
  cases cs with
  | nil => rfl
  | cons c cs => simp [exponentLength, h.head isNamePart_of_isExponentMark c rfl]

/-- **A run of digits is a number**, up to a character that cannot go on with it. -/
theorem munch_digits {d : Char} {ds rest : List Char} (hd : d.isDigit = true)
    (hds : ∀ c ∈ ds, c.isDigit = true) (hrest : Breaks rest) :
    munch d (ds ++ rest) = (.token .number, ds.length) := by
  have hwhole : runLength isDigitPart (ds ++ rest) = ds.length :=
    runLength_append (fun c hc => by simp [isDigitPart, hds c hc])
      (hrest.head isNamePart_of_isDigitPart)
  have hdecimal : decimalLength (ds ++ rest) = ds.length := by
    simp [decimalLength, hwhole, hrest.fractionLength_eq, hrest.exponentLength_eq]
  have hnumber : numberLength d (ds ++ rest) = ds.length := by
    cases ds with
    | nil =>
      cases rest with
      | nil => rfl
      | cons c rest => simpa [numberLength, hrest.head isNamePart_of_isRadixMark c rfl] using hdecimal
    | cons c ds =>
      have hc := isRadixMark_of_isDigit (hds c List.mem_cons_self)
      simpa [numberLength, hc] using hdecimal
  rw [munch_of_isDigit hd, hnumber]

theorem breaks_cons {c : Char} (h : isNamePart c = false ∧ c ≠ '.') (cs : List Char) :
    Breaks (c :: cs) := by
  intro d hd
  cases hd
  exact h

/-- A name in front. -/
theorem Yields.name {cs rest : List Char} {ws : List Spelling} (hrest : Yields rest ws)
    (hname : isName cs = true) (hbreaks : Breaks rest) :
    Yields (cs ++ rest) ((.name, cs) :: ws) := by
  cases cs with
  | nil => cases hname
  | cons c cs => exact hrest.token (munch_name hname hbreaks)

/-- The digits of a number in front. -/
theorem Yields.digits {rest : List Char} {ws : List Spelling} (hrest : Yields rest ws) (n : Nat)
    (hbreaks : Breaks rest) :
    Yields (Nat.toDigits 10 n ++ rest) ((.number, Nat.toDigits 10 n) :: ws) := by
  obtain ⟨d, ds, hcons, hd, hds⟩ := Decimal.exists_toDigits_eq_cons n
  rw [hcons]
  exact hrest.token (munch_digits hd hds hbreaks)

/-- A token of one fixed character in front. -/
theorem Yields.symbol {c : Char} {rest : List Char} {t : Token} {ws : List Spelling}
    (hrest : Yields rest ws) (h : munch c rest = (.token t, 0)) :
    Yields (c :: rest) ((t, [c]) :: ws) := by
  have hmunch : munch c ([] ++ rest) = (.token t, 0) := h
  exact hrest.token hmunch

end Scan

open Scan

/-- The characters that a printed expression can begin with. -/
def opensExpr (c : Char) : Bool := isNameStart c || c.isDigit || c = '-'

theorem isSpace_of_opensExpr {c : Char} (h : opensExpr c = true) : isSpace c = false := by
  simp only [opensExpr, Bool.or_eq_true, decide_eq_true_eq] at h
  rcases h with h | rfl
  · exact isSpace_eq_false h
  · decide

theorem exists_numeral_eq_cons (v : Int) : ∃ c cs, numeral v = c :: cs ∧ opensExpr c = true := by
  unfold numeral
  split
  · exact ⟨'-', _, rfl, by decide⟩
  · obtain ⟨d, ds, hcons, hd, -⟩ := Decimal.exists_toDigits_eq_cons v.natAbs
    exact ⟨d, ds, hcons, by simp [opensExpr, hd]⟩

theorem exists_eq_cons_of_isName {cs : List Char} (h : isName cs = true) :
    ∃ c cs', cs = c :: cs' ∧ opensExpr c = true := by
  cases cs with
  | nil => cases h
  | cons c cs =>
    simp only [isName, Bool.and_eq_true] at h
    exact ⟨c, cs, rfl, by simp [opensExpr, h.1]⟩

theorem UnaryBuiltin.isName_name (f : UnaryBuiltin) : isName f.name.toList = true := by
  cases f <;> decide

theorem BinaryBuiltin.isName_name (f : BinaryBuiltin) : isName f.name.toList = true := by
  cases f <;> decide

/-- A printed expression begins with a digit, a minus sign or a name. -/
theorem Expr.exists_written_eq_cons {e : Expr} (he : e.IsPlain) :
    ∃ c cs, e.written = c :: cs ∧ opensExpr c = true := by
  induction e with
  | num v => exact exists_numeral_eq_cons v
  | ref name span => exact exists_eq_cons_of_isName he
  | binary op l r ihl ihr =>
    obtain ⟨c, cs, hcs, hc⟩ := ihl he.1
    exact ⟨c, cs ++ [' ', op.symbol, ' '] ++ r.written, by simp [written, hcs], hc⟩
  | call1 f a =>
    obtain ⟨c, cs, hcs, hc⟩ := exists_eq_cons_of_isName f.isName_name
    exact ⟨c, _, by rw [written, hcs]; rfl, hc⟩
  | call2 f a b =>
    obtain ⟨c, cs, hcs, hc⟩ := exists_eq_cons_of_isName f.isName_name
    exact ⟨c, _, by rw [written, hcs]; rfl, hc⟩

/-- A blank before a printed expression is layout. -/
theorem Expr.yields_space {e : Expr} (he : e.IsPlain) {rest : List Char} {ws : List Spelling}
    (h : Yields (e.written ++ rest) ws) : Yields (' ' :: (e.written ++ rest)) ws := by
  obtain ⟨c, cs, hcs, hc⟩ := Expr.exists_written_eq_cons he
  rw [hcs] at h ⊢
  refine h.space fun d hd => ?_
  cases hd
  exact isSpace_of_opensExpr hc

theorem munch_opSymbol (op : ArithOp) (cs : List Char) :
    munch op.symbol cs = (.token op.token, 0) := by
  cases op <;> rfl

/-- **A printed expression is scanned as its tokens.** -/
theorem Expr.yields {e : Expr} (he : e.IsPlain) {rest : List Char} {ws : List Spelling}
    (hbreaks : Breaks rest) (hrest : Yields rest ws) :
    Yields (e.written ++ rest) (e.spelling ++ ws) := by
  induction e generalizing rest ws with
  | num v =>
    have hdigits := hrest.digits v.natAbs hbreaks
    unfold written numeral spelling
    split
    · exact hdigits.symbol rfl
    · exact hdigits
  | ref name span => exact hrest.name he hbreaks
  | binary op l r ihl ihr =>
    have hop : isSpace op.symbol = false := by cases op <;> decide
    have hright := Expr.yields_space he.2.1 (ihr he.2.1 hbreaks hrest)
    have hsymbol := (hright.symbol (munch_opSymbol op _)).space fun c hc => by cases hc; exact hop
    have hleft := ihl he.1 (breaks_cons (by decide) _) hsymbol
    simpa [written, spelling] using hleft
  | call1 f a iha =>
    have hclose : Yields (')' :: rest) ((.closeParen, [')']) :: ws) := hrest.symbol rfl
    have harg := iha he (breaks_cons (by decide) _) hclose
    have hopen : Yields ('(' :: _) ((.openParen, ['(']) :: _) := harg.symbol rfl
    have hname := hopen.name f.isName_name (breaks_cons (by decide) _)
    simpa [written, spelling] using hname
  | call2 f a b iha ihb =>
    have hclose : Yields (')' :: rest) ((.closeParen, [')']) :: ws) := hrest.symbol rfl
    have hsecond := Expr.yields_space he.2 (ihb he.2 (breaks_cons (by decide) _) hclose)
    have hcomma : Yields (',' :: _) ((.comma, [',']) :: _) := hsecond.symbol rfl
    have hfirst := iha he.1 (breaks_cons (by decide) _) hcomma
    have hopen : Yields ('(' :: _) ((.openParen, ['(']) :: _) := hfirst.symbol rfl
    have hname := hopen.name f.isName_name (breaks_cons (by decide) _)
    simpa [written, spelling] using hname

theorem Stmt.yields {s : Stmt} (hs : s.IsExpressible) {rest : List Char} {ws : List Spelling}
    (hbreaks : Breaks rest) (hrest : Yields rest ws) :
    Yields (s.written ++ rest) (s.spelling ++ ws) := by
  cases s with
  | define name value =>
    have hvalue := Expr.yields_space hs.2.1 (Expr.yields hs.2.1 hbreaks hrest)
    have hassign : Yields ('=' :: _) ((.assign, ['=']) :: _) := hvalue.symbol rfl
    have hspace := hassign.space fun c hc => by cases hc; decide
    have hname := hspace.name hs.1 (breaks_cons (by decide) _)
    simpa [written, spelling] using hname
  | expr value => exact Expr.yields hs.1 hbreaks hrest

/-- **A printed program is scanned as its tokens.** -/
theorem Program.yields {p : Program} (hp : p.IsExpressible) : Yields p.written p.spelling := by
  induction p with
  | nil => exact yields_nil
  | cons s p ih =>
    obtain ⟨hs, hp⟩ := List.forall_mem_cons.mp hp
    have hline : Yields ('\n' :: written p) ((.newline, ['\n']) :: spelling p) :=
      (ih hp).symbol rfl
    have hstmt := Stmt.yields hs (breaks_cons (by decide) _) hline
    simpa [written, spelling] using hstmt

/-! ## A printed program is not blank -/

theorem isBlank_of_opensExpr {c : Char} (h : opensExpr c = true) : Text.isBlank c = false := by
  have hrange : 45 ≤ c.toNat ∧ c.toNat ≤ 122 := by
    simp only [opensExpr, isNameStart, Bool.or_eq_true, decide_eq_true_eq] at h
    rcases h with ((h | rfl) | h) | rfl
    · grind [isAlpha_eq, Char.toNat, UInt32.le_iff_toNat_le]
    · decide
    · grind [Char.isDigit, Char.toNat, UInt32.le_iff_toNat_le]
    · decide
  simp only [Text.isBlank, Text.blankRanges, List.any_eq_false, List.forall_mem_cons,
    Bool.and_eq_true, decide_eq_true_eq]
  refine ⟨?_, ?_, ?_, ?_, ?_, ?_, ?_, ?_, ?_, ?_, List.forall_mem_nil _⟩ <;> omega

/-- The texts that are trimmed to nothing are those of blanks. -/
theorem Text.isEmpty_trim_iff {cs : List Char} :
    (trim cs).isEmpty = true ↔ ∀ c ∈ cs, isBlank c = true := by
  rw [List.isEmpty_iff, trim, trimEnd, List.reverse_eq_nil_iff, List.dropWhile_eq_nil_iff]
  simp only [List.mem_reverse]
  constructor
  · intro h c hc
    rw [← List.takeWhile_append_dropWhile (p := isBlank) (l := cs)] at hc
    exact (List.mem_append.mp hc).elim List.mem_takeWhile_imp (h c)
  · exact fun h c hc => h c ((List.dropWhile_sublist isBlank).subset hc)

theorem Program.isEmpty_trim_written {s : Stmt} {p : Program} (hs : s.IsExpressible) :
    (Text.trim (written (s :: p))).isEmpty = false := by
  have hstmt : ∃ c cs, s.written = c :: cs ∧ opensExpr c = true := by
    cases s with
    | define name value =>
      obtain ⟨c, cs, hcs, hc⟩ := exists_eq_cons_of_isName hs.1
      exact ⟨c, _, by rw [Stmt.written, hcs]; rfl, hc⟩
    | expr value => exact Expr.exists_written_eq_cons hs.1
  obtain ⟨c, cs, hcs, hc⟩ := hstmt
  refine eq_false_of_ne_true fun hempty => ?_
  have hblank := Text.isEmpty_trim_iff.mp hempty c (by simp [written, hcs])
  rw [isBlank_of_opensExpr hc] at hblank
  cases hblank

end ArithWat
