import ArithWat.Proofs.Acceptance
import ArithWat.Proofs.Grammar.Balance
import ArithWat.Proofs.Grammar.Stopping
import ArithWat.Proofs.Layout
import ArithWat.Proofs.Numerals

/-!
# Scripts of one integer

A script that is an integer, with or without a sign, and of whatever length
(`Script.compile_integer`): in range, its code pushes that integer and drops it; out of
range, it is refused at the whole of its text, the sign included.

The digits go through binary64, which is exact for every integer in range and brings none
into range that is not (`Literal.read_integer`).  The sign is a lexeme of its own, so the
script is a number or a signed number; either way its tree spans the whole text and is read
as one literal (`Sign.exists_isOperand`).
-/

namespace ArithWat
open Grammar Reading

/-- **An integer is read exactly, or it is out of range.** -/
theorem Literal.read_integer (s : Sign) {ds : List Char} (hne : ds ≠ [])
    (hdigits : ∀ c ∈ ds, c.isDigit = true) :
    read (String.ofList (s.written ++ ds)) =
      if least ≤ s.apply (Nat.ofDigitChars 10 ds 0) ∧
          s.apply (Nat.ofDigitChars 10 ds 0) ≤ greatest then
        .ok (s.apply (Nat.ofDigitChars 10 ds 0))
      else .error (.literalOutOfRange (String.ofList (s.written ++ ds))) := by
  have hsplit : splitSign (String.ofList (s.written ++ ds)).toList = (s.negative, ds) := by
    have h := s.splitSign_written hne hdigits []
    rwa [List.append_nil, ← String.toList_ofList (l := s.written ++ ds)] at h
  by_cases hrange : least ≤ s.apply (Nat.ofDigitChars 10 ds 0) ∧
      s.apply (Nat.ofDigitChars 10 ds 0) ≤ greatest
  · rw [if_pos hrange]
    exact read_digits s.negative ds hsplit hne hdigits (s.apply_eq _) hrange
  · have hunsigned : unsigned? ds =
        some (Binary64.ofDecimal (.ofNat (Nat.ofDigitChars 10 ds 0))) := by
      rw [unsigned?, Decimal.read?_digits hne hdigits]
      dsimp only
      rw [List.takeWhile_eq_self_iff.mpr hdigits]
      exact if_pos rfl
    rw [if_neg hrange, read, hsplit]
    dsimp only
    rw [hunsigned]
    dsimp only
    split
    · -- An integer in range could only have come from itself.
      rename_i w hw
      refine if_neg fun hw' => hrange ?_
      rwa [← (toInt?_ofNat_iff hw').mp hw]
    · rfl

theorem Span.text_whole (source : List Char) :
    Span.text ⟨0, Text.byteSize source⟩ source = String.ofList source := by
  have hslice : Text.slice? source 0 (Text.byteSize source) = some source :=
    Text.slice?_eq_some_iff.mpr ⟨[], [], by simp, rfl, by simp⟩
  rw [text, hslice]
  rfl

/-! ## The tree of an integer -/

/-- What it takes for a tree to be read as one literal, the whole of the text. -/
structure IsLiteralOf (source : List Char) (t : Tree NodeKind) : Prop where
  height_le : t.height ≤ maxNesting
  span_eq : t.span = ⟨0, Text.byteSize source⟩
  reads : expr source t = literal t (String.ofList source)

theorem isLiteralOf_number {source : List Char} {l : Lexeme}
    (hspan : l.span = ⟨0, Text.byteSize source⟩) : IsLiteralOf source (leaf .number l) where
  height_le := by
    show 1 ≤ maxNesting
    decide
  span_eq := hspan
  reads := by
    change literal (leaf .number l) (l.span.text source) = _
    rw [hspan, Span.text_whole]

theorem isLiteralOf_signed {source : List Char} {sign l : Lexeme} (hsign : sign.Genuine source)
    (hl : l.Genuine source) (hadditive : sign.token.isAdditive = true)
    (hspan : sign.span.cover l.span = ⟨0, Text.byteSize source⟩)
    (htext : sign.text ++ l.text = String.ofList source) :
    IsLiteralOf source (.spanning .unaryExpression (leaf .arithOp sign) [leaf .number l]) where
  height_le := by
    show 2 ≤ maxNesting
    decide
  span_eq := hspan
  reads := by
    change (signedText source (leaf .arithOp sign) [leaf .number l] >>= literal _) = _
    rw [signedText_leaf hsign hadditive, if_pos (kind_leaf _ _), Except.ok_bind, hl.text_leaf,
      htext]

/-- The lexeme of some digits that begin at a byte. -/
def Lexeme.ofDigits (ds : List Char) (offset : Nat) : Lexeme :=
  ⟨.number, String.ofList ds, ⟨offset, offset + Text.byteSize ds⟩⟩

namespace Sign

/-- The lexemes of an integer. -/
def lexemes (ds : List Char) : Sign → List Lexeme
  | missing => [.ofDigits ds 0]
  | plus => [⟨.plus, "+", ⟨0, 1⟩⟩, .ofDigits ds 1]
  | minus => [⟨.minus, "-", ⟨0, 1⟩⟩, .ofDigits ds 1]

theorem lexemes_written (s : Sign) {ds : List Char} (hne : ds ≠ [])
    (hdigits : ∀ c ∈ ds, c.isDigit = true) :
    Scan.lexemes (s.written ++ ds) = .ok (s.lexemes ds) := by
  obtain ⟨d, ds, rfl⟩ := List.exists_cons_of_ne_nil hne
  rw [List.forall_mem_cons] at hdigits
  have hnumber : Scan.pieces (d :: ds) = [⟨.token .number, d, ds⟩] := by
    have hbreaks : Scan.Breaks [] := by simp [Scan.Breaks]
    have hpieces := Scan.pieces_cons_append (Scan.munch_digits hdigits.1 hdigits.2 hbreaks)
    rwa [List.append_nil] at hpieces
  have hsigned : ∀ {c : Char} {t : Token}, Scan.munch c (d :: ds) = (.token t, 0) →
      Scan.pieces (c :: d :: ds) = [⟨.token t, c, []⟩, ⟨.token .number, d, ds⟩] := by
    intro c t h
    have hpieces : Scan.pieces (c :: ([] ++ d :: ds)) = _ := Scan.pieces_cons_append h
    rwa [hnumber] at hpieces
  rw [Scan.lexemes_eq_ok_iff]
  cases s with
  | missing =>
    rw [written, List.nil_append, hnumber]
    exact ⟨by simp, rfl⟩
  | plus =>
    rw [written, List.singleton_append, hsigned rfl]
    exact ⟨by simp, rfl⟩
  | minus =>
    rw [written, List.singleton_append, hsigned rfl]
    exact ⟨by simp, rfl⟩

/-- **An integer is an operand**, and its tree is read as one literal. -/
theorem exists_isOperand (s : Sign) {ds : List Char} (hne : ds ≠ [])
    (hdigits : ∀ c ∈ ds, c.isDigit = true) :
    ∃ t, IsOperand (s.lexemes ds) t ∧ IsLiteralOf (s.written ++ ds) t := by
  have hgenuine := Scan.genuine_of_lexemes (s.lexemes_written hne hdigits)
  have hspan : ∀ c : Char, c.utf8Size = 1 →
      (⟨0, 1⟩ : Span).cover (Lexeme.ofDigits ds 1).span = ⟨0, Text.byteSize (c :: ds)⟩ := by
    intro c hc
    rw [Text.byteSize, hc]
    rfl
  cases s with
  | missing =>
    refine ⟨_, .applied (.atom (.number rfl)), isLiteralOf_number ?_⟩
    exact congrArg (Span.mk 0) (Nat.zero_add _)
  | plus =>
    simp only [lexemes, List.forall_mem_cons] at hgenuine
    exact ⟨_, .sign rfl (.applied (.atom (.number rfl))),
      isLiteralOf_signed hgenuine.1 hgenuine.2.1 rfl (hspan '+' rfl) String.ofList_append.symm⟩
  | minus =>
    simp only [lexemes, List.forall_mem_cons] at hgenuine
    exact ⟨_, .sign rfl (.applied (.atom (.number rfl))),
      isLiteralOf_signed hgenuine.1 hgenuine.2.1 rfl (hspan '-' rfl) String.ofList_append.symm⟩

end Sign

/-! ## Scripts of one operand -/

theorem Reading.stmt_expression (source : List Char) (t : Tree NodeKind) :
    stmt source (.spanning .expressionStatement t []) =
      (expr source t >>= fun e => .ok (.expr e)) := rfl

/-- **A script of one operand** is read as that operand. -/
theorem Script.parse_of_isOperand {source : String} {ls : List Lexeme} {t : Tree NodeKind}
    (hscan : Scan.lexemes source.toList = .ok ls) (ht : IsOperand ls t)
    (hheight : t.height ≤ maxNesting) :
    parse source =
      (expr source.toList t).bimap (.parse <| ·.report source.toList) fun e => [.expr e] := by
  have hsignificant : Lexeme.significant 0 ls = ls :=
    Lexeme.significant_eq_self fun l hl h => by
      have hinner := ht.isInner l hl
      rw [h] at hinner
      cases hinner
  have hscript : IsScript ls [.spanning .expressionStatement t []] :=
    IsStatement.isScript (.expression (.product (.operand ht)))
  have hkeeps : ∀ u ∈ [Tree.spanning NodeKind.expressionStatement t []],
      KeepsTo maxNesting u := by
    simpa [KeepsTo] using hheight
  rw [parse_eq_parseTree hscan, parseTree_eq_bind, hscan, Except.mapError_ok, Except.ok_bind,
    hsignificant, script_eq_ok_iff.mpr ⟨hscript, hkeeps⟩, Except.mapError_ok, Except.ok_bind,
    List.mapM_cons, stmt_expression]
  cases expr source.toList t with
  | error f => rfl
  | ok e => rfl

theorem Script.parse_integer (s : Sign) {ds : List Char} (hne : ds ≠ [])
    (hdigits : ∀ c ∈ ds, c.isDigit = true) :
    ∃ t : Tree NodeKind, t.span = ⟨0, Text.byteSize (s.written ++ ds)⟩ ∧
      parse (String.ofList (s.written ++ ds)) =
        (literal t (String.ofList (s.written ++ ds))).bimap
          (.parse <| ·.report (s.written ++ ds)) fun e => [.expr e] := by
  obtain ⟨t, ht, hliteral⟩ := s.exists_isOperand hne hdigits
  have hscan := s.lexemes_written hne hdigits
  rw [← String.toList_ofList (l := s.written ++ ds)] at hscan
  refine ⟨t, hliteral.span_eq, ?_⟩
  rw [parse_of_isOperand hscan ht hliteral.height_le, String.toList_ofList, hliteral.reads]

/-- **Integers are exact.**  A script of digits with or without a sign is compiled to the integer
that it writes, or is refused as a whole because this is out of range. -/
theorem Script.compile_integer (s : Sign) {ds : List Char} (hne : ds ≠ [])
    (hdigits : ∀ c ∈ ds, c.isDigit = true) :
    let text := s.written ++ ds
    let v := s.apply (Nat.ofDigitChars 10 ds 0)
    (-2147483648 ≤ v ∧ v ≤ 4294967295 →
      ∃ c, compile (String.ofList text) = .ok c ∧ c.instrs = [.const v, .set .scratch]) ∧
    (¬ (-2147483648 ≤ v ∧ v ≤ 4294967295) →
      ∃ e, compile (String.ofList text) = .error (.parse e) ∧ e.kind = .literalOutOfRange ∧
        e.span = ⟨0, Text.byteSize text⟩ ∧ e.text = String.ofList text) := by
  intro text v
  obtain ⟨t, hspan, hparse⟩ := parse_integer s hne hdigits
  have hread : Literal.read (String.ofList text) =
      if -2147483648 ≤ v ∧ v ≤ 4294967295 then .ok v
      else .error (.literalOutOfRange (String.ofList text)) :=
    Literal.read_integer s hne hdigits
  constructor
  · intro hrange
    rw [if_pos hrange] at hread
    rw [literal, hread] at hparse
    refine ⟨Program.body [.expr (.num v)], ?_, rfl⟩
    rw [compile, hparse]
    rfl
  · intro hrange
    rw [if_neg hrange] at hread
    rw [literal, hread] at hparse
    refine ⟨_, by rw [compile, hparse]; rfl, rfl, hspan, ?_⟩
    change t.span.text text = _
    rw [hspan, Span.text_whole]

/-- The least integer behind leading zeros, and one that binary64 has no finite value for. -/
theorem Script.compile_integer_least :
    (∃ c, compile "-0002147483648" = .ok c ∧
      c.instrs = [.const (-2147483648), .set .scratch]) ∧
    ∃ e, compile (String.ofList ('+' :: List.replicate 309 '9')) = .error (.parse e) ∧
      e.kind = .literalOutOfRange ∧ e.span = ⟨0, 310⟩ ∧
      e.text = String.ofList ('+' :: List.replicate 309 '9') := by
  constructor
  · have hne : "0002147483648".toList ≠ [] := by decide
    exact (compile_integer .minus hne (List.all_eq_true.mp rfl)).1 (by decide)
  · have hsize : Text.byteSize ('+' :: List.replicate 309 '9') = 310 := by decide +kernel
    have hne : List.replicate 309 '9' ≠ [] := List.cons_ne_nil '9' _
    have hdigits : ∀ c ∈ List.replicate 309 '9', c.isDigit = true := fun c hc =>
      List.eq_of_mem_replicate hc ▸ rfl
    rw [← hsize]
    exact (compile_integer .plus hne hdigits).2 (by decide +kernel)

end ArithWat
