import ArithWat.Proofs.Grammar.Layout
import ArithWat.Proofs.Parsing
import ArithWat.Proofs.Printing
import ArithWat.Proofs.Spans

/-!
# Layout does not matter

Trees that are alike say the same, up to the spans of references, or have flaws of the same
sort (`Reading.stmt_rel`).  With what `Grammar.Layout` says about the rules, the outline of
the significant lexemes is all that the program of a script depends on
(`Script.parse_of_outline_eq`).

A script of blanks alone is a case of its own for `Script.parse`, but no exception: its
lexemes are line feeds, and so the rules find no statement (`Script.parse_eq_parseTree`).
-/

namespace ArithWat

/-- Flaws with faults of the same sort. -/
def Flaw.SameKind (f f' : Flaw) : Prop := f.fault.kind = f'.fault.kind

namespace Reading
open ArithWat.Tree
variable {source source' : List Char} {α : Type} {R : α → α → Prop} {t t' : Tree NodeKind}
  {us us' : List (Tree NodeKind)}

/-- A tree and those after it, alike in two scripts. -/
inductive NextAlike (source source' : List Char) :
    Tree NodeKind × List (Tree NodeKind) → Tree NodeKind × List (Tree NodeKind) → Prop
  | intro {u u' vs vs'} : Alike source source' u u' →
      List.Forall₂ (Alike source source') vs vs' → NextAlike source source' (u, vs) (u', vs')

/-- Two readings that come to the same, up to `R`, or to flaws of the same sort. -/
abbrev SaysAlike (R : α → α → Prop) : (x x' : Except Flaw α) → Prop := Except.Rel Flaw.SameKind R

theorem withinChildren_rel {body body' : Tree NodeKind → List (Tree NodeKind) → Except Flaw α}
    (h : Alike source source' t t')
    (hbody : ∀ u us u' us', t.children = u :: us → t'.children = u' :: us' →
      Alike source source' u u' → List.Forall₂ (Alike source source') us us' →
      SaysAlike R (body u us) (body' u' us')) :
    SaysAlike R (withinChildren t body) (withinChildren t' body') := by
  have hchildren := h.children
  rw [withinChildren, withinChildren]
  rcases hu : t.children with _ | ⟨u, us⟩
  · rw [hu, List.forall₂_nil_left_iff] at hchildren
    rw [hchildren]
    exact .error rfl
  · rw [hu, List.forall₂_cons_left_iff] at hchildren
    obtain ⟨u', us', halike, hmore, hu'⟩ := hchildren
    rw [hu']
    exact hbody u us u' us' hu hu' halike hmore

theorem next_rel (part : Part) (h : List.Forall₂ (Alike source source') us us') :
    Except.Rel Flaw.SameKind (NextAlike source source') (next part t us) (next part t' us') := by
  rcases h with _ | ⟨hu, hus⟩
  · exact .error rfl
  · exact .ok ⟨hu, hus⟩

theorem nextTo_rel {test : Option NodeKind → Bool} {fault fault' : Fault}
    (hfault : fault.kind = fault'.kind) (h : List.Forall₂ (Alike source source') us us') :
    Except.Rel Flaw.SameKind (NextAlike source source') (nextTo test fault t us)
      (nextTo test fault' t' us') := by
  rcases h with _ | ⟨hu, hus⟩
  · exact .error hfault
  · rw [nextTo, nextTo, kind?_eq_kind, kind?_eq_kind, hu.kind_eq]
    split
    · exact .ok ⟨hu, hus⟩
    · exact .error hfault

/-- A node is a certain word in both trees, with one text, or in neither. -/
theorem ite_word_rel {k : NodeKind} (hk : isWord k = true) (h : Alike source source' t t')
    {x y x' y' : Except Flaw α} (hthen : text source t = text source' t' → SaysAlike R x x')
    (helse : SaysAlike R y y') :
    SaysAlike R (if kind? t = some k then x else y) (if kind? t' = some k then x' else y') := by
  rw [kind?_eq_kind, kind?_eq_kind, ← h.kind_eq]
  by_cases hkind : t.kind = k
  · rw [if_pos (congrArg some hkind), if_pos (congrArg some hkind)]
    exact hthen (h.text_eq (hkind ▸ hk))
  · have hne : some t.kind ≠ some k := fun heq => hkind (Option.some.inj heq)
    rw [if_neg hne, if_neg hne]
    exact helse

/-! ## Expressions -/

/-- Expressions that are equal up to the spans of references. -/
abbrev ExprAlike (e e' : Expr) : Prop := e.unspanned = e'.unspanned

theorem operator_rel (h : Alike source source' t t') :
    SaysAlike Eq (operator source t) (operator source' t') := by
  refine ite_word_rel rfl h (fun htext => ?_) (.error rfl)
  rw [htext]
  split
  · exact .ok rfl
  · exact .error rfl

theorem literal_rel (s : String) : SaysAlike ExprAlike (literal t s) (literal t' s) := by
  rw [literal, literal]
  split
  · exact .ok rfl
  · exact .error rfl

theorem signedText_rel {sign sign' : Tree NodeKind} (hsign : Alike source source' sign sign')
    (h : List.Forall₂ (Alike source source') us us') :
    SaysAlike Eq (signedText source sign us) (signedText source' sign' us') := by
  rw [signedText, signedText, kind?_eq_kind, kind?_eq_kind, ← hsign.kind_eq]
  by_cases hop : sign.kind = .arithOp
  · have htext : text source sign = text source' sign' := hsign.text_eq (by rw [hop]; rfl)
    rw [htext]
    split
    · refine (next_rel .signedOperand h).bind ?_
      rintro _ _ @⟨number, number', -, -, hnumber, -⟩
      refine ite_word_rel rfl hnumber (fun hdigits => ?_) (.error rfl)
      rw [hdigits]
      exact .ok rfl
    · exact .error rfl
  · -- The text of what is no operator is not looked at.
    have hne : (some sign.kind = some NodeKind.arithOp) = False := by simp [hop]
    simp only [hne, decide_false, Bool.false_and]
    exact .error rfl

section
variable {operand operand' : Tree NodeKind → Except Flaw Expr}
  (hoperand : ∀ {t t'}, Alike source source' t t' →
    SaysAlike ExprAlike (operand t) (operand' t'))
include hoperand

theorem binary_rel (h : Alike source source' t t') :
    SaysAlike ExprAlike (binary source operand t) (binary source' operand' t') := by
  refine withinChildren_rel h ?_
  intro left later left' later' _ _ hleft hlater
  refine (hoperand hleft).bind ?_
  intro l l' hl
  refine (next_rel .operator hlater).bind ?_
  rintro _ _ @⟨op, op', later, later', hop, hlater⟩
  refine (operator_rel hop).bind ?_
  rintro o _ rfl
  refine (next_rel .rightOperand hlater).bind ?_
  rintro _ _ @⟨right, right', -, -, hright, -⟩
  refine (hoperand hright).bind ?_
  intro r r' hr
  refine .ok ?_
  rw [ExprAlike, Expr.unspanned_binary, Expr.unspanned_binary, hl, hr]

omit hoperand in
theorem withinArguments_rel {name name' : String} {callee callee' : Tree NodeKind}
    {body body' : Tree NodeKind → List (Tree NodeKind) → Except Flaw α}
    (h : List.Forall₂ (Alike source source') us us')
    (hbody : ∀ u us u' us', Alike source source' u u' →
      List.Forall₂ (Alike source source') us us' → SaysAlike R (body u us) (body' u' us')) :
    SaysAlike R (withinArguments name callee us body) (withinArguments name' callee' us' body') := by
  refine (next_rel .argumentList h).bind ?_
  rintro _ _ @⟨args, args', -, -, hargs, -⟩
  dsimp only
  rw [kind?_eq_kind, kind?_eq_kind, ← hargs.kind_eq]
  split
  · refine withinChildren_rel hargs ?_
    intro opening later opening' later' _ _ hopening hlater
    rw [kind?_eq_kind, kind?_eq_kind, ← hopening.kind_eq]
    split
    · exact hbody opening later opening' later' hopening hlater
    · exact .error rfl
  · exact .error rfl

theorem call_rel (h : Alike source source' t t') (hkind : t.kind = .callExpression) :
    SaysAlike ExprAlike (call source operand t) (call source' operand' t') := by
  refine withinChildren_rel h ?_
  intro callee later callee' later' hchildren hchildren' hcallee hlater
  -- The texts may differ, but they name the same builtin and otherwise only occur in faults.
  have hname : SameBuiltin (text source callee) (text source' callee') :=
    h.callee hkind hchildren hchildren'
  dsimp only
  rw [← hname.1, ← hname.2]
  split
  · refine withinArguments_rel hlater ?_
    intro opening later opening' later' _ hlater
    refine (nextTo_rel (by rfl) hlater).bind ?_
    rintro _ _ @⟨arg, arg', later, later', harg, hlater⟩
    refine (hoperand harg).bind ?_
    intro e e' he
    refine (nextTo_rel (by rfl) hlater).bind ?_
    intro _ _ _
    refine .ok ?_
    rw [ExprAlike, Expr.unspanned_call1, Expr.unspanned_call1, he]
  · refine withinArguments_rel hlater ?_
    intro opening later opening' later' _ hlater
    refine (nextTo_rel (by rfl) hlater).bind ?_
    rintro _ _ @⟨arg₁, arg₁', later, later', harg₁, hlater⟩
    refine (hoperand harg₁).bind ?_
    intro e₁ e₁' he₁
    refine (nextTo_rel (by rfl) hlater).bind ?_
    rintro _ _ @⟨comma, comma', later, later', -, hlater⟩
    refine (nextTo_rel (by rfl) hlater).bind ?_
    rintro _ _ @⟨arg₂, arg₂', later, later', harg₂, hlater⟩
    refine (hoperand harg₂).bind ?_
    intro e₂ e₂' he₂
    refine (nextTo_rel (by rfl) hlater).bind ?_
    intro _ _ _
    refine .ok ?_
    rw [ExprAlike, Expr.unspanned_call2, Expr.unspanned_call2, he₁, he₂]
  · exact .error rfl

end

/-- **Expressions are read alike**, with any number of levels left. -/
theorem exprWithin_rel (levels : Nat) (h : Alike source source' t t') :
    SaysAlike ExprAlike (exprWithin source levels t) (exprWithin source' levels t') := by
  induction levels generalizing t t' with
  | zero => exact .error rfl
  | succ levels ih =>
    rw [exprWithin, exprWithin, kind?_eq_kind, kind?_eq_kind, ← h.kind_eq]
    split
    · rename_i hkind
      have htext : text source t = text source' t' :=
        h.text_eq (by rw [Option.some.inj hkind]; rfl)
      rw [htext]
      exact literal_rel _
    · refine (withinChildren_rel h fun sign later sign' later' _ _ hsign hlater =>
        signedText_rel hsign hlater).bind ?_
      rintro s _ rfl
      exact literal_rel s
    · rename_i hkind
      have htext : text source t = text source' t' :=
        h.text_eq (by rw [Option.some.inj hkind]; rfl)
      rw [htext]
      exact .ok rfl
    · exact binary_rel ih h
    · rename_i hkind
      exact call_rel ih h (Option.some.inj hkind)
    · exact .error rfl

/-! ## Statements -/

/-- **Statements are read alike.** -/
theorem stmt_rel (h : Alike source source' t t') :
    SaysAlike (fun s s' => s.unspanned = s'.unspanned) (stmt source t) (stmt source' t') := by
  rw [stmt, stmt, kind?_eq_kind, kind?_eq_kind, ← h.kind_eq]
  split
  · refine withinChildren_rel h ?_
    intro target later target' later' _ _ htarget hlater
    refine ite_word_rel rfl htarget (fun htext => ?_) (.error rfl)
    rw [htext]
    refine (next_rel .equals hlater).bind ?_
    rintro _ _ @⟨equals, equals', later, later', -, hlater⟩
    refine (next_rel .assignedValue hlater).bind ?_
    rintro _ _ @⟨value, value', -, -, hvalue, -⟩
    refine (exprWithin_rel maxNesting hvalue).bind ?_
    intro e e' he
    refine .ok ?_
    rw [Stmt.unspanned_define, Stmt.unspanned_define, he]
  · refine withinChildren_rel h ?_
    intro value later value' later' _ _ hvalue _
    refine (exprWithin_rel maxNesting hvalue).bind ?_
    intro e e' he
    refine .ok ?_
    rw [Stmt.unspanned_expr, Stmt.unspanned_expr, he]
  · exact .error rfl

end Reading

/-! ## Scripts of blanks -/

/-- The only token that begins with a blank is the line feed. -/
theorem Token.Spells.exists_not_isBlank {t : Token} {cs : List Char} (h : t.Spells cs)
    (ht : t ≠ .newline) : ∃ c rest, cs = c :: rest ∧ Text.isBlank c = false := by
  cases t with
  | name =>
    obtain ⟨c, rest, hcs, hc⟩ := exists_eq_cons_of_isName h
    exact ⟨c, rest, hcs, isBlank_of_opensExpr hc⟩
  | number =>
    obtain ⟨c, rest, hcs, hc⟩ := h
    refine ⟨c, rest, hcs, ?_⟩
    rcases hc with hdigit | rfl
    · exact isBlank_of_opensExpr (by simp [opensExpr, hdigit])
    · decide
  | newline => exact absurd rfl ht
  | _ => exact ⟨_, _, h, by decide⟩

/-- The lexemes of a blank text are separators. -/
theorem Lexeme.Genuine.isSeparator {source : List Char} {l : Lexeme} (hl : l.Genuine source)
    (hblank : ∀ c ∈ source, Text.isBlank c = true) : l.token.isSeparator = true := by
  by_cases hnewline : l.token = .newline
  · rw [hnewline]
    rfl
  · obtain ⟨c, rest, htext, hc⟩ := hl.spells.exists_not_isBlank hnewline
    obtain ⟨head, tail, hsource, -⟩ := Text.slice?_eq_some_iff.mp (hl.slice?_eq htext)
    have hmem : c ∈ source := by simp [hsource]
    rw [hblank c hmem] at hc
    cases hc

namespace Script

/-- **A script of blanks is no exception**, as long as it can be scanned. -/
theorem parse_eq_parseTree {source : String} {ls : List Lexeme}
    (hscan : Scan.lexemes source.toList = .ok ls) : parse source = parseTree source.toList := by
  rw [parse]
  split
  · -- Trimming knows more blanks than the scanner, but the others would have been stray.
    rename_i hempty
    have hblank := Text.isEmpty_trim_iff.mp hempty
    have hseps : ∀ l ∈ Lexeme.significant 0 ls, l.token.isSeparator = true := fun l hl =>
      (Scan.genuine_of_significant hscan l hl).isSeparator hblank
    exact (parseTree_eq_ok_iff.mpr
      ⟨ls, [], hscan, .of_separators hseps, List.forall_mem_nil _, rfl⟩).symm
  · rfl

/-! ## Scripts with one outline -/

/-- Reports of faults of the same sort. -/
def SameReport (e e' : CompileError) : Prop :=
  ∃ f f', e = .parse f ∧ e' = .parse f' ∧ f.kind = f'.kind

theorem parseTree_rel {source source' : List Char} {ls ls' : List Lexeme}
    (hscan : Scan.lexemes source = .ok ls) (hscan' : Scan.lexemes source' = .ok ls')
    (houtline : Lexeme.outline (Lexeme.significant 0 ls) =
      Lexeme.outline (Lexeme.significant 0 ls')) :
    Except.Rel SameReport (fun p p' => p.unspanned = p'.unspanned) (parseTree source)
      (parseTree source') := by
  have hgenuine := Scan.genuine_of_significant hscan
  have hgenuine' := Scan.genuine_of_significant hscan'
  rw [parseTree_eq_bind, parseTree_eq_bind, hscan, hscan']
  simp only [Except.mapError_ok, Except.ok_bind]
  -- Both scripts are scanned, so it is left to go through the rules and the readings in step.
  refine ((Grammar.script_rel houtline hgenuine hgenuine').mapError fun e e' he => ?_).bind ?_
  · exact ⟨_, _, rfl, rfl, he⟩
  · intro ts ts' hts
    have hread := Except.Rel.mapM hts fun t t' ht => Reading.stmt_rel ht
    refine (hread.mapError fun e e' he => ?_).mono ?_
    · exact ⟨_, _, rfl, rfl, he⟩
    · intro p p' hp
      induction hp with
      | nil => rfl
      | cons hs _ ih => rw [Program.unspanned_cons, Program.unspanned_cons, hs, ih]

/-- **Layout does not matter.**  Scripts with the same outline have the same program up to
the spans of references, or are both refused for a fault of the same sort. -/
theorem parse_of_outline_eq {source source' : String} {ls ls' : List Lexeme}
    (hscan : Scan.lexemes source.toList = .ok ls) (hscan' : Scan.lexemes source'.toList = .ok ls')
    (houtline : Lexeme.outline (Lexeme.significant 0 ls) =
      Lexeme.outline (Lexeme.significant 0 ls')) :
    (∃ p p', parse source = .ok p ∧ parse source' = .ok p' ∧ p.unspanned = p'.unspanned) ∨
      ∃ e e', parse source = .error (.parse e) ∧ parse source' = .error (.parse e') ∧
        e.kind = e'.kind := by
  rw [parse_eq_parseTree hscan, parse_eq_parseTree hscan']
  rcases (parseTree_rel hscan hscan' houtline).ok_or_error with hok | ⟨_, _, he, he', herror⟩
  · exact .inl hok
  · obtain ⟨e, e', rfl, rfl, hkind⟩ := herror
    exact .inr ⟨e, e', he, he', hkind⟩

/-- A comment, blank lines and a line feed in parentheses, against semicolons and a
continued line; and the call of a name in parentheses, which is refused in either layout. -/
theorem parse_of_outline_eq_comment :
    let tall := "a = 1 # one\n\n\nprint(a +\n  2)\n"
    let flat := ";a=1;print\\\n(a+2)"
    let wide := "( print ) ( 3 )\n"
    let tight := "(print)(3);"
    (∃ ls ls', Scan.lexemes tall.toList = .ok ls ∧ Scan.lexemes flat.toList = .ok ls' ∧
      Lexeme.outline (Lexeme.significant 0 ls) = Lexeme.outline (Lexeme.significant 0 ls') ∧
      ∃ p p', parse tall = .ok p ∧ parse flat = .ok p' ∧ p.unspanned = p'.unspanned) ∧
    ∃ ls ls', Scan.lexemes wide.toList = .ok ls ∧ Scan.lexemes tight.toList = .ok ls' ∧
      Lexeme.outline (Lexeme.significant 0 ls) = Lexeme.outline (Lexeme.significant 0 ls') ∧
      ∃ e e', parse wide = .error (.parse e) ∧ parse tight = .error (.parse e') ∧
        e.kind = e'.kind := by
  intro tall flat wide tight
  have hscan : ∀ source : String, (∀ p ∈ Scan.pieces source.toList, p.kind ≠ .stray) →
      Scan.lexemes source.toList = .ok (Scan.lexemesFrom 0 (Scan.pieces source.toList)) :=
    fun source hstray => Scan.lexemes_eq_ok_iff.mpr ⟨hstray, rfl⟩
  have htall := hscan tall (by decide +kernel)
  have hflat := hscan flat (by decide +kernel)
  have hwide := hscan wide (by decide +kernel)
  have htight := hscan tight (by decide +kernel)
  constructor
  · refine ⟨_, _, htall, hflat, by decide +kernel, ?_⟩
    refine (parse_of_outline_eq htall hflat (by decide +kernel)).resolve_right ?_
    rintro ⟨e, e', he, -⟩
    have hok : (parse tall).isOk = true := by decide +kernel
    rw [he] at hok
    cases hok
  · refine ⟨_, _, hwide, htight, by decide +kernel, ?_⟩
    refine (parse_of_outline_eq hwide htight (by decide +kernel)).resolve_left ?_
    rintro ⟨p, p', hp, -⟩
    have hok : (parse wide).isOk = false := by decide +kernel
    rw [hp] at hok
    cases hok

end Script

end ArithWat
