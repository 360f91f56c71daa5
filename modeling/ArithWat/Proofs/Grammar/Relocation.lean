import ArithWat.Proofs.Grammar.Balance
import ArithWat.Proofs.Outcome
import ArithWat.Proofs.Spans

/-!
# The grammar does not look at spans

A rule looks at the tokens of lexemes and hands their spans on.  So a change of
spans that respects covers can be made before a rule is applied or after it, whether the
rule succeeds or fails (`Relocates`), and so for whole scripts (`script_mapSpan`).
-/

namespace ArithWat.Grammar

/-- The failure with its span changed. -/
def Failure.mapSpan (f : Span → Span) (e : Failure) : Failure := { e with span := e.span.map f }

/-- What a rule gives, with its spans changed. -/
def Outcome.mapSpan (f : Span → Span) (x : Outcome) : Outcome :=
  x.bimap (·.mapSpan f) fun (t, ls) => (t.mapSpans f, ls.map (·.mapSpan f))

/-- **A rule relocates** if spans can be changed before or after it. -/
def Relocates (f : Span → Span) (rule : Rule) : Prop :=
  ∀ ls, rule (ls.map (·.mapSpan f)) = (rule ls).mapSpan f

variable {limit : Nat} {f : Span → Span}

theorem failAt_mapSpan (ls : List Lexeme) (fault : Fault) :
    failAt (ls.map (·.mapSpan f)) fault = (failAt ls fault).mapSpan f := by
  cases ls with
  | nil => rfl
  | cons l ls => rfl

theorem ofLexemes_mapSpan (ls : List Lexeme) :
    Found.ofLexemes (ls.map (·.mapSpan f)) = Found.ofLexemes ls := by
  cases ls with
  | nil => rfl
  | cons l ls => rfl

theorem leaf_mapSpan (k : NodeKind) (l : Lexeme) : leaf k (l.mapSpan f) = (leaf k l).mapSpans f :=
  rfl

theorem relocates_expect (t : Token) (k : NodeKind) : Relocates f (expect t k) := by
  intro ls
  cases ls with
  | nil => rfl
  | cons l ls =>
    rw [List.map_cons, expect, expect, ← List.map_cons, failAt_mapSpan, ofLexemes_mapSpan,
      Lexeme.token_mapSpan]
    split <;> rfl

variable (hf : Span.RespectsCover f)
include hf

theorem build_mapSpans (k : NodeKind) (first : Tree NodeKind) (more : List (Tree NodeKind)) :
    build limit k (first.mapSpans f) (more.map (·.mapSpans f)) =
      (build limit k first more).bimap (·.mapSpan f) (·.mapSpans f) := by
  simp only [build, Tree.spanning_mapSpans hf, Tree.height_mapSpans, Tree.span_mapSpans]
  split <;> rfl

/-! ## Repetitions -/

theorem chainFrom_mapSpan {isOp : Token → Bool} {rule : Rule} (hrule : Relocates f rule)
    (room : List Lexeme) (left : Tree NodeKind) (ls : List Lexeme) :
    chainFrom limit isOp rule (room.map (·.mapSpan f)) (left.mapSpans f) (ls.map (·.mapSpan f)) =
      (chainFrom limit isOp rule room left ls).mapSpan f := by
  induction room generalizing left ls with
  | nil => rfl
  | cons r room ih =>
    cases ls with
    | nil => rfl
    | cons op ls =>
      rw [List.map_cons, List.map_cons, chainFrom, chainFrom, Lexeme.token_mapSpan]
      split
      · rw [hrule]
        refine Except.bimap_bind ?_
        rintro ⟨right, ls⟩
        dsimp only
        rw [leaf_mapSpan, ← List.map_singleton, ← List.map_cons, build_mapSpans hf]
        exact Except.bimap_bind fun tree => ih tree ls
      · rfl

theorem relocates_chain {isOp : Token → Bool} {rule : Rule} (hrule : Relocates f rule) :
    Relocates f (chain limit isOp rule) := by
  intro ls
  rw [chain, hrule]
  exact Except.bimap_bind fun x => chainFrom_mapSpan hf hrule x.2 x.1 x.2

theorem relocates_sum {operand : Rule} (hoperand : Relocates f operand) :
    Relocates f (sum limit operand) :=
  relocates_chain hf (relocates_chain hf hoperand)

omit hf in
theorem arguments_mapSpan {rule : Rule} (hrule : Relocates f rule) (room ls : List Lexeme) :
    arguments rule (room.map (·.mapSpan f)) (ls.map (·.mapSpan f)) =
      (arguments rule room ls).bimap (·.mapSpan f) fun (ts, ls) =>
        (ts.map (·.mapSpans f), ls.map (·.mapSpan f)) := by
  induction room generalizing ls with
  | nil => rfl
  | cons r room ih =>
    have hhead : (ls.map (·.mapSpan f)).head?.map Lexeme.token = ls.head?.map Lexeme.token := by
      cases ls with
      | nil => rfl
      | cons l ls => rfl
    rw [List.map_cons, arguments, arguments, hhead]
    split
    · rfl
    · rw [hrule]
      refine Except.bimap_bind ?_
      rintro ⟨tree, ls⟩
      cases ls with
      | nil => rfl
      | cons l ls =>
        simp only [List.map_cons, Lexeme.token_mapSpan]
        split
        · rw [ih]
          exact Except.bimap_bind fun x => rfl
        · rfl

theorem relocates_argList {rule : Rule} (hrule : Relocates f rule) (l : Lexeme) (ls : List Lexeme) :
    argList limit rule (l.mapSpan f) (ls.map (·.mapSpan f)) =
      (argList limit rule l ls).mapSpan f := by
  rw [argList, ← List.map_cons, arguments_mapSpan hrule]
  refine Except.bimap_bind ?_
  rintro ⟨trees, ls⟩
  dsimp only
  rw [relocates_expect]
  refine Except.bimap_bind ?_
  rintro ⟨close, ls⟩
  dsimp only
  rw [leaf_mapSpan, ← List.map_singleton, ← List.map_append, build_mapSpans hf]
  exact Except.bimap_bind fun tree => rfl

theorem calls_mapSpan {rule : Rule} (hrule : Relocates f rule) (room : List Lexeme)
    (callee : Tree NodeKind) (ls : List Lexeme) :
    calls limit rule (room.map (·.mapSpan f)) (callee.mapSpans f) (ls.map (·.mapSpan f)) =
      (calls limit rule room callee ls).mapSpan f := by
  induction room generalizing callee ls with
  | nil => rfl
  | cons r room ih =>
    cases ls with
    | nil => rfl
    | cons l ls =>
      rw [List.map_cons, List.map_cons, calls, calls, Lexeme.token_mapSpan]
      split
      · rw [relocates_argList hf hrule]
        refine Except.bimap_bind ?_
        rintro ⟨args, ls⟩
        dsimp only
        rw [← List.map_singleton, build_mapSpans hf]
        exact Except.bimap_bind fun tree => ih tree ls
      · rfl

/-! ## Expressions -/

theorem relocates_atom {rule : Rule} (hrule : Relocates f rule) :
    Relocates f (atom limit rule) := by
  intro ls
  cases ls with
  | nil => rfl
  | cons l ls =>
    rw [List.map_cons, atom, atom, ← List.map_cons, failAt_mapSpan, ofLexemes_mapSpan,
      Lexeme.token_mapSpan]
    split
    · rfl
    · rfl
    · rw [hrule]
      refine Except.bimap_bind ?_
      rintro ⟨inner, ls⟩
      dsimp only
      rw [relocates_expect]
      refine Except.bimap_bind ?_
      rintro ⟨close, ls⟩
      dsimp only
      rw [leaf_mapSpan, ← List.map_singleton, ← List.map_cons, build_mapSpans hf]
      exact Except.bimap_bind fun tree => rfl
    · rfl

theorem relocates_applied {rule : Rule} (hrule : Relocates f rule) :
    Relocates f (applied limit rule) := by
  intro ls
  rw [applied, relocates_atom hf hrule]
  exact Except.bimap_bind fun x => calls_mapSpan hf hrule x.2 x.1 x.2

theorem relocates_signed {operand expression : Rule} (hoperand : Relocates f operand)
    (hexpression : Relocates f expression) : Relocates f (signed limit operand expression) := by
  intro ls
  cases ls with
  | nil => exact relocates_applied hf hexpression []
  | cons l ls =>
    rw [List.map_cons, signed, signed, Lexeme.token_mapSpan]
    split
    · rw [hoperand]
      refine Except.bimap_bind ?_
      rintro ⟨inner, ls⟩
      dsimp only
      rw [leaf_mapSpan, ← List.map_singleton, build_mapSpans hf]
      exact Except.bimap_bind fun tree => rfl
    · exact relocates_applied hf hexpression (l :: ls)

/-- **Operands relocate**, with any number of levels left. -/
theorem relocates_operand (levels : Nat) : Relocates f (operand limit levels) := by
  induction levels with
  | zero => exact fun ls => congrArg Except.error (failAt_mapSpan ls _)
  | succ levels ih => exact relocates_signed hf ih (relocates_sum hf ih)

theorem relocates_expression (levels : Nat) : Relocates f (expression limit levels) :=
  relocates_sum hf (relocates_operand hf levels)

/-! ## Statements -/

theorem relocates_plain : Relocates f (statement.plain limit) := by
  intro ls
  rw [statement.plain, relocates_expression hf]
  refine Except.bimap_bind ?_
  rintro ⟨tree, ls⟩
  have hnode := Tree.spanning_mapSpans hf .expressionStatement tree []
  rw [List.map_nil] at hnode
  exact congrArg (fun t => Except.ok (t, _)) hnode

/-- **Statements relocate.** -/
theorem relocates_statement : Relocates f (statement limit) := by
  intro ls
  rcases ls with _ | ⟨l, _ | ⟨l', rest⟩⟩
  · exact relocates_plain hf []
  · exact relocates_plain hf [l]
  · rw [List.map_cons, List.map_cons, statement, statement, Lexeme.token_mapSpan,
      Lexeme.token_mapSpan]
    split
    · rw [relocates_expression hf]
      refine Except.bimap_bind ?_
      rintro ⟨value, ls⟩
      dsimp only
      rw [leaf_mapSpan, leaf_mapSpan, ← List.map_singleton, ← List.map_cons,
        Tree.spanning_mapSpans hf]
      rfl
    · exact relocates_plain hf (l :: l' :: rest)

omit hf in
theorem skipSeparators_mapSpan (ls : List Lexeme) :
    skipSeparators (ls.map (·.mapSpan f)) = (skipSeparators ls).map (·.mapSpan f) :=
  List.dropWhile_map ..

theorem statements_mapSpan (room ls : List Lexeme) :
    statements limit (room.map (·.mapSpan f)) (ls.map (·.mapSpan f)) =
      (statements limit room ls).bimap (·.mapSpan f) (List.map (·.mapSpans f)) := by
  induction room generalizing ls with
  | nil => rfl
  | cons r room ih =>
    rw [List.map_cons, statements, statements, skipSeparators_mapSpan]
    cases skipSeparators ls with
    | nil => rfl
    | cons l ls =>
      simp only [List.map_cons]
      rw [← List.map_cons, relocates_statement hf]
      refine Except.bimap_bind ?_
      rintro ⟨tree, ls⟩
      have hhead : (ls.map (·.mapSpan f)).head?.any (!·.token.isSeparator) =
          ls.head?.any (!·.token.isSeparator) := by
        cases ls with
        | nil => rfl
        | cons l ls => rfl
      dsimp only
      rw [hhead, failAt_mapSpan, ofLexemes_mapSpan, ih]
      split
      · rfl
      · exact Except.bimap_bind fun trees => rfl

/-- **Scripts relocate.** -/
theorem script_mapSpan (ls : List Lexeme) :
    script limit (ls.map (·.mapSpan f)) =
      (script limit ls).bimap (·.mapSpan f) (List.map (·.mapSpans f)) :=
  statements_mapSpan hf ls ls

end ArithWat.Grammar

namespace ArithWat

/-- Which line feeds are layout does not depend on spans. -/
theorem Lexeme.significant_mapSpan (f : Span → Span) (depth : Nat) (ls : List Lexeme) :
    significant depth (ls.map (·.mapSpan f)) = (significant depth ls).map (·.mapSpan f) := by
  induction ls generalizing depth with
  | nil => rfl
  | cons l ls ih =>
    rw [List.map_cons, significant_cons, significant_cons, token_mapSpan, ih, List.map_append]
    split <;> rfl

end ArithWat
