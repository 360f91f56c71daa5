import ArithWat.Proofs.Reading
import ArithWat.Proofs.Spans

/-!
# Reading looks at spans for their texts

A reading asks a span for its text and hands it on.  If every span of one script has the
text of the span that it is changed to in another, a tree says in the one what the changed
tree says in the other, and has the same flaw (`mapM_stmt_mapSpans`).
-/

namespace ArithWat

/-- The flaw with its span changed. -/
def Flaw.mapSpan (f : Span → Span) (flaw : Flaw) : Flaw := { flaw with span := f flaw.span }

namespace Reading
variable {κ α β : Type} [Tagged κ] {f : Span → Span}

@[simp] theorem kind?_mapSpans (t : Tree κ) : kind? (t.mapSpans f) = kind? t := by
  rw [kind?, Tree.kind_mapSpans, kind?]

omit [Tagged κ] in
theorem flaw_mapSpans (t : Tree κ) (fault : Fault) (g : α → β) :
    flaw (t.mapSpans f) fault = (flaw t fault).bimap (·.mapSpan f) g := by
  rw [flaw, Tree.span_mapSpans]
  rfl

theorem withinChildren_mapSpans {body : Tree κ → List (Tree κ) → Except Flaw α}
    {body' : Tree κ → List (Tree κ) → Except Flaw β} {g : α → β}
    (hbody : ∀ u us, body' (u.mapSpans f) (us.map (·.mapSpans f)) =
      (body u us).bimap (·.mapSpan f) g) (t : Tree κ) :
    withinChildren (t.mapSpans f) body' = (withinChildren t body).bimap (·.mapSpan f) g := by
  rw [withinChildren, withinChildren, Tree.children_mapSpans, Tree.kind_mapSpans]
  cases t.children with
  | nil => exact flaw_mapSpans t _ g
  | cons u us => exact hbody u us

theorem next_mapSpans (part : Part) (t : Tree κ) (us : List (Tree κ)) :
    next part (t.mapSpans f) (us.map (·.mapSpans f)) =
      (next part t us).bimap (·.mapSpan f) fun (u, us) =>
        (u.mapSpans f, us.map (·.mapSpans f)) := by
  cases us with
  | nil =>
    rw [List.map_nil, next, next, Tree.kind_mapSpans]
    exact flaw_mapSpans t _ _
  | cons u us => rfl

theorem nextTo_mapSpans (test : Option NodeKind → Bool) (fault : Fault) (t : Tree κ)
    (us : List (Tree κ)) :
    nextTo test fault (t.mapSpans f) (us.map (·.mapSpans f)) =
      (nextTo test fault t us).bimap (·.mapSpan f) fun (u, us) =>
        (u.mapSpans f, us.map (·.mapSpans f)) := by
  cases us with
  | nil => exact flaw_mapSpans t _ _
  | cons u us =>
    rw [List.map_cons, nextTo, nextTo, kind?_mapSpans]
    split
    · rfl
    · exact flaw_mapSpans u _ _

/-! ## Expressions -/

omit [Tagged κ] in
theorem literal_mapSpans (t : Tree κ) (s : String) :
    literal (t.mapSpans f) s = (literal t s).bimap (·.mapSpan f) (·.mapSpans f) := by
  rw [literal, literal]
  split
  · rfl
  · exact flaw_mapSpans t _ _

theorem withinArguments_mapSpans {body : Tree κ → List (Tree κ) → Except Flaw α}
    {body' : Tree κ → List (Tree κ) → Except Flaw β} {g : α → β}
    (hbody : ∀ u us, body' (u.mapSpans f) (us.map (·.mapSpans f)) =
      (body u us).bimap (·.mapSpan f) g)
    (name : String) (callee : Tree κ) (later : List (Tree κ)) :
    withinArguments name (callee.mapSpans f) (later.map (·.mapSpans f)) body' =
      (withinArguments name callee later body).bimap (·.mapSpan f) g := by
  rw [withinArguments, next_mapSpans]
  refine Except.bimap_bind ?_
  rintro ⟨args, -⟩
  dsimp only
  rw [kind?_mapSpans]
  split
  · refine withinChildren_mapSpans (fun opening later => ?_) args
    rw [kind?_mapSpans]
    split
    · exact hbody opening later
    · exact flaw_mapSpans opening _ _
  · exact flaw_mapSpans args _ _

variable {source source' : List Char} (htext : ∀ s : Span, (f s).text source' = s.text source)
include htext

omit [Tagged κ] in
theorem text_mapSpans (t : Tree κ) : text source' (t.mapSpans f) = text source t := by
  rw [text, Tree.span_mapSpans, htext, text]

theorem operator_mapSpans (t : Tree κ) :
    operator source' (t.mapSpans f) = (operator source t).bimap (·.mapSpan f) id := by
  rw [operator, operator, kind?_mapSpans, text_mapSpans htext, Tree.kind_mapSpans]
  split
  · split
    · rfl
    · exact flaw_mapSpans t _ _
  · exact flaw_mapSpans t _ _

theorem signedText_mapSpans (sign : Tree κ) (later : List (Tree κ)) :
    signedText source' (sign.mapSpans f) (later.map (·.mapSpans f)) =
      (signedText source sign later).bimap (·.mapSpan f) id := by
  rw [signedText, signedText, kind?_mapSpans, text_mapSpans htext]
  split
  · rw [next_mapSpans]
    refine Except.bimap_bind ?_
    rintro ⟨number, -⟩
    dsimp only
    rw [kind?_mapSpans, text_mapSpans htext]
    split
    · rfl
    · exact flaw_mapSpans number _ _
  · exact flaw_mapSpans sign _ _

section
variable {operand operand' : Tree κ → Except Flaw Expr}
  (hoperand : ∀ t, operand' (t.mapSpans f) = (operand t).bimap (·.mapSpan f) (·.mapSpans f))
include hoperand

theorem binary_mapSpans (t : Tree κ) :
    binary source' operand' (t.mapSpans f) =
      (binary source operand t).bimap (·.mapSpan f) (·.mapSpans f) := by
  refine withinChildren_mapSpans (fun left later => ?_) t
  rw [hoperand]
  refine Except.bimap_bind fun l => ?_
  rw [next_mapSpans]
  refine Except.bimap_bind ?_
  rintro ⟨op, later⟩
  dsimp only
  rw [operator_mapSpans htext]
  refine Except.bimap_bind fun o => ?_
  rw [next_mapSpans]
  refine Except.bimap_bind ?_
  rintro ⟨right, -⟩
  dsimp only
  rw [hoperand]
  exact Except.bimap_bind fun r => rfl

theorem call_mapSpans (t : Tree κ) :
    call source' operand' (t.mapSpans f) =
      (call source operand t).bimap (·.mapSpan f) (·.mapSpans f) := by
  refine withinChildren_mapSpans (fun callee later => ?_) t
  dsimp only
  rw [text_mapSpans htext]
  split
  · refine withinArguments_mapSpans (fun opening later => ?_) _ callee later
    rw [nextTo_mapSpans]
    refine Except.bimap_bind ?_
    rintro ⟨arg, later⟩
    dsimp only
    rw [hoperand]
    refine Except.bimap_bind fun e => ?_
    rw [nextTo_mapSpans]
    exact Except.bimap_bind fun _ => rfl
  · refine withinArguments_mapSpans (fun opening later => ?_) _ callee later
    rw [nextTo_mapSpans]
    refine Except.bimap_bind ?_
    rintro ⟨arg₁, later⟩
    dsimp only
    rw [hoperand]
    refine Except.bimap_bind fun e₁ => ?_
    rw [nextTo_mapSpans]
    refine Except.bimap_bind ?_
    rintro ⟨comma, later⟩
    dsimp only
    rw [nextTo_mapSpans]
    refine Except.bimap_bind ?_
    rintro ⟨arg₂, later⟩
    dsimp only
    rw [hoperand]
    refine Except.bimap_bind fun e₂ => ?_
    rw [nextTo_mapSpans]
    exact Except.bimap_bind fun _ => rfl
  · exact flaw_mapSpans callee _ _

end

/-- **An expression relocates**, with any number of levels left. -/
theorem exprWithin_mapSpans (levels : Nat) (t : Tree κ) :
    exprWithin source' levels (t.mapSpans f) =
      (exprWithin source levels t).bimap (·.mapSpan f) (·.mapSpans f) := by
  induction levels generalizing t with
  | zero => exact flaw_mapSpans t _ _
  | succ levels ih =>
    rw [exprWithin, exprWithin, kind?_mapSpans, Tree.kind_mapSpans]
    split
    · rw [text_mapSpans htext, literal_mapSpans]
    · rw [withinChildren_mapSpans (signedText_mapSpans htext)]
      exact Except.bimap_bind fun s => literal_mapSpans t s
    · rw [text_mapSpans htext, Tree.span_mapSpans]
      rfl
    · exact binary_mapSpans htext ih t
    · exact call_mapSpans htext ih t
    · exact flaw_mapSpans t _ _

/-! ## Statements -/

/-- **A statement relocates.** -/
theorem stmt_mapSpans (t : Tree κ) :
    stmt source' (t.mapSpans f) = (stmt source t).bimap (·.mapSpan f) (·.mapSpans f) := by
  rw [stmt, stmt, kind?_mapSpans, Tree.kind_mapSpans]
  split
  · refine withinChildren_mapSpans (fun target later => ?_) t
    rw [kind?_mapSpans, text_mapSpans htext, Tree.kind_mapSpans]
    split
    · rw [next_mapSpans]
      refine Except.bimap_bind ?_
      rintro ⟨equals, later⟩
      dsimp only
      rw [next_mapSpans]
      refine Except.bimap_bind ?_
      rintro ⟨value, -⟩
      dsimp only
      rw [expr, exprWithin_mapSpans htext]
      exact Except.bimap_bind fun e => rfl
    · exact flaw_mapSpans target _ _
  · refine withinChildren_mapSpans (fun value _ => ?_) t
    rw [expr, exprWithin_mapSpans htext]
    exact Except.bimap_bind fun e => rfl
  · exact flaw_mapSpans t _ _

/-- **The statements of a script relocate.** -/
theorem mapM_stmt_mapSpans (ts : List (Tree κ)) :
    (ts.map (·.mapSpans f)).mapM (stmt source') =
      (ts.mapM (stmt source)).bimap (·.mapSpan f) (Program.mapSpans f) :=
  Except.mapM_map_bimap (stmt_mapSpans htext) ts

end Reading

end ArithWat
