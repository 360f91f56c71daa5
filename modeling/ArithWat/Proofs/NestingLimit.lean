import ArithWat.Proofs.StackDepth
import ArithWat.Proofs.Subtree

/-!
# The nesting limit

An expression is read with a limit on the number of levels.  The limit is one on the height of
the expression that is read: a tree that would be read as `e` without a limit is read as `e` if
the height of `e` is within it, and is too deep otherwise (`Walk.limit_exact_on_height`).
Levels of the tree that are none of the expression, such as argument lists and signs, do not
count.

A reading with a limit is compared with the one without, for the same tree (`Reading.Cut`).
Either the limit is not met, and the two come to the same; or the limited reading ends at a tree
that is too deep, and then the tree is higher than the limit, and so is the expression if there
is one.
-/

namespace ArithWat

theorem Expr.height_pos (e : Expr) : 0 < e.height := by
  cases e <;> rw [height] <;> omega

namespace Reading
variable {κ α : Type} {source : List Char} {levels : Nat} {t u : Tree κ}

/-- **A reading of a tree and what a limit makes of it.** -/
inductive Cut (levels : Nat) (t : Tree κ) : Except Flaw Expr → Except Flaw Expr → Prop
  /-- The limit is not met. -/
  | same {r} (hfits : ∀ e, r = .ok e → e.height ≤ levels) : Cut levels t r r
  /-- The limit is met, and the tree has too many levels. -/
  | tooDeep {r} (span : Span) (htree : levels < t.height)
      (hexpr : ∀ e, r = .ok e → levels < e.height) : Cut levels t r (.error ⟨.tooDeep, span⟩)

theorem cut_flaw (fault : Fault) : Cut levels t (flaw u fault) (flaw u fault) := by
  refine .same fun e he => ?_
  cases he

theorem cut_ok {e : Expr} (h : e.height ≤ levels) : Cut levels t (.ok e) (.ok e) := by
  refine .same fun e' he' => ?_
  cases he'
  exact h

/-- A part that no limit applies to. -/
theorem cut_bind {x : Except Flaw α} {k k' : α → Except Flaw Expr}
    (h : ∀ a, x = .ok a → Cut levels t (k a) (k' a)) : Cut levels t (x >>= k) (x >>= k') := by
  cases x with
  | error f =>
    refine .same fun e he => ?_
    cases he
  | ok a => exact h a rfl

/-- **An operand has one level less**, and what is made of it is higher than it is. -/
theorem Cut.bind {r r' : Except Flaw Expr} {k k' : Expr → Except Flaw Expr}
    (h : Cut levels u r r') (hu : u.height < t.height)
    (hhigher : ∀ a e, k a = .ok e → a.height < e.height)
    (hk : ∀ a, a.height ≤ levels → Cut (levels + 1) t (k a) (k' a)) :
    Cut (levels + 1) t (r >>= k) (r' >>= k') := by
  cases h with
  | same hfits =>
    refine cut_bind fun a ha => ?_
    exact hk a (hfits a ha)
  | tooDeep span htree hexpr =>
    refine .tooDeep span (by omega) fun e he => ?_
    obtain ⟨a, ha, he⟩ := Except.bind_eq_ok_iff.mp he
    have hoperand := hexpr a ha
    have hresult := hhigher a e he
    omega

section
variable {r r' : Except Flaw Expr} (h : Cut levels t r r')
include h

theorem Cut.eq_of_height_le (ht : t.height ≤ levels) : r' = r := by
  cases h with
  | same _ => rfl
  | tooDeep _ htree _ => omega

theorem Cut.eq_ok {e : Expr} (he : r' = .ok e) : r = .ok e ∧ e.height ≤ levels := by
  cases h with
  | same hfits => exact ⟨he, hfits e he⟩
  | tooDeep _ _ _ => cases he

theorem Cut.eq_ok_of_height_le {e : Expr} (hr : r = .ok e) (he : e.height ≤ levels) :
    r' = .ok e := by
  cases h with
  | same _ => exact hr
  | tooDeep _ _ hexpr =>
    have hhigh := hexpr e hr
    omega

theorem Cut.exists_tooDeep {e : Expr} (hr : r = .ok e) (he : levels < e.height) :
    ∃ span, r' = .error ⟨.tooDeep, span⟩ := by
  cases h with
  | same hfits =>
    have hlow := hfits e hr
    omega
  | tooDeep span _ _ => exact ⟨span, rfl⟩

end

theorem cut_literal (t u : Tree κ) (s : String) :
    Cut (levels + 1) t (literal u s) (literal u s) := by
  refine .same fun e he => ?_
  obtain ⟨v, rfl, -⟩ := literal_eq_ok he
  rw [Expr.height]
  omega

variable [Tagged κ]

theorem cut_withinChildren {body body' : Tree κ → List (Tree κ) → Except Flaw Expr}
    (h : ∀ v vs, u.children = v :: vs → Cut levels t (body v vs) (body' v vs)) :
    Cut levels t (withinChildren u body) (withinChildren u body') := by
  unfold withinChildren
  split
  · exact cut_flaw _
  · rename_i v vs hchildren
    exact h v vs hchildren

/-- The argument list of a callee, from its opening parenthesis. -/
theorem cut_withinArguments {name : String} {callee : Tree κ} {later : List (Tree κ)}
    {body body' : Tree κ → List (Tree κ) → Except Flaw Expr}
    (h : ∀ args us opening vs, later = args :: us → args.children = opening :: vs →
      Cut levels t (body opening vs) (body' opening vs)) :
    Cut levels t (withinArguments name callee later body)
      (withinArguments name callee later body') := by
  refine cut_bind fun x hx => ?_
  dsimp only
  split
  · refine cut_withinChildren fun opening vs hargs => ?_
    split
    · exact h x.1 x.2 opening vs (next_eq_ok hx) hargs
    · exact cut_flaw _
  · exact cut_flaw _

section Operand
variable {operand operand' : Tree κ → Except Flaw Expr}
variable (hoperand : ∀ u, Cut levels u (operand u) (operand' u))
include hoperand

omit [Tagged κ] in
/-- The last operand, whatever is checked behind it. -/
theorem cut_lastOperand {x : Except Flaw α} {make : Expr → Expr} (hu : u.height < t.height)
    (hhigher : ∀ a, a.height < (make a).height)
    (hfits : ∀ a, a.height ≤ levels → (make a).height ≤ levels + 1) :
    Cut (levels + 1) t (do let a ← operand u; let _ ← x; .ok (make a))
      (do let a ← operand' u; let _ ← x; .ok (make a)) := by
  refine (hoperand u).bind hu (fun a e he => ?_) fun a ha => cut_bind fun _ _ => cut_ok (hfits a ha)
  obtain ⟨_, -, he⟩ := Except.bind_eq_ok_iff.mp he
  cases he
  exact hhigher a

theorem cut_binary (t : Tree κ) :
    Cut (levels + 1) t (binary source operand t) (binary source operand' t) := by
  refine cut_withinChildren fun left later hchildren => ?_
  have hleft : left.height < t.height := Tree.height_lt_of_mem_children (by simp [hchildren])
  refine (hoperand left).bind hleft (fun l e he => ?_) fun l hl => ?_
  · simp only [Except.bind_eq_ok_iff] at he
    obtain ⟨-, -, o, -, -, -, r, -, he⟩ := he
    cases he
    rw [Expr.height]
    omega
  refine cut_bind fun x hx => cut_bind fun o _ => cut_bind fun y hy => ?_
  have hright : y.1.height < t.height :=
    Tree.height_lt_of_mem_children (by simp [hchildren, next_eq_ok hx, next_eq_ok hy])
  refine (hoperand y.1).bind hright (fun r e he => ?_) fun r hr => cut_ok ?_
  · cases he
    rw [Expr.height]
    omega
  · rw [Expr.height]
    omega

theorem cut_call (t : Tree κ) :
    Cut (levels + 1) t (call source operand t) (call source operand' t) := by
  refine cut_withinChildren fun callee later hchildren => ?_
  -- An argument is two levels below the call.
  have hheight : ∀ {args us opening vs}, later = args :: us → args.children = opening :: vs →
      ∀ u ∈ vs, u.height < t.height := by
    intro args us opening vs hlater hargs u hu
    have hlow : u.height < args.height := Tree.height_lt_of_mem_children (by simp [hargs, hu])
    have hhigh : args.height < t.height :=
      Tree.height_lt_of_mem_children (by simp [hchildren, hlater])
    omega
  dsimp only
  split
  · refine cut_withinArguments fun args us opening vs hlater hargs => ?_
    refine cut_bind fun x hx => ?_
    have harg := hheight hlater hargs x.1 (by simp [(nextTo_eq_ok hx).1])
    apply cut_lastOperand hoperand harg
    · intro a
      rw [Expr.height]
      omega
    · intro a ha
      rw [Expr.height]
      omega
  · refine cut_withinArguments fun args us opening vs hlater hargs => ?_
    refine cut_bind fun x hx => ?_
    obtain ⟨rfl, -⟩ := nextTo_eq_ok hx
    have harg₁ := hheight hlater hargs x.1 (by simp)
    refine (hoperand x.1).bind harg₁ (fun a e he => ?_) fun a ha => ?_
    · simp only [Except.bind_eq_ok_iff] at he
      obtain ⟨-, -, -, -, b, -, -, -, he⟩ := he
      cases he
      rw [Expr.height]
      omega
    refine cut_bind fun y hy => cut_bind fun z hz => ?_
    have harg₂ := hheight hlater hargs z.1 (by simp [(nextTo_eq_ok hy).1, (nextTo_eq_ok hz).1])
    apply cut_lastOperand hoperand harg₂
    · intro b
      rw [Expr.height]
      omega
    · intro b hb
      rw [Expr.height]
      omega
  · exact cut_flaw _

end Operand

/-- The expression of a tree, given how to read its operands. -/
def exprBy (source : List Char) (operand : Tree κ → Except Flaw Expr) (t : Tree κ) :
    Except Flaw Expr :=
  match kind? t with
  | some .number => literal t (text source t)
  | some .unaryExpression => do literal t (← withinChildren t (signedText source))
  | some .variableName => .ok (.ref (text source t) t.span)
  | some .binaryExpression => binary source operand t
  | some .callExpression => call source operand t
  | _ => flaw t (.notExpression (Tagged.tag t.kind))

theorem exprWithin_succ (source : List Char) (levels : Nat) (t : Tree κ) :
    exprWithin source (levels + 1) t = exprBy source (exprWithin source levels) t := rfl

theorem exprAt_none (source : List Char) (depth : Nat) (t : Tree κ) :
    exprAt source none depth t = exprBy source (exprAt source none (depth + 1)) t := by
  rw [exprBy, ← binaryAt_eq, ← callAt_eq]
  cases t with
  | node k s ts =>
    rw [exprAt]
    rfl

/-- **A limit cuts the reading of an expression** at the trees that are too deep. -/
theorem cut_exprWithin (source : List Char) (levels depth : Nat) (t : Tree κ) :
    Cut levels t (exprAt source none depth t) (exprWithin source levels t) := by
  -- The depth only numbers the levels of the unlimited reading: no step depends on it.
  induction levels generalizing depth t with
  | zero => exact .tooDeep t.span t.height_pos fun e _ => e.height_pos
  | succ levels ih =>
    rw [exprAt_none, exprWithin_succ, exprBy, exprBy]
    cases kind? t with
    | none => exact cut_flaw _
    | some k =>
      cases k with
      | number => exact cut_literal t t _
      | unaryExpression => exact cut_bind fun s _ => cut_literal t t s
      | variableName => exact cut_ok (Nat.le_add_left 1 levels)
      | binaryExpression => exact cut_binary (ih (depth + 1)) t
      | callExpression => exact cut_call (ih (depth + 1)) t
      | _ => exact cut_flaw _

/-! ## What is read is within the limit -/

section
variable {t : Tree κ}

theorem height_le_of_expr {e : Expr} (h : expr source t = .ok e) : e.height ≤ maxNesting :=
  ((cut_exprWithin source maxNesting 1 t).eq_ok h).2

theorem height_le_of_stmt {s : Stmt} (h : stmt source t = .ok s) :
    s.value.height ≤ maxNesting := by
  rcases stmt_eq_ok h with ⟨-, _, _, _, _, e, -, he, rfl⟩ | ⟨-, _, _, e, -, he, rfl⟩
  · exact height_le_of_expr he
  · exact height_le_of_expr he

theorem height_le_of_program {p : Program} (h : program source t = .ok p) :
    ∀ s ∈ p, s.value.height ≤ maxNesting := by
  intro s hs
  rw [program] at h
  split at h
  · obtain ⟨u, -, hu⟩ := Except.exists_of_mem_of_mapM_eq_ok h hs
    exact height_le_of_stmt hu
  · cases h

end

end Reading

namespace Walk
variable {γ κ : Type} [TreeCursor γ] [Tagged κ] {R : γ → Location κ → Prop}

/-- **A walk keeps the nesting limit on a count of levels**: it reads `e` if they are within the
limit, and else it fails for that reason. -/
structure KeepsLimit (source : List Char) (c : γ) (e : Expr) (levels : Nat) : Prop where
  eq_ok : levels ≤ maxNesting → outcome (expr source) c = .ok e
  tooDeep : maxNesting < levels →
    ∃ err, outcome (expr source) c = .error err ∧ err.kind = .nestingTooDeep

/-- A walk keeps the limit on the height of the expression that it would read without one. -/
theorem keepsLimit_height_expr (hR : Conforms R) {source : List Char} {c : γ} {l : Location κ}
    (hc : R c l) {e : Expr} (h : Reading.exprAt source none 1 l.focus = .ok e) :
    KeepsLimit source c e e.height := by
  have hwalk : outcome (exprWithin source maxNesting) c =
      (Reading.exprWithin source maxNesting l.focus).mapError (·.report source) :=
    (ends_exprWithin hR maxNesting l).outcome_eq hc
  have hcut := Reading.cut_exprWithin source maxNesting 1 l.focus
  refine ⟨fun hfits => ?_, fun hhigh => ?_⟩
  · rw [expr, hwalk, hcut.eq_ok_of_height_le h hfits]
    rfl
  · obtain ⟨span, hdeep⟩ := hcut.exists_tooDeep h hhigh
    rw [expr, hwalk, hdeep]
    exact ⟨_, rfl, rfl⟩

/-- **The nesting limit is exact on the height of expressions.**  Without the limit a walk would
come to what its subtree says by recursion on the subtree (`Reading.exprAt` with no limit), and
walks that are given at least as many levels as the subtree has do come to that.  If this is an
expression, the walk reads it if its height is within the limit, and else finds that it is nested
too deep.  What the walk reads is never anything else.  So no expression that is read, alone, in
a statement or in a program, is higher than the limit. -/
theorem limit_exact_on_height (hR : Conforms R) (source : List Char) {c : γ} {l : Location κ}
    (hc : R c l) :
    let unlimited := (Reading.exprAt source none 1 l.focus).mapError (·.report source)
    (∀ levels, l.focus.height ≤ levels → outcome (exprWithin source levels) c = unlimited) ∧
    (∀ e, unlimited = .ok e →
      (e.height ≤ maxNesting → outcome (expr source) c = .ok e) ∧
      (maxNesting < e.height →
        ∃ err, outcome (expr source) c = .error err ∧ err.kind = .nestingTooDeep)) ∧
    (∀ e, outcome (expr source) c = .ok e → unlimited = .ok e ∧ e.height ≤ maxNesting) ∧
    (∀ s, outcome (stmt source) c = .ok s → s.value.height ≤ maxNesting) ∧
    ∀ p, outcome (program source) c = .ok p → ∀ s ∈ p, s.value.height ≤ maxNesting := by
  intro unlimited
  have hwalk : ∀ levels, outcome (exprWithin source levels) c =
      (Reading.exprWithin source levels l.focus).mapError (·.report source) :=
    fun levels => (ends_exprWithin hR levels l).outcome_eq hc
  have hcut : ∀ levels, Reading.Cut levels l.focus (Reading.exprAt source none 1 l.focus)
      (Reading.exprWithin source levels l.focus) :=
    fun levels => Reading.cut_exprWithin source levels 1 l.focus
  simp only [unlimited, Except.mapError_eq_ok_iff]
  refine ⟨fun levels hlevels => ?_, fun e he => ?_, fun e he => ?_, fun s hs => ?_, fun p hp => ?_⟩
  · rw [hwalk, (hcut levels).eq_of_height_le hlevels]
  · have hkeeps := keepsLimit_height_expr hR hc he
    exact ⟨hkeeps.eq_ok, hkeeps.tooDeep⟩
  · rw [expr, hwalk, Except.mapError_eq_ok_iff] at he
    exact (hcut maxNesting).eq_ok he
  · rw [(ends_stmt hR l).outcome_eq hc, Except.mapError_eq_ok_iff] at hs
    exact Reading.height_le_of_stmt hs
  · rw [outcome_program hR hc, Except.mapError_eq_ok_iff] at hp
    exact Reading.height_le_of_program hp

/-- A sum of 256 ones is read, and one of 257 is too deep.  The spans of its tree overlap. -/
theorem limit_exact_on_height_sum :
    let source := "1+1".toList
    let chain (n : Nat) : Tree NodeKind := n.repeat (fun t => .node .binaryExpression ⟨0, 3⟩
      [t, .leaf .arithOp ⟨1, 2⟩, .leaf .number ⟨2, 3⟩]) (.leaf .number ⟨0, 1⟩)
    let sum (n : Nat) : Expr := n.repeat (fun e => .binary .add e (.num 1)) (.num 1)
    outcome (expr source) (chain 255).top = .ok (sum 255) ∧
      ∃ err, outcome (expr source) (chain 256).top = .error err ∧ err.kind = .nestingTooDeep := by
  intro source chain sum
  have hread : Reading.exprAt source none 1 (chain 255) = .ok (sum 255) := by decide +kernel
  have hread' : Reading.exprAt source none 1 (chain 256) = .ok (sum 256) := by decide +kernel
  have hheight : (sum 255).height ≤ maxNesting ∧ maxNesting < (sum 256).height := by
    decide +kernel
  have hexact := limit_exact_on_height conforms_location source (Eq.refl (chain 255).top)
  have hexact' := limit_exact_on_height conforms_location source (Eq.refl (chain 256).top)
  exact ⟨(hexact.2.1 _ (congrArg (Except.mapError _) hread)).1 hheight.1,
    (hexact'.2.1 _ (congrArg (Except.mapError _) hread')).2 hheight.2⟩

end Walk

end ArithWat
