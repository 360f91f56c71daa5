import ArithWat.Proofs.Storage

/-!
# A walk sees nothing but its subtree

What a walk comes to depends on the subtree that it begins on, and on that only through tags
and spans: what stands beside and above the subtree does not matter, nor which cursor is used
and how it got there (`Walk.outcome_eq_of_tags_eq`).

Two cursors may conform to trees with different sorts of kinds.  So the kinds are replaced by
their tags: a cursor that conforms to a tree conforms to the tree of tags as well
(`Conforms.tags`), and two subtrees that show the same are then one and the same.

`Reading` counts the levels down that an expression may still have.  `Reading.exprAt` reads an
expression by recursion on its tree instead and counts its depth up, with or without a limit;
within a limit the two agree (`Reading.expr_eq_exprAt`).
-/

namespace ArithWat

/-! ## Trees of tags -/

section
variable {κ : Type} [Tagged κ]

namespace Tree

mutual

/-- **What a tree shows**: the tree with its kinds replaced by their tags. -/
def tags : Tree κ → Tree String
  | node k s ts => node (Tagged.tag k) s (forestTags ts)

/-- What some trees show. -/
def forestTags : List (Tree κ) → List (Tree String)
  | [] => []
  | t :: ts => t.tags :: forestTags ts

end

theorem forestTags_eq (ts : List (Tree κ)) : forestTags ts = ts.map tags := by
  induction ts with
  | nil => rfl
  | cons t ts ih => rw [forestTags, ih, List.map_cons]

theorem tags_node (k : κ) (s : Span) (ts : List (Tree κ)) :
    (node k s ts).tags = node (Tagged.tag k) s (ts.map tags) := by
  rw [tags, forestTags_eq]

@[simp] theorem kind_tags (t : Tree κ) : t.tags.kind = Tagged.tag t.kind := by
  cases t with | node k s ts => rfl

@[simp] theorem span_tags (t : Tree κ) : t.tags.span = t.span := by
  cases t with | node k s ts => rfl

@[simp] theorem children_tags (t : Tree κ) : t.tags.children = t.children.map tags := by
  cases t with | node k s ts => exact forestTags_eq ts

end Tree

namespace Location

/-- The same place in the tree of tags. -/
def tags (l : Location κ) : Location String where
  focus := l.focus.tags
  above := l.above.map fun c =>
    ⟨Tagged.tag c.kind, c.span, c.before.map Tree.tags, c.later.map Tree.tags⟩

theorem firstChild?_tags (l : Location κ) : l.tags.firstChild? = l.firstChild?.map tags := by
  obtain ⟨⟨k, s, ts⟩, above⟩ := l
  rcases ts with _ | ⟨t, ts⟩
  · rfl
  · simp only [tags, Tree.tags_node, List.map_cons, firstChild?]
    rfl

theorem nextSibling?_tags (l : Location κ) : l.tags.nextSibling? = l.nextSibling?.map tags := by
  obtain ⟨focus, above⟩ := l
  rcases above with _ | ⟨⟨k, s, before, later⟩, above⟩
  · rfl
  · rcases later with _ | ⟨t, ts⟩
    · rfl
    · rfl

theorem parent?_tags (l : Location κ) : l.tags.parent? = l.parent?.map tags := by
  obtain ⟨focus, above⟩ := l
  rcases above with _ | ⟨⟨k, s, before, later⟩, above⟩
  · rfl
  · simp [tags, parent?, Tree.tags_node]

end Location

/-- **A cursor that conforms to trees conforms to the trees of their tags.** -/
theorem Conforms.tags {γ : Type} [TreeCursor γ] {R : γ → Location κ → Prop} (hR : Conforms R) :
    Conforms fun (c : γ) (m : Location String) => ∃ l, R c l ∧ l.tags = m := by
  -- Moves are made on both sides of `R`, and tags go along with the location.
  have hmove : ∀ {x : Option γ} {y : Option (Location κ)}, Option.Rel R x y →
      Option.Rel (fun (c : γ) (m : Location String) => ∃ l, R c l ∧ l.tags = m) x
        (y.map Location.tags) := by
    intro x y h
    cases h with
    | none => exact .none
    | some h => exact .some ⟨_, h, rfl⟩
  constructor <;> rintro c _ ⟨l, hc, rfl⟩
  · rw [hR.tag hc]
    exact l.focus.kind_tags.symm
  · rw [hR.span hc]
    exact l.focus.span_tags.symm
  · rw [hR.childCount hc]
    simp [Location.tags]
  · rw [l.firstChild?_tags]
    exact hmove (hR.firstChild? hc)
  · rw [l.nextSibling?_tags]
    exact hmove (hR.nextSibling? hc)
  · rw [l.parent?_tags]
    exact hmove (hR.parent? hc)

end

/-! ## Reading an expression by recursion on its tree -/

namespace Reading
variable {κ : Type} [Tagged κ] (source : List Char) (limit : Option Nat)

mutual

/-- **The expression of a tree, by recursion on the tree.**  The root is `depth` levels deep in
the expression that is read, and no level may be deeper than the limit, if there is one. -/
def exprAt (depth : Nat) : Tree κ → Except Flaw Expr
  | .node k s ts =>
    let t : Tree κ := .node k s ts
    if limit.any (· < depth) then flaw t .tooDeep
    else
      match kind? t with
      | some .number => literal t (text source t)
      | some .unaryExpression => do literal t (← withinChildren t (signedText source))
      | some .variableName => .ok (.ref (text source t) s)
      | some .binaryExpression => binaryAt depth t ts
      | some .callExpression => callAt depth t ts
      | _ => flaw t (.notExpression (Tagged.tag k))
termination_by structural t => t

/-- The binary expression `t`, from its children. -/
def binaryAt (depth : Nat) (t : Tree κ) : List (Tree κ) → Except Flaw Expr
  | [] => flaw t (.childless (Tagged.tag t.kind))
  | left :: later => do
    let l ← exprAt (depth + 1) left
    match later with
    | [] => flaw left (.lacks .operator (Tagged.tag left.kind))
    | op :: later => do
      let o ← operator source op
      match later with
      | [] => flaw op (.lacks .rightOperand (Tagged.tag op.kind))
      | right :: _ => do
        let r ← exprAt (depth + 1) right
        .ok (.binary o l r)
termination_by structural ts => ts

/-- The call `t`, from its children. -/
def callAt (depth : Nat) (t : Tree κ) : List (Tree κ) → Except Flaw Expr
  | [] => flaw t (.childless (Tagged.tag t.kind))
  | callee :: later =>
    let name := text source callee
    match UnaryBuiltin.ofName? name, BinaryBuiltin.ofName? name with
    | some f, _ => argListAt depth name callee (.unary f) later
    | none, some f => argListAt depth name callee (.binary f) later
    | none, none => flaw callee (.unknownBuiltin name)
termination_by structural ts => ts

/-- A call of `f`, from what stands after the callee. -/
def argListAt (depth : Nat) (name : String) (callee : Tree κ) (f : Builtin) :
    List (Tree κ) → Except Flaw Expr
  | [] => flaw callee (.lacks .argumentList (Tagged.tag callee.kind))
  | .node k s us :: _ =>
    let args : Tree κ := .node k s us
    if kind? args = some .argList then
      match us with
      | [] => flaw args (.childless (Tagged.tag k))
      | opening :: us =>
        if kind? opening = some .openParen then argumentsAt depth name opening f us
        else flaw opening (.noOpenParen name)
    else flaw args (.noArgumentList name)
termination_by structural ts => ts

/-- A call of `f`, from what stands after the opening parenthesis. -/
def argumentsAt (depth : Nat) (name : String) (opening : Tree κ) (f : Builtin) :
    List (Tree κ) → Except Flaw Expr
  | [] => flaw opening (.missingArgument name)
  | arg :: later =>
    if Walk.isArgument (kind? arg) then do
      let e ← exprAt (depth + 1) arg
      match f, later with
      | .unary f, later => do
        let _ ← nextTo (· = some .closeParen) (.notClosed name) arg later
        .ok (.call1 f e)
      | .binary _, [] => flaw arg (.noComma name)
      | .binary f, comma :: later =>
        if kind? comma = some .comma then secondAt depth name f e comma later
        else flaw comma (.noComma name)
    else flaw arg (.missingArgument name)
termination_by structural ts => ts

/-- A call of `f` with the first argument `e`, from what stands after the comma. -/
def secondAt (depth : Nat) (name : String) (f : BinaryBuiltin) (e : Expr) (comma : Tree κ) :
    List (Tree κ) → Except Flaw Expr
  | [] => flaw comma (.missingArgument name)
  | arg :: later =>
    if Walk.isArgument (kind? arg) then do
      let e' ← exprAt (depth + 1) arg
      let _ ← nextTo (· = some .closeParen) (.notClosed name) arg later
      .ok (.call2 f e e')
    else flaw arg (.missingArgument name)
termination_by structural ts => ts

end

variable (depth : Nat)

theorem binaryAt_eq (t : Tree κ) :
    binaryAt source limit depth t t.children =
      binary source (exprAt source limit (depth + 1)) t := by
  rw [binary, withinChildren]
  rcases t.children with _ | ⟨left, later⟩
  · rw [binaryAt]
  · rw [binaryAt]
    refine bind_congr fun l => ?_
    rcases later with _ | ⟨op, later⟩
    · rfl
    · change (operator source op >>= _) = (operator source op >>= _)
      refine bind_congr fun o => ?_
      rcases later with _ | ⟨right, later⟩
      · rfl
      · rfl

theorem secondAt_eq (name : String) (f : BinaryBuiltin) (e : Expr) (comma : Tree κ)
    (later : List (Tree κ)) :
    secondAt source limit depth name f e comma later = (do
      let (arg, later) ← nextTo Walk.isArgument (.missingArgument name) comma later
      let e' ← exprAt source limit (depth + 1) arg
      let _ ← nextTo (· = some .closeParen) (.notClosed name) arg later
      .ok (.call2 f e e')) := by
  rcases later with _ | ⟨arg, later⟩
  · rw [secondAt]
    rfl
  · rw [secondAt, nextTo]
    split
    · rfl
    · rfl

theorem argumentsAt_unary (name : String) (opening : Tree κ) (f : UnaryBuiltin)
    (later : List (Tree κ)) :
    argumentsAt source limit depth name opening (.unary f) later = (do
      let (arg, later) ← nextTo Walk.isArgument (.missingArgument name) opening later
      let e ← exprAt source limit (depth + 1) arg
      let _ ← nextTo (· = some .closeParen) (.notClosed name) arg later
      .ok (.call1 f e)) := by
  rcases later with _ | ⟨arg, later⟩
  · rw [argumentsAt]
    rfl
  · rw [argumentsAt, nextTo]
    split
    · rfl
    · rfl

theorem argumentsAt_binary (name : String) (opening : Tree κ) (f : BinaryBuiltin)
    (later : List (Tree κ)) :
    argumentsAt source limit depth name opening (.binary f) later = (do
      let (arg₁, later) ← nextTo Walk.isArgument (.missingArgument name) opening later
      let e₁ ← exprAt source limit (depth + 1) arg₁
      let (comma, later) ← nextTo (· = some .comma) (.noComma name) arg₁ later
      let (arg₂, later) ← nextTo Walk.isArgument (.missingArgument name) comma later
      let e₂ ← exprAt source limit (depth + 1) arg₂
      let _ ← nextTo (· = some .closeParen) (.notClosed name) arg₂ later
      .ok (.call2 f e₁ e₂)) := by
  rcases later with _ | ⟨arg, later⟩
  · rw [argumentsAt]
    rfl
  · rw [argumentsAt, nextTo]
    split
    · refine bind_congr fun e => ?_
      rcases later with _ | ⟨comma, later⟩
      · rfl
      · simp only [secondAt_eq, nextTo, decide_eq_true_eq]
        split
        · rfl
        · rfl
    · rfl

theorem argListAt_eq (name : String) (callee : Tree κ) (f : Builtin) (later : List (Tree κ)) :
    argListAt source limit depth name callee f later =
      withinArguments name callee later fun opening later =>
        argumentsAt source limit depth name opening f later := by
  rcases later with _ | ⟨⟨k, s, us⟩, later⟩
  · rw [argListAt]
    rfl
  · rcases us with _ | ⟨opening, us⟩
    · rw [argListAt]
      rfl
    · rw [argListAt]
      rfl

theorem callAt_eq (t : Tree κ) :
    callAt source limit depth t t.children =
      call source (exprAt source limit (depth + 1)) t := by
  rw [call, withinChildren]
  rcases t.children with _ | ⟨callee, later⟩
  · rw [callAt]
  · rw [callAt]
    dsimp only
    cases UnaryBuiltin.ofName? (text source callee) with
    | some f => simp only [argListAt_eq, argumentsAt_unary]
    | none =>
      cases BinaryBuiltin.ofName? (text source callee) with
      | some f => simp only [argListAt_eq, argumentsAt_binary]
      | none => rfl

/-- **Counting levels down is counting the depth up**, within a limit. -/
theorem exprAt_eq_exprWithin (limit depth : Nat) (t : Tree κ) :
    exprAt source (some limit) depth t = exprWithin source (limit + 1 - depth) t := by
  generalize hlevels : limit + 1 - depth = levels
  induction levels generalizing depth t with
  | zero =>
    have hdeep : limit < depth := by omega
    cases t with
    | node k s ts =>
      rw [exprAt, Option.any_some, if_pos (decide_eq_true hdeep)]
      rfl
  | succ levels ih =>
    have hdeep : ¬limit < depth := by omega
    have hoperand : exprAt source (some limit) (depth + 1) = exprWithin (κ := κ) source levels :=
      funext fun u => ih (depth + 1) u (by omega)
    have hbinary := binaryAt_eq source (some limit) depth t
    have hcall := callAt_eq source (some limit) depth t
    rw [hoperand] at hbinary hcall
    cases t with
    | node k s ts =>
      rw [exprAt, Option.any_some, if_neg (by simpa using hdeep), exprWithin]
      rw [Tree.children] at hbinary hcall
      rw [hbinary, hcall]
      rfl

/-- **The expression of a tree is read by recursion on the tree.** -/
theorem expr_eq_exprAt : expr (κ := κ) source = exprAt source (some maxNesting) 1 :=
  funext fun t => (exprAt_eq_exprWithin source maxNesting 1 t).symm

end Reading

/-! ## Walks from two cursors -/

namespace Walk
variable {γ γ' κ κ' : Type} [TreeCursor γ] [TreeCursor γ'] [Tagged κ] [Tagged κ']
variable {R : γ → Location κ → Prop} {R' : γ' → Location κ' → Prop}

/-- **What a walk comes to is what the subtree under the cursor says**, for each of the four
entrances; that of an expression is read by recursion on the subtree. -/
theorem outcome_eq_reading (hR : Conforms R) (source : List Char) {c : γ} {l : Location κ}
    (hc : R c l) :
    outcome (program source) c = (Reading.program source l.focus).mapError (·.report source) ∧
      outcome (stmt source) c = (Reading.stmt source l.focus).mapError (·.report source) ∧
      outcome (expr source) c =
        (Reading.exprAt source (some maxNesting) 1 l.focus).mapError (·.report source) ∧
      outcome (operator source) c =
        (Reading.operator source l.focus).mapError (·.report source) := by
  rw [← Reading.expr_eq_exprAt]
  refine ⟨?_, ?_, ?_, ?_⟩
  · exact (ends_program hR l).outcome_eq hc
  · exact (ends_stmt hR l).outcome_eq hc
  · exact (ends_exprWithin hR maxNesting l).outcome_eq hc
  · exact (ends_operator hR l).outcome_eq hc

/-- **A walk sees nothing but the subtree that it begins on.**  Two cursors, of two sorts and in
two trees, that stand on subtrees with the same tags, spans and children come to the same with
each of the four entrances, a failure in every detail.  What they come to is what the subtree
says: a program and a statement are read off lists of children, and an expression by recursion
on its tree. -/
theorem outcome_eq_of_tags_eq (hR : Conforms R) (hR' : Conforms R') (source : List Char)
    {c : γ} {l : Location κ} (hc : R c l) {c' : γ'} {l' : Location κ'} (hc' : R' c' l')
    (htags : l.focus.tags = l'.focus.tags) :
    (outcome (program source) c = outcome (program source) c' ∧
      outcome (stmt source) c = outcome (stmt source) c' ∧
      outcome (expr source) c = outcome (expr source) c' ∧
      outcome (operator source) c = outcome (operator source) c') ∧
    outcome (program source) c = (Reading.program source l.focus).mapError (·.report source) ∧
      outcome (stmt source) c = (Reading.stmt source l.focus).mapError (·.report source) ∧
      outcome (expr source) c =
        (Reading.exprAt source (some maxNesting) 1 l.focus).mapError (·.report source) ∧
      outcome (operator source) c =
        (Reading.operator source l.focus).mapError (·.report source) ∧
      (Reading.expr source : Tree κ → Except Flaw Expr) =
        Reading.exprAt source (some maxNesting) 1 := by
  obtain ⟨hprogram₀, hstmt₀, hexpr₀, hoperator₀⟩ := outcome_eq_reading hR source hc
  refine ⟨?_, hprogram₀, hstmt₀, hexpr₀, hoperator₀, Reading.expr_eq_exprAt source⟩
  have hread := outcome_eq_reading hR.tags source ⟨l, hc, rfl⟩
  have hread' := outcome_eq_reading hR'.tags source ⟨l', hc', rfl⟩
  have hfocus : l.tags.focus = l'.tags.focus := htags
  rw [hfocus] at hread
  obtain ⟨hprogram, hstmt, hexpr, hoperator⟩ := hread
  obtain ⟨hprogram', hstmt', hexpr', hoperator'⟩ := hread'
  exact ⟨hprogram.trans hprogram'.symm, hstmt.trans hstmt'.symm, hexpr.trans hexpr'.symm,
    hoperator.trans hoperator'.symm⟩

/-- The second statement of a script, in the table of the script's tree, and the same statement
as the first child of a node that no grammar knows, with a comment behind it. -/
theorem outcome_eq_of_tags_eq_foreign :
    let source := "a\nabs(b)".toList
    let t : Tree NodeKind := .node .script ⟨0, 8⟩
      [.node .expressionStatement ⟨0, 1⟩ [.leaf .variableName ⟨0, 1⟩],
       .node .expressionStatement ⟨2, 8⟩ [.node .callExpression ⟨2, 8⟩
        [.leaf .variableName ⟨2, 5⟩, .node .argList ⟨5, 8⟩
          [.leaf .openParen ⟨5, 6⟩, .leaf .variableName ⟨6, 7⟩, .leaf .closeParen ⟨7, 8⟩]]]]
    let l' : Location String :=
      ⟨.node "ExpressionStatement" ⟨2, 8⟩ [.node "CallExpression" ⟨2, 8⟩
        [.leaf "VariableName" ⟨2, 5⟩, .node "ArgList" ⟨5, 8⟩
          [.leaf "(" ⟨5, 6⟩, .leaf "VariableName" ⟨6, 7⟩, .leaf ")" ⟨7, 8⟩]]],
        [⟨"Block", ⟨9, 1⟩, [], [.leaf "Comment" ⟨0, 99⟩]⟩]⟩
    ∃ c, NodeTable.Cursor.at? (NodeTable.ofTree t) 8 = some c ∧
      outcome (stmt source) c = outcome (stmt source) l' ∧
      outcome (stmt source) l' = .ok (.expr (.call1 .abs (.ref "b" ⟨6, 7⟩))) := by
  intro source t l'
  obtain ⟨c, hat, hc⟩ := (NodeTable.at?_row (t := t) (l := ⟨_, [⟨.script, ⟨0, 8⟩,
    [.node .expressionStatement ⟨0, 1⟩ [.leaf .variableName ⟨0, 1⟩]], []⟩]⟩) rfl).exists_eq_some
  obtain ⟨⟨-, hstmt, -, -⟩, -⟩ :=
    outcome_eq_of_tags_eq NodeTable.conforms_at conforms_location source hc (Eq.refl l') rfl
  exact ⟨c, hat, hstmt, by decide +kernel⟩

end Walk

end ArithWat
