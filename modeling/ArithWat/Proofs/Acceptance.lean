import ArithWat.Proofs.Supported

/-!
# Which scripts have a program

The tree of a script is read exactly if it is supported, and what else can be wrong with a tree
is never wrong with that of a script (`Walk.program_eq_ok_iff_isSupported`): no node lacks a part
or has a wrong one in its place, and a tree that keeps to the nesting limit is not too deep to be
read.

The proof goes along the derivation of the script.  A derived expression is *decided*: it is read
if it is supported, as long as there are as many levels left as it has (`Decided`).  What is
called is recognised by its text alone, and so a callee that is no name must not have the text of
one: it is a number, or it ends with a parenthesis (`IsApplied.callee`).
-/

namespace ArithWat
open Grammar

/-! ## Expressions -/

namespace Grammar
open Reading
variable {source : List Char}

/-- **A tree of an expression that is read if it is supported**, as long as there are levels for
it. -/
structure Decided (source : List Char) (t : Tree NodeKind) : Prop where
  kind : isExpression t.kind = true ∨ t.kind = .parenthesizedExpression
  decides : ∀ n, t.height ≤ n → Decides (t.IsSupported source) t (exprWithin source n t)

theorem Decided.kind_ne {t : Tree NodeKind} (h : Decided source t) {k : NodeKind}
    (hk : isExpression k = false) (hgroup : k ≠ .parenthesizedExpression) : t.kind ≠ k := by
  rintro rfl
  rcases h.kind with hkind | hkind
  · rw [hk] at hkind
    cases hkind
  · exact hgroup hkind

theorem Decided.isExpression {t : Tree NodeKind} (h : Decided source t)
    (hsupported : t.IsSupported source) : isExpression t.kind = true := by
  rcases h.kind with hkind | hkind
  · exact hkind
  · have hnode := hsupported.node t t.mem_subtrees_self
    cases t with
    | node k s ts =>
      obtain rfl := hkind
      exact hnode.elim

/-- A tree that has levels left for its children is decided by one step. -/
theorem Decided.of_succ {t : Tree NodeKind}
    (hkind : Grammar.isExpression t.kind = true ∨ t.kind = .parenthesizedExpression)
    (h : ∀ n, (∀ u ∈ t.children, u.height ≤ n) →
      Decides (t.IsSupported source) t (exprWithin source (n + 1) t)) : Decided source t := by
  refine ⟨hkind, fun n hn => ?_⟩
  cases n with
  | zero => exact absurd hn (Nat.not_le_of_lt t.height_pos)
  | succ n =>
    refine h n fun u hu => ?_
    have hlt := Tree.height_lt_of_mem_children hu
    omega

theorem decided_number {l : Lexeme} (hl : l.Genuine source) :
    Decided source (leaf .number l) := by
  refine .of_succ (.inl rfl) fun n _ => ?_
  change Decides _ _ (literal (leaf .number l) (text source (leaf .number l)))
  rw [hl.text_leaf, Tree.isSupported_number hl]
  exact decides_literal _ _

theorem decided_name (l : Lexeme) : Decided source (leaf .variableName l) := by
  refine .of_succ (.inl rfl) fun n _ => ?_
  exact Tree.isSupported_leaf rfl (by simp) l

/-- An expression in parentheses is a flaw by itself. -/
theorem decided_group (first : Tree NodeKind) (more : List (Tree NodeKind)) :
    Decided source (.spanning .parenthesizedExpression first more) := by
  refine .of_succ (.inr rfl) fun n _ => ?_
  refine ⟨fun h => ?_, .inr ⟨rfl, _, Tree.mem_subtrees_self _, rfl, rfl⟩⟩
  exact h.node _ (Tree.mem_subtrees_self _)

/-- A binary expression is supported if its operator and its operands are. -/
theorem isSupported_binary {left right : Tree NodeKind} {op : Lexeme} (hl : Decided source left)
    (hr : Decided source right) (hop : op.Genuine source) :
    (Tree.spanning .binaryExpression left [leaf .arithOp op, right]).IsSupported source ↔
      left.IsSupported source ∧ op.text ∈ ["+", "-", "*"] ∧ right.IsSupported source := by
  have hleft : left.kind ≠ .arithOp := hl.kind_ne rfl (by simp)
  have hright : right.kind ≠ .arithOp := hr.kind_ne rfl (by simp)
  have hword : (leaf .arithOp op).IsSupported source := Tree.isSupported_leaf rfl (by simp) op
  have htext : (leaf .arithOp op).span.text source = op.text := hop.text_eq
  rw [Tree.spanning, Tree.isSupported_node (by simp) (by simp)]
  simp only [Tree.IsSupportedNode, List.forall_mem_cons, hleft, hright, hword, htext, kind_leaf,
    List.not_mem_nil, false_implies, implies_true, true_implies, true_and, and_true]
  exact and_left_comm

theorem decided_binary {left right : Tree NodeKind} {op : Lexeme} (hl : Decided source left)
    (hr : Decided source right) (hop : op.Genuine source) :
    Decided source (.spanning .binaryExpression left [leaf .arithOp op, right]) := by
  refine .of_succ (.inl rfl) fun n hn => ?_
  have hleft : left ∈ (Tree.spanning .binaryExpression left [leaf .arithOp op, right]).children :=
    .head _
  have hright :
      right ∈ (Tree.spanning .binaryExpression left [leaf .arithOp op, right]).children :=
    .tail _ (.tail _ (.head _))
  have hl' := (hl.decides n (hn _ hleft)).of_subset (Tree.subtrees_subset hleft)
  have hr' := (hr.decides n (hn _ hright)).of_subset (Tree.subtrees_subset hright)
  have hread := hl'.bind fun l _ => (decides_operator hop).bind fun o _ => hr'.map (Expr.binary o l)
  rw [isSupported_binary hl hr hop]
  exact hread

theorem text_of_isAdditive {l : Lexeme} (hl : l.Genuine source) (h : l.token.isAdditive = true) :
    l.text = "+" ∨ l.text = "-" := by
  obtain ⟨token, text, span⟩ := l
  have hspells : token.Spells text.toList := hl.spells
  have htext : text = String.ofList text.toList := String.ofList_toList.symm
  change text = "+" ∨ text = "-"
  rw [htext]
  cases token with
  | plus => exact .inl (by rw [hspells])
  | minus => exact .inr (by rw [hspells])
  | _ => cases h

/-- A sign is read if a number follows it. -/
theorem signedText_leaf {op : Lexeme} (hop : op.Genuine source)
    (hsign : op.token.isAdditive = true) (t : Tree NodeKind) :
    signedText source (leaf .arithOp op) [t] =
      if t.kind = .number then .ok (op.text ++ text source t) else flaw t .signWithoutNumber := by
  have hkind : kind? (leaf .arithOp op) = some .arithOp := kind?_eq_kind _
  have htext : (decide (op.text = "+") || decide (op.text = "-")) = true := by
    simpa using text_of_isAdditive hop hsign
  rw [signedText, hop.text_leaf, hkind, htext, if_pos (by simp)]
  simp only [next, Except.ok_bind, kind?_eq_kind, Option.some.injEq]

theorem decided_signed {op : Lexeme} {t : Tree NodeKind} (hop : op.Genuine source)
    (hsign : op.token.isAdditive = true)
    (hnumber : t.kind = .number → ∃ l, l.Genuine source ∧ t = leaf .number l) :
    Decided source (.spanning .unaryExpression (leaf .arithOp op) [t]) := by
  refine .of_succ (.inl rfl) fun n _ => ?_
  change Decides _ _ (signedText source (leaf .arithOp op) [t] >>= literal _)
  rw [signedText_leaf hop hsign]
  by_cases hkind : t.kind = .number
  · obtain ⟨l, hl, rfl⟩ := hnumber hkind
    rw [if_pos hkind, Except.ok_bind, hl.text_leaf, Tree.isSupported_signed hop hl]
    exact decides_literal _ _
  · rw [if_neg hkind]
    refine decides_flaw rfl (fun h => ?_) t
    obtain ⟨_, _, hchildren, hkind'⟩ := h.node _ (Tree.mem_subtrees_self _)
    cases hchildren
    exact hkind hkind'

/-! ## Calls -/

/-- What stands between the parentheses of an argument list: decided expressions, with commas
between them. -/
inductive DecidedArguments (source : List Char) : List (Tree NodeKind) → Prop
  | none : DecidedArguments source []
  | last {t} : Decided source t → DecidedArguments source [t]
  | more {t ts} (l) : Decided source t → DecidedArguments source ts →
      DecidedArguments source (t :: leaf .comma l :: ts)

theorem Decided.isArgument {t : Tree NodeKind} (h : Decided source t) :
    Walk.isArgument (some t.kind) = true := by
  cases hkind : t.kind with
  | openParen | closeParen | comma => exact absurd hkind (h.kind_ne rfl (by simp))
  | _ => rfl

section
variable {ts : List (Tree NodeKind)} {t prev : Tree NodeKind} {n : Nat} {name : String}

/-- **A last argument is read if there is one**, it is supported, and it is the last. -/
theorem decides_lastArgument (hts : DecidedArguments source ts) (hn : ∀ u ∈ ts, u.height ≤ n)
    (hsub : ∀ u ∈ ts, u.subtrees ⊆ t.subtrees) (l : Lexeme) (make : Expr → Expr) :
    Decides (∃ e, ts = [e] ∧ e.IsSupported source) t (do
      let (arg, later) ←
        nextTo Walk.isArgument (.missingArgument name) prev (ts ++ [leaf .closeParen l])
      let e ← exprWithin source n arg
      let _ ← nextTo (· = some .closeParen) (.notClosed name) arg later
      .ok (make e)) := by
  cases hts with
  | none =>
    rw [List.nil_append, nextTo_neg rfl]
    refine decides_flaw rfl ?_ _
    rintro ⟨e, hts, -⟩
    cases hts
  | @last e he =>
    have hread := (he.decides n (hn e (.head _))).of_subset (hsub e (.head _))
    rw [List.singleton_append, nextTo_pos he.isArgument, Except.ok_bind]
    refine (hread.bind (Q := True) fun a _ => ?_).congr (by simp)
    rw [nextTo_pos rfl]
    trivial
  | @more e ts comma he hts =>
    have hread := (he.decides n (hn e (.head _))).of_subset (hsub e (.head _))
    rw [List.cons_append, List.cons_append, nextTo_pos he.isArgument, Except.ok_bind]
    refine (hread.bind (Q := False) fun a _ => ?_).congr (by simp)
    rw [nextTo_neg rfl]
    exact decides_flaw rfl id _

/-- **A builtin of two arguments is read if it has two**, and both are supported. -/
theorem decides_arguments (hts : DecidedArguments source ts) (hn : ∀ u ∈ ts, u.height ≤ n)
    (hsub : ∀ u ∈ ts, u.subtrees ⊆ t.subtrees) (l : Lexeme) (f : BinaryBuiltin) :
    Decides (∃ e₁ comma e₂, ts = [e₁, comma, e₂] ∧ e₁.IsSupported source ∧ e₂.IsSupported source)
      t (do
        let (arg₁, later) ←
          nextTo Walk.isArgument (.missingArgument name) prev (ts ++ [leaf .closeParen l])
        let e₁ ← exprWithin source n arg₁
        let (comma, later) ← nextTo (· = some .comma) (.noComma name) arg₁ later
        let (arg₂, later) ← nextTo Walk.isArgument (.missingArgument name) comma later
        let e₂ ← exprWithin source n arg₂
        let _ ← nextTo (· = some .closeParen) (.notClosed name) arg₂ later
        .ok (Expr.call2 f e₁ e₂)) := by
  cases hts with
  | none =>
    rw [List.nil_append, nextTo_neg rfl]
    refine decides_flaw rfl ?_ _
    rintro ⟨e₁, comma, e₂, hts, -⟩
    cases hts
  | @last e he =>
    have hread := (he.decides n (hn e (.head _))).of_subset (hsub e (.head _))
    rw [List.singleton_append, nextTo_pos he.isArgument, Except.ok_bind]
    refine (hread.bind (Q := False) fun a _ => ?_).congr (by simp)
    rw [nextTo_neg rfl]
    exact decides_flaw rfl id _
  | @more e₁ ts comma he₁ hts =>
    have hread := (he₁.decides n (hn e₁ (.head _))).of_subset (hsub e₁ (.head _))
    rw [List.cons_append, List.cons_append, nextTo_pos he₁.isArgument, Except.ok_bind]
    refine (hread.bind (Q := ∃ e₂, ts = [e₂] ∧ e₂.IsSupported source) fun a _ => ?_).congr ?_
    · rw [nextTo_pos rfl]
      apply decides_lastArgument hts
      · exact fun u hu => hn u (.tail _ (.tail _ hu))
      · exact fun u hu => hsub u (.tail _ (.tail _ hu))
    · constructor
      · rintro ⟨he₁, e₂, rfl, he₂⟩
        exact ⟨e₁, _, e₂, rfl, he₁, he₂⟩
      · rintro ⟨_, _, e₂, hts, he₁, he₂⟩
        cases hts
        exact ⟨he₁, e₂, rfl, he₂⟩

end

/-- The argument list with `ts` between the parentheses `l` and `l'`. -/
def parens (l : Lexeme) (ts : List (Tree NodeKind)) (l' : Lexeme) : Tree NodeKind :=
  .spanning .argList (leaf .openParen l) (ts ++ [leaf .closeParen l'])

section
variable {ts : List (Tree NodeKind)} {callee : Tree NodeKind} {l l' name : Lexeme}

theorem length_children_parens : (parens l ts l').children.length = ts.length + 2 := by
  simp [parens]

theorem isSupported_parens :
    (parens l ts l').IsSupported source ↔ ∀ t ∈ ts, t.IsSupported source := by
  have hopen : (leaf .openParen l).IsSupported source := Tree.isSupported_leaf rfl (by simp) l
  have hclose : (leaf .closeParen l').IsSupported source := Tree.isSupported_leaf rfl (by simp) l'
  rw [parens, Tree.spanning, Tree.isSupported_node (by simp) (by simp)]
  simp [Tree.IsSupportedNode, hopen, hclose, or_imp, forall_and]

theorem isSupported_call {args : Tree NodeKind} :
    (Tree.spanning .callExpression callee [args]).IsSupported source ↔
      Tree.IsBuiltinCall source callee args ∧ callee.IsSupported source ∧
        args.IsSupported source := by
  rw [Tree.spanning, Tree.isSupported_node (by simp) (by simp)]
  simp [Tree.IsSupportedNode]

/-- No builtin takes one argument and two. -/
theorem ofName?_eq_none_of_unary {name : String} {f : UnaryBuiltin}
    (h : UnaryBuiltin.ofName? name = some f) : BinaryBuiltin.ofName? name = none := by
  rw [UnaryBuiltin.ofName?] at h
  have hname := List.find?_some h
  obtain rfl := of_decide_eq_true hname
  cases f <;> rfl

/-- A call of a builtin of one argument is supported if it has one that is. -/
theorem isSupported_call_unary {f : UnaryBuiltin} (hname : name.Genuine source)
    (hf : UnaryBuiltin.ofName? name.text = some f) (hts : DecidedArguments source ts) :
    (Tree.spanning .callExpression (leaf .variableName name) [parens l ts l']).IsSupported source ↔
      ∃ e, ts = [e] ∧ e.IsSupported source := by
  rw [← hname.text_eq] at hf
  rw [isSupported_call, isSupported_parens]
  constructor
  · rintro ⟨hcall, -, hsupported⟩
    rcases hcall.arguments with ⟨-, k, -, hkinds⟩ | ⟨hbinary, -⟩
    · have hlength := congrArg List.length hkinds
      rw [List.length_map, length_children_parens] at hlength
      obtain ⟨e, rfl⟩ := List.length_eq_one_iff.mp (Nat.add_right_cancel hlength)
      exact ⟨e, rfl, hsupported e (.head _)⟩
    · obtain ⟨f', hf'⟩ := Option.isSome_iff_exists.mp hbinary
      cases (ofName?_eq_none_of_unary hf).symm.trans hf'
  · rintro ⟨e, rfl, he⟩
    cases hts with
    | last hdecided =>
      refine ⟨⟨rfl, rfl, rfl, .inl ⟨?_, e.kind, hdecided.isExpression he, rfl⟩⟩, ?_, ?_⟩
      · exact Option.isSome_iff_exists.mpr ⟨f, hf⟩
      · exact Tree.isSupported_leaf rfl (by simp) name
      · exact List.forall_mem_cons.mpr ⟨he, List.forall_mem_nil _⟩

/-- A call of a builtin of two arguments is supported if it has two that are. -/
theorem isSupported_call_binary {f : BinaryBuiltin} (hname : name.Genuine source)
    (hnone : UnaryBuiltin.ofName? name.text = none)
    (hf : BinaryBuiltin.ofName? name.text = some f) (hts : DecidedArguments source ts) :
    (Tree.spanning .callExpression (leaf .variableName name) [parens l ts l']).IsSupported source ↔
      ∃ e₁ comma e₂, ts = [e₁, comma, e₂] ∧ e₁.IsSupported source ∧ e₂.IsSupported source := by
  rw [← hname.text_eq] at hf hnone
  rw [isSupported_call, isSupported_parens]
  constructor
  · rintro ⟨hcall, -, hsupported⟩
    rcases hcall.arguments with ⟨hunary, -⟩ | ⟨-, k, k', -, -, hkinds⟩
    · obtain ⟨f', hf'⟩ := Option.isSome_iff_exists.mp hunary
      cases hnone.symm.trans hf'
    · have hlength := congrArg List.length hkinds
      rw [List.length_map, length_children_parens] at hlength
      obtain ⟨e₁, comma, e₂, rfl⟩ := List.length_eq_three.mp (Nat.add_right_cancel hlength)
      exact ⟨e₁, comma, e₂, rfl, hsupported e₁ (.head _),
        hsupported e₂ (.tail _ (.tail _ (.head _)))⟩
  · rintro ⟨e₁, comma, e₂, rfl, he₁, he₂⟩
    cases hts with
    | more comma hdecided₁ hrest =>
      cases hrest with
      | last hdecided₂ =>
        refine ⟨⟨rfl, rfl, rfl, .inr ⟨?_, e₁.kind, e₂.kind, hdecided₁.isExpression he₁,
          hdecided₂.isExpression he₂, rfl⟩⟩, ?_, ?_⟩
        · exact Option.isSome_iff_exists.mpr ⟨f, hf⟩
        · exact Tree.isSupported_leaf rfl (by simp) name
        · simp only [List.forall_mem_cons]
          exact ⟨he₁, Tree.isSupported_leaf rfl (by simp) comma, he₂, List.forall_mem_nil _⟩

/-- The argument list of a call is read from its opening parenthesis. -/
theorem withinArguments_parens {α : Type} (callee : Tree NodeKind) (name : String)
    (body : Tree NodeKind → List (Tree NodeKind) → Except Flaw α) :
    withinArguments name callee [parens l ts l'] body =
      body (leaf .openParen l) (ts ++ [leaf .closeParen l']) := by
  have hargs : kind? (parens l ts l') = some .argList := kind?_eq_kind _
  have hopen : kind? (leaf .openParen l) = some .openParen := kind?_eq_kind _
  rw [withinArguments, next, Except.ok_bind]
  dsimp only
  rw [if_pos hargs]
  simp only [parens, withinChildren, Tree.children_spanning, hopen, if_true]

/-- A call of something that is no builtin is not supported. -/
theorem not_isSupported_call {args : Tree NodeKind}
    (hunary : UnaryBuiltin.ofName? (text source callee) = none)
    (hbinary : BinaryBuiltin.ofName? (text source callee) = none) :
    ¬(Tree.spanning .callExpression callee [args]).IsSupported source := by
  intro h
  rcases (isSupported_call.mp h).1.arguments with ⟨hsome, -⟩ | ⟨hsome, -⟩
  · obtain ⟨f, hf⟩ := Option.isSome_iff_exists.mp hsome
    cases hunary.symm.trans hf
  · obtain ⟨f, hf⟩ := Option.isSome_iff_exists.mp hsome
    cases hbinary.symm.trans hf

theorem decides_unknownBuiltin {args : Tree NodeKind} (operand : Tree NodeKind → Except Flaw Expr)
    (hunary : UnaryBuiltin.ofName? (text source callee) = none)
    (hbinary : BinaryBuiltin.ofName? (text source callee) = none) :
    Decides ((Tree.spanning .callExpression callee [args]).IsSupported source)
      (.spanning .callExpression callee [args])
      (call source operand (.spanning .callExpression callee [args])) := by
  simp only [call, withinChildren, Tree.children_spanning, hunary, hbinary]
  exact decides_flaw rfl (not_isSupported_call hunary hbinary) callee

/-- **A call is decided** if what is called is a name, or has a text that names no builtin. -/
theorem decided_call (hts : DecidedArguments source ts)
    (hcallee : (∃ name, name.Genuine source ∧ callee = leaf .variableName name) ∨
      (UnaryBuiltin.ofName? (text source callee) = none ∧
        BinaryBuiltin.ofName? (text source callee) = none)) :
    Decided source (.spanning .callExpression callee [parens l ts l']) := by
  refine .of_succ (.inl rfl) fun n hn => ?_
  have hargs : parens l ts l' ∈ (Tree.spanning .callExpression callee [parens l ts l']).children :=
    .tail _ (.head _)
  -- The arguments are two levels down, so there is a level left for each.
  have harg : ∀ u ∈ ts, u ∈ (parens l ts l').children := by
    intro u hu
    simp [parens, hu]
  have hheight : ∀ u ∈ ts, u.height ≤ n := by
    intro u hu
    have hlt := Tree.height_lt_of_mem_children (harg u hu)
    have hle := hn _ hargs
    omega
  have hsub : ∀ u ∈ ts,
      u.subtrees ⊆ (Tree.spanning .callExpression callee [parens l ts l']).subtrees :=
    fun u hu => List.Subset.trans (Tree.subtrees_subset (harg u hu)) (Tree.subtrees_subset hargs)
  change Decides _ _ (call source (exprWithin source n) _)
  rcases hcallee with ⟨name, hname, rfl⟩ | ⟨hunary, hbinary⟩
  · cases hunary : UnaryBuiltin.ofName? name.text with
    | some f =>
      simp only [call, withinChildren, Tree.children_spanning, hname.text_leaf, hunary]
      rw [withinArguments_parens, isSupported_call_unary hname hunary hts]
      exact decides_lastArgument hts hheight hsub l' _
    | none =>
      cases hbinary : BinaryBuiltin.ofName? name.text with
      | some f =>
        simp only [call, withinChildren, Tree.children_spanning, hname.text_leaf, hunary, hbinary]
        rw [withinArguments_parens, isSupported_call_binary hname hunary hbinary hts]
        exact decides_arguments hts hheight hsub l' f
      | none =>
        rw [← hname.text_leaf .variableName] at hunary hbinary
        exact decides_unknownBuiltin _ hunary hbinary
  · exact decides_unknownBuiltin _ hunary hbinary

end

/-! ## Derived trees -/

/-- A number names no builtin. -/
theorem ofName?_number {l : Lexeme} (hl : l.Genuine source) (hnumber : l.token = .number) :
    UnaryBuiltin.ofName? l.text = none ∧ BinaryBuiltin.ofName? l.text = none := by
  have hspells := hl.spells
  rw [hnumber] at hspells
  obtain ⟨c, rest, htext, hc⟩ := hspells
  constructor
  · rw [UnaryBuiltin.ofName?, List.find?_eq_none]
    intro f _ hf
    rw [← of_decide_eq_true hf] at htext
    rcases f with _ | _ <;> cases htext <;> revert hc <;> decide
  · rw [BinaryBuiltin.ofName?, List.find?_eq_none]
    intro f _ hf
    rw [← of_decide_eq_true hf] at htext
    rcases f with _ | _ | _ <;> cases htext <;> revert hc <;> decide

/-- What a derivation calls is a name, or it names no builtin. -/
theorem IsApplied.callee {ls t} (h : IsApplied ls t) (hls : ∀ l ∈ ls, l.Genuine source) :
    (∃ name, name.Genuine source ∧ t = leaf .variableName name) ∨
      (UnaryBuiltin.ofName? (text source t) = none ∧
        BinaryBuiltin.ofName? (text source t) = none) := by
  cases h with
  | atom h =>
    cases h with
    | @number l hl =>
      right
      have hgenuine := hls l (.head _)
      rw [hgenuine.text_leaf]
      exact ofName?_number hgenuine hl
    | @name l hl => exact .inl ⟨l, hls l (.head _), rfl⟩
    | @group ls l l' t hl h hl' =>
      -- The text ends with a closing parenthesis, whatever is between.
      right
      have hgenuine := hls l' (by simp)
      refine hgenuine.closesAt hl' _ ?_
      exact Tree.stop_spanning_append _ _ _ [t]
  | @call ls rs callee args h hargs =>
    cases hargs with
    | @parens rs l l' ts hl hts hl' =>
      right
      have hgenuine := hls l' (by simp)
      refine hgenuine.closesAt hl' _ ?_
      calc
        _ = (parens l ts l').span.stop := Tree.stop_spanning_append _ callee _ []
        _ = l'.span.stop := Tree.stop_spanning_append _ _ _ ts

theorem IsOperand.exists_number {ls t} (h : IsOperand ls t) (hkind : t.kind = .number) :
    ∃ l ∈ ls, t = leaf .number l := by
  cases h with
  | signed _ _ => cases hkind
  | applied h =>
    cases h with
    | call _ _ => cases hkind
    | atom h =>
      cases h with
      | @number l hl => exact ⟨l, .head _, rfl⟩
      | name _ => cases hkind
      | group _ _ _ => cases hkind

mutual

/-- **A derived sum is read if it is supported.** -/
theorem IsSum.decided {ls t} : IsSum ls t → (∀ l ∈ ls, l.Genuine source) → Decided source t
  | .product h, hls => h.decided hls
  | .more hl _ hr, hls => by
    simp only [List.forall_mem_append, List.forall_mem_cons] at hls
    exact decided_binary (hl.decided hls.1) (hr.decided hls.2.2) hls.2.1

theorem IsProduct.decided {ls t} : IsProduct ls t → (∀ l ∈ ls, l.Genuine source) → Decided source t
  | .operand h, hls => h.decided hls
  | .more hl _ hr, hls => by
    simp only [List.forall_mem_append, List.forall_mem_cons] at hls
    exact decided_binary (hl.decided hls.1) (hr.decided hls.2.2) hls.2.1

theorem IsOperand.decided {ls t} : IsOperand ls t → (∀ l ∈ ls, l.Genuine source) → Decided source t
  | .signed hop h, hls => by
    rw [List.forall_mem_cons] at hls
    refine decided_signed hls.1 (Token.isAdditive_iff.mpr hop) fun hkind => ?_
    obtain ⟨l, hl, rfl⟩ := h.exists_number hkind
    exact ⟨l, hls.2 l hl, rfl⟩
  | .applied h, hls => h.decided hls

theorem IsApplied.decided {ls t} : IsApplied ls t → (∀ l ∈ ls, l.Genuine source) → Decided source t
  | .atom h, hls => h.decided hls
  | .call h hargs, hls => by
    rw [List.forall_mem_append] at hls
    obtain ⟨l, ts, l', hts, rfl⟩ := hargs.decided hls.2
    exact decided_call hts (h.callee hls.1)

theorem IsAtom.decided {ls t} : IsAtom ls t → (∀ l ∈ ls, l.Genuine source) → Decided source t
  | .number _, hls => decided_number (hls _ (.head _))
  | .name _, _ => decided_name _
  | .group _ _ _, _ => decided_group _ _

theorem IsArgList.decided {ls t} : IsArgList ls t → (∀ l ∈ ls, l.Genuine source) →
    ∃ l ts l', DecidedArguments source ts ∧ t = Grammar.parens l ts l'
  | .parens _ h _, hls => by
    simp only [List.forall_mem_append, List.forall_mem_cons] at hls
    exact ⟨_, _, _, h.decided hls.2.1, rfl⟩

theorem AreArguments.decided {ls ts} : AreArguments ls ts → (∀ l ∈ ls, l.Genuine source) →
    DecidedArguments source ts
  | .none, _ => .none
  | .last h, hls => .last (h.decided hls)
  | .more h _ hs, hls => by
    simp only [List.forall_mem_append, List.forall_mem_cons] at hls
    exact .more _ (h.decided hls.1) (hs.decided hls.2.2)

end

/-! ## Statements and scripts -/

/-- **A derived statement is read if it is supported**, within the limit. -/
theorem IsStatement.decides {ls t} (h : IsStatement ls t) (hls : ∀ l ∈ ls, l.Genuine source)
    (hkeeps : KeepsTo maxNesting t) : Decides (t.IsSupported source) t (stmt source t) := by
  cases h with
  | @assign ls l l' t hl hl' h =>
    simp only [List.forall_mem_cons] at hls
    have hmem : t ∈ (Tree.spanning .assignStatement (leaf .variableName l)
        [leaf .assignOp l', t]).children := .tail _ (.tail _ (.head _))
    have hread := ((h.decided hls.2.2).decides _ (hkeeps t hmem)).of_subset
      (Tree.subtrees_subset hmem)
    have hstmt : stmt source (.spanning .assignStatement (leaf .variableName l)
        [leaf .assignOp l', t]) =
          (do .ok (.define (text source (leaf .variableName l)) (← expr source t))) := by
      simp only [stmt, kind?_eq_kind, Tree.kind_spanning, withinChildren, Tree.children_spanning,
        kind_leaf, if_true, next, Except.ok_bind]
    rw [hstmt]
    refine (hread.map _).congr ?_
    have hname : (leaf .variableName l).IsSupported source :=
      Tree.isSupported_leaf rfl (by simp) l
    have hassign : (leaf .assignOp l').IsSupported source := Tree.isSupported_leaf rfl (by simp) l'
    rw [Tree.spanning, Tree.isSupported_node (by simp) (by simp)]
    simp [Tree.IsSupportedNode, hname, hassign]
  | @expression ls t h =>
    have hmem : t ∈ (Tree.spanning .expressionStatement t []).children := .head _
    have hread := ((h.decided hls).decides _ (hkeeps t hmem)).of_subset (Tree.subtrees_subset hmem)
    have hstmt : stmt source (.spanning .expressionStatement t []) =
        (do .ok (.expr (← expr source t))) := by
      simp only [stmt, kind?_eq_kind, Tree.kind_spanning, withinChildren, Tree.children_spanning]
    rw [hstmt]
    refine (hread.map _).congr ?_
    rw [Tree.spanning, Tree.isSupported_node (by simp) (by simp)]
    simp [Tree.IsSupportedNode]

end Grammar

/-- Trees are read one after the other if all of them are supported. -/
theorem Reading.decides_mapM {source : List Char} {root : Tree NodeKind}
    {ts : List (Tree NodeKind)}
    (h : ∀ t ∈ ts, Decides (t.IsSupported source) root (stmt source t)) :
    Decides (∀ t ∈ ts, t.IsSupported source) root (ts.mapM (stmt source)) := by
  induction ts with
  | nil => exact List.forall_mem_nil _
  | cons t ts ih =>
    rw [List.forall_mem_cons] at h
    rw [List.mapM_cons]
    have hread := h.1.bind fun s _ => (ih h.2).map (s :: ·)
    exact hread.congr List.forall_mem_cons.symm

/-- **The tree of a script is read if it is supported.** -/
theorem Reading.decides_program {source : List Char} {t : Tree NodeKind}
    (h : Tree.ofSource source = .ok t) :
    Decides (t.IsSupported source) t (program source t) := by
  simp only [Tree.ofSource, Except.bind_eq_ok_iff, Except.mapError_eq_ok_iff,
    script_eq_ok_iff] at h
  obtain ⟨ls, hscan, ts, ⟨hscript, hkeeps⟩, ht⟩ := h
  cases ht
  rw [program_script, Tree.isSupported_node (by simp) (by simp)]
  refine (decides_mapM fun u hu => ?_).congr ⟨fun hts => ⟨trivial, hts⟩, And.right⟩
  obtain ⟨ls', hstmt, hsub⟩ := hscript.exists_isStatement u hu
  have hgenuine : ∀ l ∈ ls', l.Genuine source :=
    fun l hl => Scan.genuine_of_significant hscan l (hsub l hl)
  exact (hstmt.decides hgenuine (hkeeps u hu)).of_subset (Tree.subtrees_subset hu)

theorem Fault.kind_ne_of_isOfScript {fault : Fault} (h : fault.isOfScript = true) :
    fault.kind ≠ .grammar ∧ fault.kind ≠ .nestingTooDeep ∧ fault.kind ≠ .unsupportedConstruct := by
  cases fault with
  | unsupportedOperator _ | signWithoutNumber | invalidLiteral _ | literalOutOfRange _
  | unknownBuiltin _ | missingArgument _ | noComma _ | notClosed _ => simp [Fault.kind]
  | _ => cases h

/-- **A script is read exactly if its tree is supported.**  What it fails with otherwise is a
fault at a word or an expression in parentheses, never one of a tree that no script has. -/
theorem Walk.program_eq_ok_iff_isSupported {source : List Char} {t : Tree NodeKind}
    (h : Tree.ofSource source = .ok t) :
    ((∃ p, outcome (program source) (NodeTable.ofTree t).top = .ok p) ↔ t.IsSupported source) ∧
    ∀ e, outcome (program source) (NodeTable.ofTree t).top = .error e →
      e.kind ≠ .grammar ∧ e.kind ≠ .nestingTooDeep ∧
      (e.kind = .unsupportedConstruct →
        ∃ u ∈ t.subtrees, u.kind = .parenthesizedExpression ∧ e.span = u.span) ∧
      ∃ f : Flaw, f.IsOfScript t ∧ e = f.report source := by
  have hdecides := Reading.decides_program h
  rw [outcome_program NodeTable.conforms_at NodeTable.at_top]
  change Reading.Decides _ _ (Reading.program source t.top.focus) at hdecides
  cases hread : Reading.program source t.top.focus with
  | ok p =>
    rw [hread] at hdecides
    refine ⟨iff_of_true ⟨p, rfl⟩ hdecides, fun e he => ?_⟩
    cases he
  | error f =>
    rw [hread] at hdecides
    obtain ⟨hsupported, hscript⟩ := hdecides
    refine ⟨iff_of_false ?_ hsupported, fun e he => ?_⟩
    · rintro ⟨p, hp⟩
      cases hp
    cases he
    rcases hscript with hfault | ⟨hfault, u, hu, hgroup, hspan⟩
    · obtain ⟨hgrammar, hdeep, hunsupported⟩ := Fault.kind_ne_of_isOfScript hfault
      exact ⟨hgrammar, hdeep, fun hkind => absurd hkind hunsupported, f, .inl hfault, rfl⟩
    · have hkind : (f.report source).kind = .unsupportedConstruct := by
        rw [Flaw.report, hfault]
        rfl
      rw [hkind]
      exact ⟨by simp, by simp, fun _ => ⟨u, hu, hgroup, hspan⟩, f,
        .inr ⟨hfault, u, hu, hgroup, hspan⟩, rfl⟩

/-- A call of two signed or plain numbers is supported, and one with an argument in parentheses
is not: it fails at the parentheses. -/
theorem Walk.program_eq_ok_iff_isSupported_max :
    let call (span : Span) (arg : Tree NodeKind) (close : Span) : Tree NodeKind :=
      .node .script span [.node .expressionStatement span [.node .callExpression span
        [.leaf .variableName ⟨0, 3⟩,
         .node .argList ⟨3, span.stop⟩
          [.leaf .openParen ⟨3, 4⟩,
           .node .unaryExpression ⟨4, 6⟩ [.leaf .arithOp ⟨4, 5⟩, .leaf .number ⟨5, 6⟩],
           .leaf .comma ⟨6, 7⟩, arg, .leaf .closeParen close]]]]
    let plain := call ⟨0, 10⟩ (.leaf .number ⟨8, 9⟩) ⟨9, 10⟩
    let grouped := call ⟨0, 12⟩ (.node .parenthesizedExpression ⟨8, 11⟩
      [.leaf .openParen ⟨8, 9⟩, .leaf .number ⟨9, 10⟩, .leaf .closeParen ⟨10, 11⟩]) ⟨11, 12⟩
    (Tree.ofSource "max(-1, 2)".toList = .ok plain ∧ plain.IsSupported "max(-1, 2)".toList) ∧
    Tree.ofSource "max(-1, (2))".toList = .ok grouped ∧
      ¬grouped.IsSupported "max(-1, (2))".toList ∧
      ∃ e, outcome (program "max(-1, (2))".toList) (NodeTable.ofTree grouped).top = .error e ∧
        e.kind = .unsupportedConstruct ∧
        ∃ u ∈ grouped.subtrees, u.kind = .parenthesizedExpression ∧ e.span = u.span := by
  intro call plain grouped
  have hplain : Tree.ofSource "max(-1, 2)".toList = .ok plain := by decide +kernel
  have hgrouped : Tree.ofSource "max(-1, (2))".toList = .ok grouped := by decide +kernel
  obtain ⟨hiff, -⟩ := Walk.program_eq_ok_iff_isSupported hplain
  obtain ⟨hiff', hfails⟩ := Walk.program_eq_ok_iff_isSupported hgrouped
  have hread : outcome (program "max(-1, 2)".toList) (NodeTable.ofTree plain).top =
      .ok [.expr (.call2 .max (.num (-1)) (.num 2))] := by decide +kernel
  have herror : outcome (program "max(-1, (2))".toList) (NodeTable.ofTree grouped).top =
      .error ((Fault.notExpression "ParenthesizedExpression").report "max(-1, (2))".toList
        ⟨8, 11⟩) := by decide +kernel
  refine ⟨⟨hplain, hiff.mp ⟨_, hread⟩⟩, hgrouped, ?_, _, herror, rfl, (hfails _ herror).2.2.1 rfl⟩
  rw [← hiff', herror]
  rintro ⟨p, hp⟩
  cases hp

end ArithWat
