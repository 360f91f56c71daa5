import ArithWat.Program.Walk
import ArithWat.Proofs.Outcome

/-!
# Reading a program off a tree, by structure

What a tree says, as a function of the tree alone: no cursor moves, and a construct is
read off the list of its children.  A child behind the last part of a construct is not
looked at, and the first thing that is wrong, from the left, is the *flaw* of the tree.
A flaw is a fault and the span at which it is to be reported.

The last section says what a successful reading has found (`binary_eq_ok`, `call_eq_ok`
and so on): the children that it looked at, and the readings of these.  `Walking` proves
that a walk with any cursor comes to the same as the reading.
-/

namespace ArithWat

/-- A fault, and the span at which it stands. -/
structure Flaw where
  fault : Fault
  span : Span
  deriving DecidableEq, Repr

/-- The report of a flaw. -/
def Flaw.report (source : List Char) (f : Flaw) : ParseError := f.fault.report source f.span

namespace Reading
variable {κ α : Type} [Tagged κ]

/-- The kind of the root, if its tag is one of the grammar's. -/
def kind? (t : Tree κ) : Option NodeKind := NodeKind.ofTag? (Tagged.tag t.kind)

/-- The text of the root. -/
def text (source : List Char) (t : Tree κ) : String := t.span.text source

/-- A fault of the root. -/
def flaw (t : Tree κ) (fault : Fault) : Except Flaw α := .error ⟨fault, t.span⟩

/-- The child of a node from which `body` reads on, the first of its children. -/
def withinChildren (t : Tree κ) (body : Tree κ → List (Tree κ) → Except Flaw α) :
    Except Flaw α :=
  match t.children with
  | [] => flaw t (.childless (Tagged.tag t.kind))
  | u :: us => body u us

/-- The tree after `t`, where a part of the construct is expected. -/
def next (part : Part) (t : Tree κ) : List (Tree κ) → Except Flaw (Tree κ × List (Tree κ))
  | [] => flaw t (.lacks part (Tagged.tag t.kind))
  | u :: us => .ok (u, us)

/-- The tree after `t`, which must pass a test. -/
def nextTo (test : Option NodeKind → Bool) (fault : Fault) (t : Tree κ) :
    List (Tree κ) → Except Flaw (Tree κ × List (Tree κ))
  | [] => flaw t fault
  | u :: us => if test (kind? u) then .ok (u, us) else flaw u fault

/-! ## Expressions -/

/-- The operator of a binary expression. -/
def operator (source : List Char) (t : Tree κ) : Except Flaw ArithOp :=
  if kind? t = some .arithOp then
    match ArithOp.ofText? (text source t) with
    | some op => .ok op
    | none => flaw t (.unsupportedOperator (text source t))
  else flaw t (.notOperator (Tagged.tag t.kind))

/-- The number that a literal writes; its fault is one of `t`. -/
def literal (t : Tree κ) (literal : String) : Except Flaw Expr :=
  match Literal.read literal with
  | .ok v => .ok (.num v)
  | .error fault => flaw t fault

/-- The text of a signed number, from its sign. -/
def signedText (source : List Char) (sign : Tree κ) (later : List (Tree κ)) :
    Except Flaw String :=
  if kind? sign = some .arithOp && (text source sign = "+" || text source sign = "-") then do
    let (number, _) ← next .signedOperand sign later
    if kind? number = some .number then .ok (text source sign ++ text source number)
    else flaw number .signWithoutNumber
  else flaw sign (.notSign (text source sign))

/-- A binary expression, given how to read its operands. -/
def binary (source : List Char) (operand : Tree κ → Except Flaw Expr) (t : Tree κ) :
    Except Flaw Expr :=
  withinChildren t fun left later => do
    let l ← operand left
    let (op, later) ← next .operator left later
    let o ← operator source op
    let (right, _) ← next .rightOperand op later
    let r ← operand right
    .ok (.binary o l r)

/-- What `body` reads off the argument list of `callee`, from its opening parenthesis. -/
def withinArguments (name : String) (callee : Tree κ) (later : List (Tree κ))
    (body : Tree κ → List (Tree κ) → Except Flaw α) : Except Flaw α := do
  let (args, _) ← next .argumentList callee later
  if kind? args = some .argList then
    withinChildren args fun opening later =>
      if kind? opening = some .openParen then body opening later
      else flaw opening (.noOpenParen name)
  else flaw args (.noArgumentList name)

/-- A call of a builtin, given how to read its arguments. -/
def call (source : List Char) (operand : Tree κ → Except Flaw Expr) (t : Tree κ) :
    Except Flaw Expr :=
  withinChildren t fun callee later =>
    let name := text source callee
    match UnaryBuiltin.ofName? name, BinaryBuiltin.ofName? name with
    | some f, _ =>
      withinArguments name callee later fun opening later => do
        let (arg, later) ← nextTo Walk.isArgument (.missingArgument name) opening later
        let e ← operand arg
        let _ ← nextTo (· = some .closeParen) (.notClosed name) arg later
        .ok (.call1 f e)
    | none, some f =>
      withinArguments name callee later fun opening later => do
        let (arg₁, later) ← nextTo Walk.isArgument (.missingArgument name) opening later
        let e₁ ← operand arg₁
        let (comma, later) ← nextTo (· = some .comma) (.noComma name) arg₁ later
        let (arg₂, later) ← nextTo Walk.isArgument (.missingArgument name) comma later
        let e₂ ← operand arg₂
        let _ ← nextTo (· = some .closeParen) (.notClosed name) arg₂ later
        .ok (.call2 f e₁ e₂)
    | none, none => flaw callee (.unknownBuiltin name)

/-- **The expression of a tree**, with a number of levels left. -/
def exprWithin (source : List Char) : Nat → Tree κ → Except Flaw Expr
  | 0, t => flaw t .tooDeep
  | levels + 1, t =>
    match kind? t with
    | some .number => literal t (text source t)
    | some .unaryExpression => do literal t (← withinChildren t (signedText source))
    | some .variableName => .ok (.ref (text source t) t.span)
    | some .binaryExpression => binary source (exprWithin source levels) t
    | some .callExpression => call source (exprWithin source levels) t
    | _ => flaw t (.notExpression (Tagged.tag t.kind))

/-- The expression of a tree. -/
def expr (source : List Char) (t : Tree κ) : Except Flaw Expr := exprWithin source maxNesting t

/-! ## Statements -/

/-- **The statement of a tree.** -/
def stmt (source : List Char) (t : Tree κ) : Except Flaw Stmt :=
  match kind? t with
  | some .assignStatement =>
    withinChildren t fun target later =>
      if kind? target = some .variableName then do
        let (equals, later) ← next .equals target later
        let (value, _) ← next .assignedValue equals later
        let e ← expr source value
        .ok (.define (text source target) e)
      else flaw target (.notAssignable (Tagged.tag target.kind))
  | some .expressionStatement =>
    withinChildren t fun value _ => do
      let e ← expr source value
      .ok (.expr e)
  | _ => flaw t (.notStatement (Tagged.tag t.kind))

/-- **The program of a tree.** -/
def program (source : List Char) (t : Tree κ) : Except Flaw Program :=
  if kind? t = some .script then t.children.mapM (stmt source)
  else flaw t (.notProgram (Tagged.tag t.kind))

/-! ## Successful readings -/

variable {source : List Char} {t : Tree κ} {e : Expr}

@[simp] theorem kind?_eq_kind (t : Tree NodeKind) : kind? t = some t.kind :=
  NodeKind.ofTag?_tag t.kind

theorem withinChildren_eq_ok {body : Tree κ → List (Tree κ) → Except Flaw α} {a : α}
    (h : withinChildren t body = .ok a) : ∃ u us, t.children = u :: us ∧ body u us = .ok a := by
  unfold withinChildren at h
  split at h
  · cases h
  · rename_i u us hchildren
    exact ⟨u, us, hchildren, h⟩

theorem next_eq_ok {part : Part} {later : List (Tree κ)} {x : Tree κ × List (Tree κ)}
    (h : next part t later = .ok x) : later = x.1 :: x.2 := by
  cases later with
  | nil => cases h
  | cons u us => cases h; rfl

theorem nextTo_eq_ok {test : Option NodeKind → Bool} {fault : Fault} {later : List (Tree κ)}
    {x : Tree κ × List (Tree κ)} (h : nextTo test fault t later = .ok x) :
    later = x.1 :: x.2 ∧ test (kind? x.1) = true := by
  cases later with
  | nil => cases h
  | cons u us =>
    rw [nextTo] at h
    split at h
    · rename_i htest
      cases h
      exact ⟨rfl, htest⟩
    · cases h

theorem operator_eq_ok {op : ArithOp} (h : operator source t = .ok op) :
    ArithOp.ofText? (text source t) = some op := by
  unfold operator at h
  split at h
  · split at h
    · cases h
      assumption
    · cases h
  · cases h

omit [Tagged κ] in
theorem literal_eq_ok {s : String} (h : literal t s = .ok e) :
    ∃ v, e = .num v ∧ Literal.read s = .ok v := by
  unfold literal at h
  split at h
  · cases h
    exact ⟨_, rfl, ‹_›⟩
  · cases h

/-- A binary expression has two operands around its operator. -/
theorem binary_eq_ok {operand : Tree κ → Except Flaw Expr} (h : binary source operand t = .ok e) :
    ∃ left op right us o l r, t.children = left :: op :: right :: us ∧
      operand left = .ok l ∧ ArithOp.ofText? (text source op) = some o ∧ operand right = .ok r ∧
      e = .binary o l r := by
  obtain ⟨left, later, hchildren, h⟩ := withinChildren_eq_ok h
  simp only [Except.bind_eq_ok_iff] at h
  obtain ⟨l, hl, x, hop, o, ho, y, hright, r, hr, he⟩ := h
  obtain rfl := next_eq_ok hop
  rw [next_eq_ok hright] at hchildren
  exact ⟨left, x.1, y.1, y.2, o, l, r, hchildren, hl, operator_eq_ok ho, hr,
    (Except.ok.inj he).symm⟩

theorem withinArguments_eq_ok {name : String} {callee : Tree κ} {later : List (Tree κ)}
    {body : Tree κ → List (Tree κ) → Except Flaw α} {a : α}
    (h : withinArguments name callee later body = .ok a) :
    ∃ args us opening vs, later = args :: us ∧ args.children = opening :: vs ∧
      body opening vs = .ok a := by
  simp only [withinArguments, Except.bind_eq_ok_iff] at h
  obtain ⟨x, hargs, h⟩ := h
  split at h
  · obtain ⟨opening, vs, hchildren, h⟩ := withinChildren_eq_ok h
    split at h
    · exact ⟨x.1, x.2, opening, vs, next_eq_ok hargs, hchildren, h⟩
    · cases h
  · cases h

/-- The arguments of a call are children of the argument list, in their order. -/
theorem call_eq_ok {operand : Tree κ → Except Flaw Expr} (h : call source operand t = .ok e) :
    ∃ callee args us, t.children = callee :: args :: us ∧
      ((∃ f a u, e = .call1 f a ∧ [u].Sublist args.children ∧ operand u = .ok a) ∨
      (∃ f a b u v, e = .call2 f a b ∧ [u, v].Sublist args.children ∧
        operand u = .ok a ∧ operand v = .ok b)) := by
  obtain ⟨callee, later, hchildren, h⟩ := withinChildren_eq_ok h
  dsimp only at h
  split at h
  · obtain ⟨args, us, opening, vs, rfl, hargs, h⟩ := withinArguments_eq_ok h
    simp only [Except.bind_eq_ok_iff] at h
    obtain ⟨x, harg, a, ha, -, -, he⟩ := h
    obtain ⟨rfl, -⟩ := nextTo_eq_ok harg
    refine ⟨callee, args, us, hchildren, .inl ⟨_, a, x.1, (Except.ok.inj he).symm, ?_, ha⟩⟩
    simp [hargs]
  · obtain ⟨args, us, opening, vs, rfl, hargs, h⟩ := withinArguments_eq_ok h
    simp only [Except.bind_eq_ok_iff] at h
    obtain ⟨x, harg₁, a, ha, y, hcomma, z, harg₂, b, hb, -, -, he⟩ := h
    obtain ⟨rfl, -⟩ := nextTo_eq_ok harg₁
    have hy := (nextTo_eq_ok hcomma).1
    have hz := (nextTo_eq_ok harg₂).1
    refine ⟨callee, args, us, hchildren,
      .inr ⟨_, a, b, x.1, z.1, (Except.ok.inj he).symm, ?_, ha, hb⟩⟩
    rw [hargs, hy, hz]
    exact .cons _ (.cons_cons _ (.cons _ (.cons_cons _ (List.nil_sublist _))))
  · cases h

/-- A statement sets a variable or is an expression, as its kind says. -/
theorem stmt_eq_ok {s : Stmt} (h : stmt source t = .ok s) :
    (kind? t = some .assignStatement ∧ ∃ target equals value us e,
      t.children = target :: equals :: value :: us ∧ expr source value = .ok e ∧
      s = .define (text source target) e) ∨
    (kind? t = some .expressionStatement ∧ ∃ value us e,
      t.children = value :: us ∧ expr source value = .ok e ∧ s = .expr e) := by
  unfold stmt at h
  split at h
  · rename_i hkind
    obtain ⟨target, later, hchildren, h⟩ := withinChildren_eq_ok h
    split at h
    · simp only [Except.bind_eq_ok_iff] at h
      obtain ⟨x, hequals, y, hvalue, e, he, hs⟩ := h
      rw [next_eq_ok hequals, next_eq_ok hvalue] at hchildren
      exact .inl ⟨hkind, target, x.1, y.1, y.2, e, hchildren, he, (Except.ok.inj hs).symm⟩
    · cases h
  · rename_i hkind
    obtain ⟨value, later, hchildren, h⟩ := withinChildren_eq_ok h
    rw [Except.bind_eq_ok_iff] at h
    obtain ⟨e, he, hs⟩ := h
    exact .inr ⟨hkind, value, later, e, hchildren, he, (Except.ok.inj hs).symm⟩
  · cases h

end Reading

end ArithWat
