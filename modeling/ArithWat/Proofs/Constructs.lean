import ArithWat.Proofs.RoundTrip

/-!
# What constructs are read off

When a construct of a tree is read, and what it is read off: one lemma for each construct, in
both directions (`Reading.binary_eq_ok_iff`, `Reading.call_eq_ok_iff` and so on).  The tree may be
of any origin.

A construct is read off its first children.  A sign and a number have to be the first two
children of a signed number, and the arguments of a call have to be in parentheses, with the
closing one right behind the last argument.  What stands behind these parts is not looked at
(`Walk.parts_of_expr_ok`), so a surplus child is never a fault.
-/

namespace ArithWat

theorem UnaryBuiltin.eq_name_of_ofName? {name : String} {f : UnaryBuiltin}
    (h : ofName? name = some f) : name = f.name := by
  have hname := List.find?_some h
  exact (of_decide_eq_true hname).symm

theorem BinaryBuiltin.eq_name_of_ofName? {name : String} {f : BinaryBuiltin}
    (h : ofName? name = some f) : name = f.name := by
  have hname := List.find?_some h
  exact (of_decide_eq_true hname).symm

namespace Reading
variable {κ α : Type} [Tagged κ] {source : List Char} {t u : Tree κ} {later : List (Tree κ)}

/-! ## Steps -/

omit [Tagged κ] in
theorem ite_flaw_eq_ok_iff {p : Prop} [Decidable p] {r : Except Flaw α} {fault : Fault} {a : α} :
    (if p then r else flaw u fault) = .ok a ↔ p ∧ r = .ok a := by
  by_cases hp : p
  · simp [hp]
  · simp [hp, flaw]

theorem withinChildren_eq_ok_iff {body : Tree κ → List (Tree κ) → Except Flaw α} {a : α} :
    withinChildren t body = .ok a ↔ ∃ u us, t.children = u :: us ∧ body u us = .ok a := by
  refine ⟨withinChildren_eq_ok, ?_⟩
  rintro ⟨u, us, hchildren, h⟩
  rw [withinChildren, hchildren]
  exact h

theorem next_eq_ok_iff {part : Part} {us : List (Tree κ)} :
    next part t later = .ok (u, us) ↔ later = u :: us := by
  refine ⟨next_eq_ok, ?_⟩
  rintro rfl
  rfl

theorem nextTo_eq_ok_iff {test : Option NodeKind → Bool} {fault : Fault} {us : List (Tree κ)} :
    nextTo test fault t later = .ok (u, us) ↔ later = u :: us ∧ test (kind? u) = true := by
  refine ⟨nextTo_eq_ok, ?_⟩
  rintro ⟨rfl, htest⟩
  rw [nextTo, if_pos htest]

theorem operator_eq_ok_iff {op : ArithOp} :
    operator source t = .ok op ↔
      kind? t = some .arithOp ∧ ArithOp.ofText? (text source t) = some op := by
  rw [operator, ite_flaw_eq_ok_iff]
  cases ArithOp.ofText? (text source t) with
  | none => simp [flaw]
  | some o => simp

omit [Tagged κ] in
theorem literal_eq_ok_iff {s : String} {e : Expr} :
    literal t s = .ok e ↔ ∃ v, Literal.read s = .ok v ∧ e = .num v := by
  constructor
  · intro h
    obtain ⟨v, rfl, hv⟩ := literal_eq_ok h
    exact ⟨v, hv, rfl⟩
  · rintro ⟨v, hv, rfl⟩
    rw [literal, hv]

/-! ## Signed numbers -/

/-- **A sign and the number behind it.** -/
structure IsSigned (source : List Char) (sign number : Tree κ) : Prop where
  sign_kind : kind? sign = some .arithOp
  sign_text : text source sign = "+" ∨ text source sign = "-"
  number_kind : kind? number = some .number

theorem signedText_eq_ok_iff {sign : Tree κ} {s : String} :
    signedText source sign later = .ok s ↔
      ∃ number rest, later = number :: rest ∧ IsSigned source sign number ∧
        s = text source sign ++ text source number := by
  simp only [signedText, ite_flaw_eq_ok_iff, Except.bind_eq_ok_iff, Prod.exists, next_eq_ok_iff,
    Bool.and_eq_true, decide_eq_true_eq, Bool.or_eq_true]
  constructor
  · rintro ⟨⟨hkind, htext⟩, number, rest, hlater, hnumber, hs⟩
    exact ⟨number, rest, hlater, ⟨hkind, htext, hnumber⟩, (Except.ok.inj hs).symm⟩
  · rintro ⟨number, rest, hlater, hsigned, rfl⟩
    exact ⟨⟨hsigned.sign_kind, hsigned.sign_text⟩, number, rest, hlater, hsigned.number_kind, rfl⟩

/-! ## Binary expressions -/

variable {operand : Tree κ → Except Flaw Expr} {e : Expr}

/-- **A binary expression is read off its first three children.** -/
theorem binary_eq_ok_iff :
    binary source operand t = .ok e ↔
      ∃ left op right rest o l r, t.children = left :: op :: right :: rest ∧
        operand left = .ok l ∧ kind? op = some .arithOp ∧
        ArithOp.ofText? (text source op) = some o ∧ operand right = .ok r ∧
        e = .binary o l r := by
  simp only [binary, withinChildren_eq_ok_iff, Except.bind_eq_ok_iff, Prod.exists, next_eq_ok_iff,
    operator_eq_ok_iff]
  constructor
  · rintro ⟨left, _, hchildren, l, hl, op, _, rfl, o, ⟨hkind, ho⟩, right, rest, rfl, r, hr, he⟩
    exact ⟨left, op, right, rest, o, l, r, hchildren, hl, hkind, ho, hr, (Except.ok.inj he).symm⟩
  · rintro ⟨left, op, right, rest, o, l, r, hchildren, hl, hkind, ho, hr, rfl⟩
    exact ⟨left, _, hchildren, l, hl, op, _, rfl, o, ⟨hkind, ho⟩, right, rest, rfl, r, hr, rfl⟩

/-! ## Calls -/

/-- **The arguments of a builtin in parentheses**, with a comma between two, and nothing behind
the closing parenthesis. -/
inductive IsArgumentList : Builtin → List (Tree κ) → Prop
  | unary {f opening arg closing} : kind? opening = some .openParen →
      Walk.isArgument (kind? arg) = true → kind? closing = some .closeParen →
      IsArgumentList (.unary f) [opening, arg, closing]
  | binary {f opening arg₁ comma arg₂ closing} : kind? opening = some .openParen →
      Walk.isArgument (kind? arg₁) = true → kind? comma = some .comma →
      Walk.isArgument (kind? arg₂) = true → kind? closing = some .closeParen →
      IsArgumentList (.binary f) [opening, arg₁, comma, arg₂, closing]

/-- The call of a builtin with arguments in parentheses, as these are read. -/
inductive ReadsCall (operand : Tree κ → Except Flaw Expr) : Builtin → List (Tree κ) → Expr → Prop
  | unary {f opening arg closing a} : IsArgumentList (.unary f) [opening, arg, closing] →
      operand arg = .ok a → ReadsCall operand (.unary f) [opening, arg, closing] (.call1 f a)
  | binary {f opening arg₁ comma arg₂ closing a b} :
      IsArgumentList (.binary f) [opening, arg₁, comma, arg₂, closing] →
      operand arg₁ = .ok a → operand arg₂ = .ok b →
      ReadsCall operand (.binary f) [opening, arg₁, comma, arg₂, closing] (.call2 f a b)

theorem ReadsCall.isArgumentList {f : Builtin} {us : List (Tree κ)}
    (h : ReadsCall operand f us e) : IsArgumentList f us := by
  cases h with
  | unary h _ => exact h
  | binary h _ _ => exact h

theorem withinArguments_eq_ok_iff {name : String} {callee : Tree κ}
    {body : Tree κ → List (Tree κ) → Except Flaw α} {a : α} :
    withinArguments name callee later body = .ok a ↔
      ∃ args more, later = args :: more ∧ kind? args = some .argList ∧
        ∃ opening us, args.children = opening :: us ∧ kind? opening = some .openParen ∧
          body opening us = .ok a := by
  simp only [withinArguments, ite_flaw_eq_ok_iff, Except.bind_eq_ok_iff, Prod.exists,
    next_eq_ok_iff, withinChildren_eq_ok_iff]

section
variable {name : String} {callee : Tree κ}

/-- One argument is read off the first three children of an argument list. -/
theorem call1_eq_ok_iff {f : UnaryBuiltin} :
    (withinArguments name callee later fun opening later => do
      let (arg, later) ← nextTo Walk.isArgument (.missingArgument name) opening later
      let a ← operand arg
      let _ ← nextTo (· = some .closeParen) (.notClosed name) arg later
      .ok (.call1 f a)) = .ok e ↔
    ∃ args more us rest, later = args :: more ∧ kind? args = some .argList ∧
      args.children = us ++ rest ∧ ReadsCall operand (.unary f) us e := by
  simp only [withinArguments_eq_ok_iff, Except.bind_eq_ok_iff, Prod.exists, nextTo_eq_ok_iff,
    decide_eq_true_eq]
  constructor
  · rintro ⟨args, more, hlater, hlist, opening, _, hargs, hopen, arg, _, ⟨rfl, harg⟩, a, ha,
      closing, rest, ⟨rfl, hclose⟩, he⟩
    cases he
    exact ⟨args, more, [opening, arg, closing], rest, hlater, hlist, hargs,
      .unary (.unary hopen harg hclose) ha⟩
  · rintro ⟨args, more, _, rest, hlater, hlist, hargs, hcall⟩
    cases hcall with
    | unary hshape ha =>
      cases hshape with
      | unary hopen harg hclose =>
        exact ⟨args, more, hlater, hlist, _, _, hargs, hopen, _, _, ⟨rfl, harg⟩, _, ha, _, rest,
          ⟨rfl, hclose⟩, rfl⟩

/-- Two arguments are read off the first five children of an argument list. -/
theorem call2_eq_ok_iff {f : BinaryBuiltin} :
    (withinArguments name callee later fun opening later => do
      let (arg₁, later) ← nextTo Walk.isArgument (.missingArgument name) opening later
      let a ← operand arg₁
      let (comma, later) ← nextTo (· = some .comma) (.noComma name) arg₁ later
      let (arg₂, later) ← nextTo Walk.isArgument (.missingArgument name) comma later
      let b ← operand arg₂
      let _ ← nextTo (· = some .closeParen) (.notClosed name) arg₂ later
      .ok (.call2 f a b)) = .ok e ↔
    ∃ args more us rest, later = args :: more ∧ kind? args = some .argList ∧
      args.children = us ++ rest ∧ ReadsCall operand (.binary f) us e := by
  simp only [withinArguments_eq_ok_iff, Except.bind_eq_ok_iff, Prod.exists, nextTo_eq_ok_iff,
    decide_eq_true_eq]
  constructor
  · rintro ⟨args, more, hlater, hlist, opening, _, hargs, hopen, arg₁, _, ⟨rfl, harg₁⟩, a, ha,
      comma, _, ⟨rfl, hcomma⟩, arg₂, _, ⟨rfl, harg₂⟩, b, hb, closing, rest, ⟨rfl, hclose⟩, he⟩
    cases he
    exact ⟨args, more, [opening, arg₁, comma, arg₂, closing], rest, hlater, hlist, hargs,
      .binary (.binary hopen harg₁ hcomma harg₂ hclose) ha hb⟩
  · rintro ⟨args, more, _, rest, hlater, hlist, hargs, hcall⟩
    cases hcall with
    | binary hshape ha hb =>
      cases hshape with
      | binary hopen harg₁ hcomma harg₂ hclose =>
        exact ⟨args, more, hlater, hlist, _, _, hargs, hopen, _, _, ⟨rfl, harg₁⟩, _, ha, _, _,
          ⟨rfl, hcomma⟩, _, _, ⟨rfl, harg₂⟩, _, hb, _, rest, ⟨rfl, hclose⟩, rfl⟩

end

/-- **A call is read off its first two children**, and off the first children of the second. -/
theorem call_eq_ok_iff :
    call source operand t = .ok e ↔
      ∃ callee args more f us rest, t.children = callee :: args :: more ∧
        text source callee = f.name ∧ kind? args = some .argList ∧ args.children = us ++ rest ∧
        ReadsCall operand f us e := by
  rw [call, withinChildren_eq_ok_iff]
  constructor
  · rintro ⟨callee, later, hchildren, h⟩
    cases hunary : UnaryBuiltin.ofName? (text source callee) with
    | some f =>
      simp only [hunary, call1_eq_ok_iff] at h
      obtain ⟨args, more, us, rest, rfl, hlist, hargs, hcall⟩ := h
      exact ⟨callee, args, more, .unary f, us, rest, hchildren,
        UnaryBuiltin.eq_name_of_ofName? hunary, hlist, hargs, hcall⟩
    | none =>
      cases hbinary : BinaryBuiltin.ofName? (text source callee) with
      | some f =>
        simp only [hunary, hbinary, call2_eq_ok_iff] at h
        obtain ⟨args, more, us, rest, rfl, hlist, hargs, hcall⟩ := h
        exact ⟨callee, args, more, .binary f, us, rest, hchildren,
          BinaryBuiltin.eq_name_of_ofName? hbinary, hlist, hargs, hcall⟩
      | none =>
        simp only [hunary, hbinary] at h
        cases h
  · rintro ⟨callee, args, more, f, us, rest, hchildren, hname, hlist, hargs, hcall⟩
    refine ⟨callee, args :: more, hchildren, ?_⟩
    cases f with
    | unary f =>
      rw [Builtin.name] at hname
      simp only [hname, UnaryBuiltin.ofName?_name, call1_eq_ok_iff]
      exact ⟨args, more, us, rest, rfl, hlist, hargs, hcall⟩
    | binary f =>
      rw [Builtin.name] at hname
      simp only [hname, UnaryBuiltin.ofName?_binaryName, BinaryBuiltin.ofName?_name,
        call2_eq_ok_iff]
      exact ⟨args, more, us, rest, rfl, hlist, hargs, hcall⟩

theorem IsArgumentList.length_eq {f : Builtin} {us : List (Tree κ)} (h : IsArgumentList f us) :
    us.length = 2 * f.arity + 1 := by
  cases h <;> rfl

/-- Nothing can be put behind an argument list. -/
theorem IsArgumentList.append_iff {f : Builtin} {us rest : List (Tree κ)}
    (h : IsArgumentList f us) : IsArgumentList f (us ++ rest) ↔ rest = [] := by
  constructor
  · intro happend
    have hlength := happend.length_eq
    rw [List.length_append, h.length_eq] at hlength
    exact List.length_eq_zero_iff.mp (by omega)
  · rintro rfl
    rwa [List.append_nil]

/-! ## Expressions, by their kind -/

theorem exprWithin_unary_iff {levels : Nat} (hkind : kind? t = some .unaryExpression) :
    exprWithin source (levels + 1) t = .ok e ↔
      ∃ sign number rest v, t.children = sign :: number :: rest ∧ IsSigned source sign number ∧
        Literal.read (text source sign ++ text source number) = .ok v ∧ e = .num v := by
  simp only [exprWithin, hkind, Except.bind_eq_ok_iff, withinChildren_eq_ok_iff,
    signedText_eq_ok_iff, literal_eq_ok_iff]
  constructor
  · rintro ⟨_, ⟨sign, _, hchildren, number, rest, rfl, hsigned, rfl⟩, v, hv, he⟩
    exact ⟨sign, number, rest, v, hchildren, hsigned, hv, he⟩
  · rintro ⟨sign, number, rest, v, hchildren, hsigned, hv, he⟩
    exact ⟨_, ⟨sign, _, hchildren, number, rest, rfl, hsigned, rfl⟩, v, hv, he⟩

theorem exprWithin_call_iff {levels : Nat} (hkind : kind? t = some .callExpression) :
    exprWithin source (levels + 1) t = .ok e ↔
      ∃ callee args more f us rest, t.children = callee :: args :: more ∧
        text source callee = f.name ∧ kind? args = some .argList ∧ args.children = us ++ rest ∧
        ReadsCall (exprWithin source levels) f us e := by
  simp only [exprWithin, hkind]
  exact call_eq_ok_iff

end Reading

namespace Walk
variable {γ κ : Type} [TreeCursor γ] [Tagged κ] {R : γ → Location κ → Prop}
open Reading

/-- A walk reads an expression if the subtree under the cursor does. -/
theorem expr_eq_ok_iff (hR : Conforms R) {source : List Char} {c : γ} {l : Location κ}
    (hc : R c l) {e : Expr} :
    outcome (expr source) c = .ok e ↔ Reading.exprWithin source maxNesting l.focus = .ok e := by
  rw [expr, (ends_exprWithin hR maxNesting l).outcome_eq hc, Except.mapError_eq_ok_iff]

/-- **The parts that an expression is read off come first among the children.**  If a signed
number is read, its first two children are a sign and a number.  If a call is read, its first
two children are the name of a builtin and an argument list, which begins with as many arguments
as the builtin takes, in parentheses.  There is nothing else among the children exactly if there
is no surplus; but any surplus is read over, and it makes no difference to what is read. -/
theorem parts_of_expr_ok (hR : Conforms R) (source : List Char) {c : γ} {l : Location κ}
    (hc : R c l) {e : Expr} (h : outcome (expr source) c = .ok e) :
    (Reading.kind? l.focus = some .unaryExpression →
      ∃ sign number surplus, l.focus.children = sign :: number :: surplus ∧
        IsSigned source sign number ∧
        ((∃ sign number, l.focus.children = [sign, number] ∧ IsSigned source sign number) ↔
          surplus = []) ∧
        ∀ surplus' c' l', R c' l' →
          l'.focus = .node l.focus.kind l.focus.span (sign :: number :: surplus') →
          outcome (expr source) c' = .ok e) ∧
    (Reading.kind? l.focus = some .callExpression →
      ∃ callee args more f us surplus, l.focus.children = callee :: args :: more ∧
        Reading.text source callee = f.name ∧ Reading.kind? args = some .argList ∧
        args.children = us ++ surplus ∧ IsArgumentList f us ∧
        (IsArgumentList f args.children ↔ surplus = []) ∧
        ∀ surplus' c' l', R c' l' →
          l'.focus = .node l.focus.kind l.focus.span
            (callee :: .node args.kind args.span (us ++ surplus') :: more) →
          outcome (expr source) c' = .ok e) := by
  -- Of the limit it matters only that there is a level for the construct itself.
  obtain ⟨levels, hlevels⟩ : ∃ levels, maxNesting = levels + 1 := ⟨255, rfl⟩
  simp only [expr_eq_ok_iff hR hc, hlevels] at h
  refine ⟨fun hkind => ?_, fun hkind => ?_⟩
  · obtain ⟨sign, number, surplus, v, hchildren, hsigned, hv, he⟩ :=
      (exprWithin_unary_iff hkind).mp h
    refine ⟨sign, number, surplus, hchildren, hsigned, ?_, ?_⟩
    · rw [hchildren]
      constructor
      · rintro ⟨_, _, heq, -⟩
        cases heq
        rfl
      · rintro rfl
        exact ⟨sign, number, rfl, hsigned⟩
    · intro surplus' c' l' hc' hfocus
      have hkind' : Reading.kind? l'.focus = some .unaryExpression := by rwa [hfocus]
      rw [expr_eq_ok_iff hR hc', hlevels, exprWithin_unary_iff hkind']
      exact ⟨sign, number, surplus', v, by rw [hfocus]; rfl, hsigned, hv, he⟩
  · obtain ⟨callee, args, more, f, us, surplus, hchildren, hname, hlist, hargs, hcall⟩ :=
      (exprWithin_call_iff hkind).mp h
    have hshape := hcall.isArgumentList
    refine ⟨callee, args, more, f, us, surplus, hchildren, hname, hlist, hargs, hshape, ?_, ?_⟩
    · rw [hargs]
      exact hshape.append_iff
    · intro surplus' c' l' hc' hfocus
      have hkind' : Reading.kind? l'.focus = some .callExpression := by rwa [hfocus]
      rw [expr_eq_ok_iff hR hc', hlevels, exprWithin_call_iff hkind']
      exact ⟨callee, .node args.kind args.span (us ++ surplus'), more, f, us, surplus',
        by rw [hfocus]; rfl, hname, hlist, rfl, hcall⟩

/-- A signed number is read with any surplus once it is read without one, and a call of `min`
with a comment behind its arguments begins with two arguments in parentheses. -/
theorem parts_of_expr_ok_signed :
    let signed (surplus : List (Tree String)) : Tree String :=
      .node "UnaryExpression" ⟨0, 2⟩ (.leaf "ArithOp" ⟨0, 1⟩ :: .leaf "Number" ⟨1, 2⟩ :: surplus)
    let args : Tree String := .node "ArgList" ⟨3, 8⟩ [.leaf "(" ⟨3, 4⟩, .leaf "Number" ⟨4, 5⟩,
      .leaf "," ⟨5, 6⟩, .leaf "Number" ⟨6, 7⟩, .leaf ")" ⟨7, 8⟩, .leaf "Comment" ⟨0, 99⟩]
    let call : Tree String := .node "CallExpression" ⟨0, 8⟩ [.leaf "VariableName" ⟨0, 3⟩, args]
    (outcome (expr "-1".toList) (signed []).top = .ok (.num (-1)) ∧
      ∀ surplus, outcome (expr "-1".toList) (signed surplus).top = .ok (.num (-1))) ∧
    outcome (expr "min(1,2)".toList) call.top = .ok (.call2 .min (.num 1) (.num 2)) ∧
      ∃ f us surplus, args.children = us ++ surplus ∧ IsArgumentList f us := by
  intro signed args call
  have hsigned : outcome (expr "-1".toList) (signed []).top = .ok (.num (-1)) := by decide +kernel
  have hcall : outcome (expr "min(1,2)".toList) call.top = .ok (.call2 .min (.num 1) (.num 2)) := by
    decide +kernel
  obtain ⟨sign, number, _, hchildren, -, -, hsame⟩ :=
    (parts_of_expr_ok conforms_location _ (Eq.refl (signed []).top) hsigned).1 (by decide +kernel)
  obtain ⟨callee, args', more, f, us, surplus, hchildren', -, -, hargs, hshape, -, -⟩ :=
    (parts_of_expr_ok conforms_location _ (Eq.refl call.top) hcall).2 (by decide +kernel)
  cases hchildren
  cases hchildren'
  exact ⟨⟨hsigned, fun surplus => hsame surplus _ _ rfl rfl⟩, hcall, f, us, surplus, hargs, hshape⟩

/-- **A surplus child is no fault**: behind a sign and a number, and behind the closing
parenthesis of a call. -/
theorem expr_ok_of_surplus :
    let signed : Tree String := .node "UnaryExpression" ⟨0, 2⟩
      [.leaf "ArithOp" ⟨0, 1⟩, .leaf "Number" ⟨1, 2⟩, .leaf "Number" ⟨1, 2⟩]
    let args : Tree String := .node "ArgList" ⟨3, 6⟩
      [.leaf "(" ⟨3, 4⟩, .leaf "Number" ⟨4, 5⟩, .leaf ")" ⟨5, 6⟩, .leaf ")" ⟨5, 6⟩]
    let call : Tree String := .node "CallExpression" ⟨0, 6⟩ [.leaf "VariableName" ⟨0, 3⟩, args]
    (outcome (expr "-1".toList) signed.top = .ok (.num (-1)) ∧ signed.children.length ≠ 2) ∧
      outcome (expr "abs(1)".toList) call.top = .ok (.call1 .abs (.num 1)) ∧
      ∀ f, ¬IsArgumentList f args.children := by
  intro signed args call
  refine ⟨⟨by decide +kernel, by decide⟩, by decide +kernel, fun f hshape => ?_⟩
  cases hshape

end Walk

end ArithWat
