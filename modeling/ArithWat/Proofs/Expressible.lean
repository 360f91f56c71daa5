import ArithWat.Proofs.Literals
import ArithWat.Proofs.Parsing
import ArithWat.Proofs.Scanning

/-!
# The programs that scripts can express

A script can group the operands of an operator only to the left, for an expression in
parentheses has no meaning.  So a product is never an operand of a product on its right,
a sum never one of a product nor the right operand of a sum.  Moreover names are names
of a script, numbers are in the range of literals, and the number of levels that an
expression takes when it is written (`Expr.levels`) is limited.  A program of this kind
is *expressible*.

Every program that is read off a script is expressible (`isExpressible_of_parse`).  The
proof follows the derivation of the script: a derived sum, product or operand is read as
an expression of its class.
-/

namespace ArithWat

/-- The operators of sums. -/
def ArithOp.isAdditive : ArithOp → Bool
  | add | sub => true
  | mul => false

namespace Expr

/-- Whether the expression is a sum or a difference. -/
def isSum : Expr → Bool
  | binary op _ _ => op.isAdditive
  | _ => false

/-- Whether the expression is an operator with two operands. -/
def isBinary : Expr → Bool
  | binary _ _ _ => true
  | _ => false

theorem isSum_of_isBinary_eq_false {e : Expr} (h : e.isBinary = false) : e.isSum = false := by
  cases e with
  | binary op l r => cases h
  | _ => rfl

/-- **The expressions that can be written without parentheses**, with names and numbers
of a script. -/
def IsPlain : Expr → Prop
  | num v => Literal.least ≤ v ∧ v ≤ Literal.greatest
  | ref name _ => Scan.isName name.toList = true
  | binary op l r =>
    l.IsPlain ∧ r.IsPlain ∧
      if op.isAdditive then r.isSum = false else l.isSum = false ∧ r.isBinary = false
  | call1 _ a => a.IsPlain
  | call2 _ a b => a.IsPlain ∧ b.IsPlain

/-- Decides whether an expression can be written without parentheses. -/
def decidableIsPlain : (e : Expr) → Decidable e.IsPlain
  | num _ => inferInstanceAs (Decidable (_ ∧ _))
  | ref _ _ => inferInstanceAs (Decidable (_ = _))
  | binary _ l r =>
    have := decidableIsPlain l
    have := decidableIsPlain r
    inferInstanceAs (Decidable (l.IsPlain ∧ r.IsPlain ∧ _))
  | call1 _ a => decidableIsPlain a
  | call2 _ a b =>
    have := decidableIsPlain a
    have := decidableIsPlain b
    inferInstanceAs (Decidable (a.IsPlain ∧ b.IsPlain))

instance : DecidablePred IsPlain := decidableIsPlain

/-- **The levels of the tree of an expression** that is written without parentheses.  A
minus sign is a level, and so is an argument list. -/
def levels : Expr → Nat
  | num v => if v < 0 then 2 else 1
  | ref _ _ => 1
  | binary _ l r => 1 + max l.levels r.levels
  | call1 _ a => 2 + a.levels
  | call2 _ a b => 2 + max a.levels b.levels

end Expr

/-- The statements that a script can express. -/
def Stmt.IsExpressible : Stmt → Prop
  | define name value =>
    Scan.isName name.toList = true ∧ value.IsPlain ∧ value.levels ≤ maxNesting
  | expr value => value.IsPlain ∧ value.levels ≤ maxNesting

instance : DecidablePred Stmt.IsExpressible
  | .define _ _ => inferInstanceAs (Decidable (_ ∧ _))
  | .expr _ => inferInstanceAs (Decidable (_ ∧ _))

/-- **The programs that a script can express.** -/
def Program.IsExpressible (p : Program) : Prop := ∀ s ∈ p, s.IsExpressible

instance : DecidablePred Program.IsExpressible := fun p =>
  inferInstanceAs (Decidable (∀ s ∈ p, s.IsExpressible))

/-! ## Derived trees are read as expressions of their class -/

theorem Tree.height_lt_of_mem_children {κ : Type} {t u : Tree κ} (h : u ∈ t.children) :
    u.height < t.height := by
  cases t with
  | node k s ts => exact Nat.lt_succ_of_le (forestHeight_le_iff.mp (Nat.le_refl _) u h)

/-- A leaf has the text of its lexeme. -/
theorem Lexeme.Genuine.text_leaf {source : List Char} {l : Lexeme} (hl : l.Genuine source)
    (k : NodeKind) : Reading.text source (Grammar.leaf k l) = l.text :=
  hl.text_eq

namespace Grammar
open Reading
variable {source : List Char}

/-- What is read off `t` is a plain expression with `P` that needs no more levels than
`t` has. -/
def ReadsAs (source : List Char) (P : Expr → Prop) (t : Tree NodeKind) : Prop :=
  ∀ n e, exprWithin source n t = .ok e → e.IsPlain ∧ P e ∧ e.levels ≤ t.height

theorem ReadsAs.mono {P Q : Expr → Prop} {t : Tree NodeKind} (h : ReadsAs source P t)
    (hPQ : ∀ e, P e → Q e) : ReadsAs source Q t := by
  intro n e he
  obtain ⟨hplain, hP, hlevels⟩ := h n e he
  exact ⟨hplain, hPQ e hP, hlevels⟩

/-- The kinds of trees that have a meaning as expressions. -/
def isExpression : NodeKind → Bool
  | .number | .unaryExpression | .variableName | .binaryExpression | .callExpression => true
  | _ => false

theorem isExpression_of_exprWithin {n : Nat} {t : Tree NodeKind} {e : Expr}
    (h : exprWithin source n t = .ok e) : isExpression t.kind = true := by
  cases n with
  | zero => cases h
  | succ n =>
    rw [exprWithin, kind?_eq_kind] at h
    cases hkind : t.kind with
    | number | unaryExpression | variableName | binaryExpression | callExpression => rfl
    | _ =>
      rw [hkind] at h
      cases h

theorem readsAs_of_kind {P : Expr → Prop} {t : Tree NodeKind} (h : isExpression t.kind = false) :
    ReadsAs source P t := by
  intro n e he
  rw [isExpression_of_exprWithin he] at h
  cases h

/-- The operator that a token stands for, if it has a meaning. -/
def arithOp? : Token → Option ArithOp
  | .plus => some .add
  | .minus => some .sub
  | .star => some .mul
  | _ => none

/-- The text of an operator says which one it is. -/
theorem ofText?_text {l : Lexeme} (hl : l.Genuine source)
    (hop : l.token.isAdditive = true ∨ l.token.isMultiplicative = true) :
    ArithOp.ofText? l.text = arithOp? l.token := by
  obtain ⟨token, text, span⟩ := l
  have hspells : token.Spells text.toList := hl.spells
  have htext : text = String.ofList text.toList := String.ofList_toList.symm
  change ArithOp.ofText? text = arithOp? token
  rw [htext]
  cases token with
  | plus | minus | star | slash | doubleSlash | percent => rw [hspells]; rfl
  | _ => simp [Token.isAdditive, Token.isMultiplicative] at hop

theorem isAdditive_of_arithOp? {t : Token} {o : ArithOp} (h : arithOp? t = some o) :
    o.isAdditive = t.isAdditive := by
  cases t <;> cases h <;> rfl

/-- What a binary expression is read as, from how its operands are read. -/
theorem readsAs_binary {P Q S : Expr → Prop} {left right : Tree NodeKind} {op : Lexeme}
    (hl : ReadsAs source P left) (hr : ReadsAs source Q right) (hgenuine : op.Genuine source)
    (hop : op.token.isAdditive = true ∨ op.token.isMultiplicative = true)
    (hplain : ∀ l r, P l → Q r → if op.token.isAdditive then r.isSum = false
      else l.isSum = false ∧ r.isBinary = false)
    (hS : ∀ o l r, o.isAdditive = op.token.isAdditive → S (.binary o l r)) :
    ReadsAs source S (.spanning .binaryExpression left [leaf .arithOp op, right]) := by
  intro n e he
  cases n with
  | zero => cases he
  | succ n =>
    obtain ⟨_, _, _, _, o, l, r, hchildren, hleft, ho, hright, rfl⟩ := binary_eq_ok he
    cases hchildren
    obtain ⟨hplainl, hP, hlevelsl⟩ := hl n l hleft
    obtain ⟨hplainr, hQ, hlevelsr⟩ := hr n r hright
    rw [hgenuine.text_leaf, ofText?_text hgenuine hop] at ho
    have ho := isAdditive_of_arithOp? ho
    refine ⟨⟨hplainl, hplainr, ?_⟩, hS o l r ho, ?_⟩
    · rw [ho]
      exact hplain l r hP hQ
    · have hl : left.height < _ := Tree.height_lt_of_mem_children
        (t := .spanning .binaryExpression left [leaf .arithOp op, right]) (by simp)
      have hr : right.height < _ := Tree.height_lt_of_mem_children
        (t := .spanning .binaryExpression left [leaf .arithOp op, right]) (by simp)
      rw [Expr.levels]
      omega

/-- A number is read as a number that needs no sign. -/
theorem readsAs_number {l : Lexeme} (hgenuine : l.Genuine source) (hl : l.token = .number) :
    ReadsAs source (·.isBinary = false) (leaf .number l) := by
  intro n e he
  cases n with
  | zero => cases he
  | succ n =>
    obtain ⟨v, rfl, hv⟩ := literal_eq_ok he
    have hspells := hgenuine.spells
    rw [hl] at hspells
    obtain ⟨c, cs, hcs, hc⟩ := hspells
    rw [hgenuine.text_leaf] at hv
    have hnonneg : 0 ≤ v := Literal.nonneg_of_read hv (by rw [hcs, Literal.splitSign_number hc])
    refine ⟨(Literal.read_eq_ok_iff.mp hv).2, rfl, ?_⟩
    rw [Expr.levels, if_neg (Int.not_lt.mpr hnonneg)]
    exact Nat.le_refl _

theorem readsAs_name {l : Lexeme} (hgenuine : l.Genuine source) (hl : l.token = .name) :
    ReadsAs source (·.isBinary = false) (leaf .variableName l) := by
  intro n e he
  cases n with
  | zero => cases he
  | succ n =>
    cases he
    have hspells := hgenuine.spells
    rw [hl] at hspells
    refine ⟨?_, rfl, Nat.le_refl _⟩
    rw [hgenuine.text_leaf]
    exact hspells

/-- A sign is read only before a number. -/
theorem readsAs_signed {op : Lexeme} {t : Tree NodeKind} :
    ReadsAs source (·.isBinary = false) (.spanning .unaryExpression (leaf .arithOp op) [t]) := by
  intro n e he
  cases n with
  | zero => cases he
  | succ n =>
    obtain ⟨text, -, hliteral⟩ := Except.bind_eq_ok_iff.mp he
    obtain ⟨v, rfl, hv⟩ := literal_eq_ok hliteral
    refine ⟨(Literal.read_eq_ok_iff.mp hv).2, rfl, ?_⟩
    have hlt : t.height < _ := Tree.height_lt_of_mem_children
      (t := .spanning .unaryExpression (leaf .arithOp op) [t]) (by simp)
    have hpos := t.height_pos
    rw [Expr.levels]
    split <;> omega

theorem readsAs_call {callee args : Tree NodeKind}
    (hargs : ∀ u ∈ args.children, ReadsAs source (fun _ => True) u) :
    ReadsAs source (·.isBinary = false) (.spanning .callExpression callee [args]) := by
  intro n e he
  have hheight : args.height < _ := Tree.height_lt_of_mem_children
    (t := .spanning .callExpression callee [args]) (by simp)
  cases n with
  | zero => cases he
  | succ n =>
    obtain ⟨_, _, _, hchildren, hcall⟩ := call_eq_ok he
    cases hchildren
    rcases hcall with ⟨f, a, u, rfl, hus, ha⟩ | ⟨f, a, b, u, v, rfl, hus, ha, hb⟩
    · have hu : u ∈ args.children := hus.subset (by simp)
      obtain ⟨hplain, -, hlevels⟩ := hargs u hu n a ha
      have hlt := Tree.height_lt_of_mem_children hu
      refine ⟨hplain, rfl, ?_⟩
      rw [Expr.levels]
      omega
    · have hu : u ∈ args.children := hus.subset (by simp)
      have hv : v ∈ args.children := hus.subset (by simp)
      obtain ⟨hplain₁, -, hlevels₁⟩ := hargs u hu n a ha
      obtain ⟨hplain₂, -, hlevels₂⟩ := hargs v hv n b hb
      have hlt₁ := Tree.height_lt_of_mem_children hu
      have hlt₂ := Tree.height_lt_of_mem_children hv
      refine ⟨⟨hplain₁, hplain₂⟩, rfl, ?_⟩
      rw [Expr.levels]
      omega

mutual

/-- **A derived sum is read as a plain expression.** -/
theorem IsSum.readsAs {ls t} : IsSum ls t → (∀ l ∈ ls, l.Genuine source) →
    ReadsAs source (fun _ => True) t
  | .product h, hls => (h.readsAs hls).mono fun _ _ => trivial
  | @IsSum.more ls rs op left right hl hop hr, hls => by
    have hop := Token.isAdditive_iff.mpr hop
    simp only [List.forall_mem_append, List.forall_mem_cons] at hls
    refine readsAs_binary (hl.readsAs hls.1) (hr.readsAs hls.2.2) hls.2.1 (.inl hop) ?_ ?_
    · intro l r _ hsum
      rw [if_pos hop]
      exact hsum
    · exact fun _ _ _ _ => trivial

/-- A derived product is read as no sum. -/
theorem IsProduct.readsAs {ls t} : IsProduct ls t → (∀ l ∈ ls, l.Genuine source) →
    ReadsAs source (·.isSum = false) t
  | .operand h, hls => (h.readsAs hls).mono fun _ => Expr.isSum_of_isBinary_eq_false
  | @IsProduct.more ls rs op left right hl hop hr, hls => by
    have hop := Token.isMultiplicative_iff.mpr hop
    simp only [List.forall_mem_append, List.forall_mem_cons] at hls
    have hadditive := isAdditive_of_isMultiplicative hop
    refine readsAs_binary (hl.readsAs hls.1) (hr.readsAs hls.2.2) hls.2.1 (.inr hop) ?_ ?_
    · intro l r hsum hbinary
      rw [hadditive, if_neg Bool.false_ne_true]
      exact ⟨hsum, hbinary⟩
    · intro o l r ho
      rw [Expr.isSum, ho, hadditive]

/-- A derived operand is read as no operator. -/
theorem IsOperand.readsAs {ls t} : IsOperand ls t → (∀ l ∈ ls, l.Genuine source) →
    ReadsAs source (·.isBinary = false) t
  | .signed _ _, _ => readsAs_signed
  | .applied h, hls => h.readsAs hls

theorem IsApplied.readsAs {ls t} : IsApplied ls t → (∀ l ∈ ls, l.Genuine source) →
    ReadsAs source (·.isBinary = false) t
  | .atom h, hls => h.readsAs hls
  | .call _ hargs, hls => readsAs_call (hargs.readsAs (List.forall_mem_append.mp hls).2)

theorem IsAtom.readsAs {ls t} : IsAtom ls t → (∀ l ∈ ls, l.Genuine source) →
    ReadsAs source (·.isBinary = false) t
  | .number hl, hls => readsAs_number (hls _ List.mem_cons_self) hl
  | .name hl, hls => readsAs_name (hls _ List.mem_cons_self) hl
  | .group _ _ _, _ => readsAs_of_kind rfl

theorem IsArgList.readsAs {ls t} : IsArgList ls t → (∀ l ∈ ls, l.Genuine source) →
    ∀ u ∈ t.children, ReadsAs source (fun _ => True) u
  | .parens _ h _, hls => by
    simp only [List.forall_mem_append, List.forall_mem_cons] at hls
    simp only [Tree.children_spanning, List.forall_mem_append, List.forall_mem_cons]
    exact ⟨readsAs_of_kind rfl, h.readsAs hls.2.1, readsAs_of_kind rfl, List.forall_mem_nil _⟩

theorem AreArguments.readsAs {ls ts} : AreArguments ls ts → (∀ l ∈ ls, l.Genuine source) →
    ∀ u ∈ ts, ReadsAs source (fun _ => True) u
  | .none, _ => nofun
  | .last h, hls => List.forall_mem_cons.mpr ⟨h.readsAs hls, List.forall_mem_nil _⟩
  | .more h _ hs, hls => by
    simp only [List.forall_mem_append, List.forall_mem_cons] at hls
    simp only [List.forall_mem_cons]
    exact ⟨h.readsAs hls.1, readsAs_of_kind rfl, hs.readsAs hls.2.2⟩

end

/-- **A derived statement is read as an expressible one**, within the limit. -/
theorem IsStatement.isExpressible {ls t} {s : Stmt} (h : IsStatement ls t)
    (hls : ∀ l ∈ ls, l.Genuine source) (hkeeps : KeepsTo maxNesting t)
    (hs : stmt source t = .ok s) : s.IsExpressible := by
  cases h with
  | @assign ls l l' t hl hl' h =>
    simp only [List.forall_mem_cons] at hls
    rcases stmt_eq_ok hs with ⟨-, target, equals, value, us, e, hchildren, he, rfl⟩ | ⟨hkind, -⟩
    · cases hchildren
      obtain ⟨hplain, -, hlevels⟩ := h.readsAs hls.2.2 _ _ he
      have hspells := hls.1.spells
      rw [hl] at hspells
      refine ⟨?_, hplain, Nat.le_trans hlevels (hkeeps t (by simp))⟩
      rw [hls.1.text_leaf]
      exact hspells
    · cases hkind
  | @expression ls t h =>
    rcases stmt_eq_ok hs with ⟨hkind, -⟩ | ⟨-, value, us, e, hchildren, he, rfl⟩
    · cases hkind
    · cases hchildren
      obtain ⟨hplain, -, hlevels⟩ := h.readsAs hls _ _ he
      exact ⟨hplain, Nat.le_trans hlevels (hkeeps t (by simp))⟩

/-- The statements of a derived script are derived from some of its lexemes. -/
theorem IsScript.exists_isStatement {ls ts} (h : IsScript ls ts) :
    ∀ t ∈ ts, ∃ ls', IsStatement ls' t ∧ ∀ l ∈ ls', l ∈ ls := by
  induction h with
  | blank => exact List.forall_mem_nil _
  | @more seps ls rest t ts _ hstmt _ _ ih =>
    refine List.forall_mem_cons.mpr ⟨⟨ls, hstmt, ?_⟩, fun u hu => ?_⟩
    · intro l hl
      simp [hl]
    · obtain ⟨ls', hstmt', hsub⟩ := ih u hu
      refine ⟨ls', hstmt', fun l hl => ?_⟩
      simp [hsub l hl]

end Grammar

/-- **Every program that is read off a script is expressible.** -/
theorem isExpressible_of_parseTree {source : List Char} {p : Program}
    (h : Script.parseTree source = .ok p) : p.IsExpressible := by
  obtain ⟨ls, ts, hscan, hscript, hkeeps, hread⟩ := Script.parseTree_eq_ok_iff.mp h
  intro s hs
  obtain ⟨t, ht, hst⟩ := Except.exists_of_mem_of_mapM_eq_ok hread hs
  obtain ⟨ls', hstmt, hsub⟩ := hscript.exists_isStatement t ht
  refine hstmt.isExpressible (fun l hl => ?_) (hkeeps t ht) hst
  exact Scan.genuine_of_significant hscan l (hsub l hl)

theorem isExpressible_of_parse {source : String} {p : Program}
    (h : Script.parse source = .ok p) : p.IsExpressible := by
  unfold Script.parse at h
  split at h
  · cases h
    exact List.forall_mem_nil _
  · exact isExpressible_of_parseTree h

end ArithWat
