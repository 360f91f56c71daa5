import ArithWat.Proofs.Acceptance
import ArithWat.Proofs.Constructs
import ArithWat.Proofs.Flaws
import ArithWat.Proofs.NestingLimit

/-!
# Levels of trees and levels of expressions

The grammar limits the levels of the tree of an expression, and a walk those of the expression
that it reads.  The two counts differ: a call has one level more in its tree, its argument list,
and so has a signed number.  This module compares them for trees of the shape that the grammar
gives to them, whatever their size (`Reading.Writes`).

A tree has at least as many levels as its expression and at most twice as many
(`Reading.Writes.height_bounds`).  So a walk reads every tree that is within the limit, and others
as well (`Walk.keepsLimit_height_tree_iff`): with nested calls a tree may have almost twice as many
levels (`NestedCalls.height_tree`).
-/

namespace ArithWat

theorem Tree.height_eq_forestHeight {κ : Type} (t : Tree κ) :
    t.height = forestHeight t.children + 1 := by
  cases t with
  | node k s ts => rfl

namespace Reading
variable {κ : Type} [Tagged κ]

/-- A node of the given kind without children. -/
structure IsToken (k : NodeKind) (t : Tree κ) : Prop where
  kind_eq : kind? t = some k
  children_eq : t.children = []

theorem IsToken.height_eq {k : NodeKind} {t : Tree κ} (h : IsToken k t) : t.height = 1 := by
  rw [t.height_eq_forestHeight, h.children_eq]
  rfl

/-- **The tree `t` writes the expression `e`**, in the shape that the grammar gives to it.  Every
construct has its parts and no others, and every part has a meaning. -/
inductive Writes (source : List Char) : Tree κ → Expr → Prop
  | number {t v} : IsToken .number t → Literal.read (text source t) = .ok v →
      Writes source t (.num v)
  | signed {t sign number v} : kind? t = some .unaryExpression → t.children = [sign, number] →
      IsToken .arithOp sign → text source sign = "+" ∨ text source sign = "-" →
      IsToken .number number →
      Literal.read (text source sign ++ text source number) = .ok v → Writes source t (.num v)
  | name {t} : IsToken .variableName t → Writes source t (.ref (text source t) t.span)
  | binary {t left op right o l r} : kind? t = some .binaryExpression →
      t.children = [left, op, right] → Writes source left l → IsToken .arithOp op →
      ArithOp.ofText? (text source op) = some o → Writes source right r →
      Writes source t (.binary o l r)
  | call1 {t callee args opening arg closing f a} : kind? t = some .callExpression →
      t.children = [callee, args] → IsToken .variableName callee →
      text source callee = UnaryBuiltin.name f → kind? args = some .argList →
      args.children = [opening, arg, closing] → IsToken .openParen opening →
      Writes source arg a → IsToken .closeParen closing → Writes source t (.call1 f a)
  | call2 {t callee args opening arg₁ comma arg₂ closing f a b} :
      kind? t = some .callExpression → t.children = [callee, args] →
      IsToken .variableName callee → text source callee = BinaryBuiltin.name f →
      kind? args = some .argList → args.children = [opening, arg₁, comma, arg₂, closing] →
      IsToken .openParen opening → Writes source arg₁ a → IsToken .comma comma →
      Writes source arg₂ b → IsToken .closeParen closing → Writes source t (.call2 f a b)

section Writes
variable {source : List Char} {t : Tree κ} {e : Expr}

theorem Writes.isArgument (h : Writes source t e) : Walk.isArgument (kind? t) = true := by
  cases h with
  | number ht _ => rw [ht.kind_eq]; rfl
  | name ht => rw [ht.kind_eq]; rfl
  | signed hkind | binary hkind | call1 hkind | call2 hkind => rw [hkind]; rfl

/-- **A tree that writes an expression is read as that expression**, if there is no limit. -/
theorem Writes.exprAt_eq (h : Writes source t e) (depth : Nat) :
    exprAt source none depth t = .ok e := by
  induction h generalizing depth with
  | number ht hv =>
    simp only [exprAt_none, exprBy, ht.kind_eq]
    exact literal_eq_ok_iff.mpr ⟨_, hv, rfl⟩
  | signed hkind hchildren hsign htext hnumber hv =>
    simp only [exprAt_none, exprBy, hkind, Except.bind_eq_ok_iff, withinChildren_eq_ok_iff,
      signedText_eq_ok_iff, literal_eq_ok_iff]
    exact ⟨_, ⟨_, _, hchildren, _, _, rfl, ⟨hsign.kind_eq, htext, hnumber.kind_eq⟩, rfl⟩, _, hv,
      rfl⟩
  | name ht => simp only [exprAt_none, exprBy, ht.kind_eq]
  | binary hkind hchildren _ hop ho _ ihl ihr =>
    simp only [exprAt_none source depth, exprBy, hkind]
    exact binary_eq_ok_iff.mpr ⟨_, _, _, _, _, _, _, hchildren, ihl _, hop.kind_eq, ho, ihr _, rfl⟩
  | call1 hkind hchildren _ hname hlist hargs hopen harg hclose ih =>
    simp only [exprAt_none source depth, exprBy, hkind]
    exact call_eq_ok_iff.mpr ⟨_, _, _, .unary _, _, [], hchildren, hname, hlist, hargs,
      .unary (.unary hopen.kind_eq harg.isArgument hclose.kind_eq) (ih _)⟩
  | call2 hkind hchildren _ hname hlist hargs hopen harg₁ hcomma harg₂ hclose ih₁ ih₂ =>
    simp only [exprAt_none source depth, exprBy, hkind]
    exact call_eq_ok_iff.mpr ⟨_, _, _, .binary _, _, [], hchildren, hname, hlist, hargs,
      .binary (.binary hopen.kind_eq harg₁.isArgument hcomma.kind_eq harg₂.isArgument
        hclose.kind_eq) (ih₁ _) (ih₂ _)⟩

/-- **A tree has at least the levels of its expression**, and at most twice as many. -/
theorem Writes.height_bounds (h : Writes source t e) :
    e.height ≤ t.height ∧ t.height ≤ 2 * e.height := by
  induction h with
  | number ht _ | name ht =>
    rw [ht.height_eq, Expr.height]
    omega
  | @signed t sign number v hkind hchildren hsign htext hnumber hv =>
    rw [t.height_eq_forestHeight, hchildren]
    simp only [Tree.forestHeight, hsign.height_eq, hnumber.height_eq, Expr.height]
    omega
  | @binary t left op right o l r hkind hchildren _ hop _ _ ihl ihr =>
    rw [t.height_eq_forestHeight, hchildren]
    simp only [Tree.forestHeight, hop.height_eq, Expr.height]
    omega
  | @call1 t callee args opening arg closing f a _ hchildren hcallee _ _ hargs hopen _ hclose ih =>
    rw [t.height_eq_forestHeight, hchildren]
    simp only [Tree.forestHeight, args.height_eq_forestHeight, hargs, hcallee.height_eq,
      hopen.height_eq, hclose.height_eq, Expr.height]
    -- The argument list is a level of the tree alone; twice the height of the call covers it.
    have hpos := a.height_pos
    omega
  | @call2 t callee args opening arg₁ comma arg₂ closing f a b _ hchildren hcallee _ _ hargs hopen
      _ hcomma _ hclose ih₁ ih₂ =>
    rw [t.height_eq_forestHeight, hchildren]
    simp only [Tree.forestHeight, args.height_eq_forestHeight, hargs, hcallee.height_eq,
      hopen.height_eq, hcomma.height_eq, hclose.height_eq, Expr.height]
    have hpos := a.height_pos
    omega

end Writes

end Reading

/-! ## Derived trees -/

theorem ArithOp.exists_ofText? {s : String} (h : s ∈ ["+", "-", "*"]) :
    ∃ op, ArithOp.ofText? s = some op := by
  simp only [List.mem_cons, List.not_mem_nil, or_false] at h
  rcases h with rfl | rfl | rfl
  · exact ⟨.add, rfl⟩
  · exact ⟨.sub, rfl⟩
  · exact ⟨.mul, rfl⟩

namespace Grammar
open Reading
variable {source : List Char}

theorem isToken_leaf (k : NodeKind) (l : Lexeme) : IsToken k (leaf k l) :=
  ⟨kind?_eq_kind _, rfl⟩

theorem exists_writes_binary {left right : Tree NodeKind} {op : Lexeme}
    (hl : Decided source left) (hr : Decided source right) (hop : op.Genuine source)
    (hleft : left.IsSupported source → ∃ e, Writes source left e)
    (hright : right.IsSupported source → ∃ e, Writes source right e)
    (h : (Tree.spanning .binaryExpression left [leaf .arithOp op, right]).IsSupported source) :
    ∃ e, Writes source (.spanning .binaryExpression left [leaf .arithOp op, right]) e := by
  obtain ⟨hsupportedl, htext, hsupportedr⟩ := (isSupported_binary hl hr hop).mp h
  obtain ⟨l, hwritesl⟩ := hleft hsupportedl
  obtain ⟨r, hwritesr⟩ := hright hsupportedr
  obtain ⟨o, ho⟩ := ArithOp.exists_ofText? htext
  rw [← hop.text_leaf .arithOp] at ho
  exact ⟨_, .binary (kind?_eq_kind _) rfl hwritesl (isToken_leaf _ _) ho hwritesr⟩

/-- A sign writes a literal if a number follows it. -/
theorem exists_writes_signed {ls} {op : Lexeme} {t : Tree NodeKind} (h : IsOperand ls t)
    (hls : ∀ l ∈ ls, l.Genuine source) (hop : op.Genuine source)
    (hsign : op.token.isAdditive = true)
    (hsupported : (Tree.spanning .unaryExpression (leaf .arithOp op) [t]).IsSupported source) :
    ∃ e, Writes source (.spanning .unaryExpression (leaf .arithOp op) [t]) e := by
  obtain ⟨_, _, hchildren, hkind⟩ := hsupported.node _ (Tree.mem_subtrees_self _)
  cases hchildren
  obtain ⟨l, hl, rfl⟩ := h.exists_number hkind
  obtain ⟨v, hv⟩ := (Tree.isSupported_signed hop (hls l hl)).mp hsupported
  have htext := text_of_isAdditive hop hsign
  rw [← hop.text_leaf .arithOp] at hv htext
  rw [← (hls l hl).text_leaf .number] at hv
  exact ⟨_, .signed (kind?_eq_kind _) rfl (isToken_leaf _ _) htext (isToken_leaf _ _) hv⟩

/-- A call writes an expression if its arguments do. -/
theorem exists_writes_call {callee : Tree NodeKind} {ts : List (Tree NodeKind)} {l l' : Lexeme}
    (hts : DecidedArguments source ts)
    (hcallee : (∃ name, name.Genuine source ∧ callee = leaf .variableName name) ∨
      (UnaryBuiltin.ofName? (text source callee) = none ∧
        BinaryBuiltin.ofName? (text source callee) = none))
    (hargs : ∀ u ∈ ts, Decided source u → u.IsSupported source → ∃ e, Writes source u e)
    (h : (Tree.spanning .callExpression callee [parens l ts l']).IsSupported source) :
    ∃ e, Writes source (.spanning .callExpression callee [parens l ts l']) e := by
  rcases hcallee with ⟨name, hname, rfl⟩ | ⟨hunary, hbinary⟩
  · have htext : text source (leaf .variableName name) = name.text := hname.text_leaf _
    cases hunary : UnaryBuiltin.ofName? name.text with
    | some f =>
      obtain ⟨t, rfl, ht⟩ := (isSupported_call_unary hname hunary hts).mp h
      cases hts with
      | last hdecided =>
        obtain ⟨a, ha⟩ := hargs t (.head _) hdecided ht
        have hf := htext.trans (UnaryBuiltin.eq_name_of_ofName? hunary)
        exact ⟨_, .call1 (kind?_eq_kind _) rfl (isToken_leaf _ _) hf (kind?_eq_kind _) rfl
          (isToken_leaf _ _) ha (isToken_leaf _ _)⟩
    | none =>
      cases hbinary : BinaryBuiltin.ofName? name.text with
      | some f =>
        obtain ⟨t, _, u, rfl, ht, hu⟩ := (isSupported_call_binary hname hunary hbinary hts).mp h
        cases hts with
        | more comma ht' hrest =>
          cases hrest with
          | last hu' =>
            obtain ⟨a, ha⟩ := hargs t (.head _) ht' ht
            obtain ⟨b, hb⟩ := hargs u (.tail _ (.tail _ (.head _))) hu' hu
            have hf := htext.trans (BinaryBuiltin.eq_name_of_ofName? hbinary)
            exact ⟨_, .call2 (kind?_eq_kind _) rfl (isToken_leaf _ _) hf (kind?_eq_kind _) rfl
              (isToken_leaf _ _) ha (isToken_leaf _ _) hb (isToken_leaf _ _)⟩
      | none =>
        rw [← htext] at hunary hbinary
        exact absurd h (not_isSupported_call hunary hbinary)
  · exact absurd h (not_isSupported_call hunary hbinary)

mutual

/-- **A derived sum writes an expression if it is supported**, however many levels it has. -/
theorem IsSum.exists_writes {ls t} : IsSum ls t → (∀ l ∈ ls, l.Genuine source) →
    t.IsSupported source → ∃ e, Writes source t e
  | .product h, hls, hsupported => h.exists_writes hls hsupported
  | .more hl _ hr, hls, hsupported => by
    simp only [List.forall_mem_append, List.forall_mem_cons] at hls
    exact exists_writes_binary (hl.decided hls.1) (hr.decided hls.2.2) hls.2.1
      (hl.exists_writes hls.1) (hr.exists_writes hls.2.2) hsupported

theorem IsProduct.exists_writes {ls t} : IsProduct ls t → (∀ l ∈ ls, l.Genuine source) →
    t.IsSupported source → ∃ e, Writes source t e
  | .operand h, hls, hsupported => h.exists_writes hls hsupported
  | .more hl _ hr, hls, hsupported => by
    simp only [List.forall_mem_append, List.forall_mem_cons] at hls
    exact exists_writes_binary (hl.decided hls.1) (hr.decided hls.2.2) hls.2.1
      (hl.exists_writes hls.1) (hr.exists_writes hls.2.2) hsupported

theorem IsOperand.exists_writes {ls t} : IsOperand ls t → (∀ l ∈ ls, l.Genuine source) →
    t.IsSupported source → ∃ e, Writes source t e
  | .signed hop h, hls, hsupported => by
    rw [List.forall_mem_cons] at hls
    exact exists_writes_signed h hls.2 hls.1 (Token.isAdditive_iff.mpr hop) hsupported
  | .applied h, hls, hsupported => h.exists_writes hls hsupported

theorem IsApplied.exists_writes {ls t} : IsApplied ls t → (∀ l ∈ ls, l.Genuine source) →
    t.IsSupported source → ∃ e, Writes source t e
  | .atom h, hls, hsupported => h.exists_writes hls hsupported
  | .call h (.parens _ hts _), hls, hsupported => by
    simp only [List.forall_mem_append, List.forall_mem_cons] at hls
    exact exists_writes_call (hts.decided hls.2.2.1) (h.callee hls.1)
      (hts.exists_writes hls.2.2.1) hsupported

theorem IsAtom.exists_writes {ls t} : IsAtom ls t → (∀ l ∈ ls, l.Genuine source) →
    t.IsSupported source → ∃ e, Writes source t e
  | .number _, hls, hsupported => by
    rw [List.forall_mem_singleton] at hls
    obtain ⟨v, hv⟩ := (Tree.isSupported_number hls).mp hsupported
    rw [← hls.text_leaf .number] at hv
    exact ⟨_, .number (isToken_leaf _ _) hv⟩
  | .name _, _, _ => ⟨_, .name (isToken_leaf _ _)⟩
  | .group _ _ _, _, hsupported => (hsupported.node _ (Tree.mem_subtrees_self _)).elim

/-- Of the trees between parentheses the commas write nothing. -/
theorem AreArguments.exists_writes {ls ts} : AreArguments ls ts → (∀ l ∈ ls, l.Genuine source) →
    ∀ u ∈ ts, Decided source u → u.IsSupported source → ∃ e, Writes source u e
  | .none, _ => List.forall_mem_nil _
  | .last h, hls => List.forall_mem_singleton.mpr fun _ => h.exists_writes hls
  | .more h _ hs, hls => by
    simp only [List.forall_mem_append, List.forall_mem_cons] at hls
    refine List.forall_mem_cons.mpr ⟨fun _ => h.exists_writes hls.1, ?_⟩
    refine List.forall_mem_cons.mpr ⟨fun hcomma => ?_, hs.exists_writes hls.2.2⟩
    exact absurd rfl (hcomma.kind_ne (k := .comma) rfl (by simp))

end

/-- **A derived sum is supported exactly if it writes an expression.** -/
theorem IsSum.isSupported_iff {ls t} (h : IsSum ls t) (hls : ∀ l ∈ ls, l.Genuine source) :
    t.IsSupported source ↔ ∃ e, Writes source t e := by
  constructor
  · exact h.exists_writes hls
  · rintro ⟨e, he⟩
    have hdecides := (h.decided hls).decides t.height (Nat.le_refl _)
    rwa [(cut_exprWithin source t.height 1 t).eq_of_height_le (Nat.le_refl _), he.exprAt_eq]
      at hdecides

end Grammar

/-! ## Nested calls -/

theorem Span.CutsOut.genuine {source before text after : List Char} {s : Span}
    (h : s.CutsOut source before text after) {token : Token} (hspells : token.Spells text) :
    Lexeme.Genuine source ⟨token, String.ofList text, s⟩ where
  text_eq := h.text_eq
  stop_le := by
    obtain ⟨rfl, hstart, hstop⟩ := h
    simp only [Text.byteSize_append]
    omega
  spells := by
    rw [String.toList_ofList]
    exact hspells

namespace NestedCalls
open Grammar

/-- The text of `n` calls around a number. -/
def text : Nat → List Char
  | 0 => ['1']
  | n + 1 => ['a', 'b', 's', '('] ++ text n ++ [')']

/-- The tree of `n` calls around a number, in a script where they stand at `start`. -/
def tree (start : Nat) : Nat → Tree NodeKind
  | 0 => leaf .number ⟨.number, "1", ⟨start, start + 1⟩⟩
  | n + 1 =>
    .spanning .callExpression (leaf .variableName ⟨.name, "abs", ⟨start, start + 3⟩⟩)
      [parens ⟨.openParen, "(", ⟨start + 3, start + 4⟩⟩ [tree (start + 4) n]
        ⟨.closeParen, ")", ⟨start + 5 * n + 5, start + 5 * n + 6⟩⟩]

/-- The expression that the tree writes. -/
def expr : Nat → Expr
  | 0 => .num 1
  | n + 1 => .call1 .abs (expr n)

theorem height_expr (n : Nat) : (expr n).height = n + 1 := by
  induction n with
  | zero => rfl
  | succ n ih => rw [expr, Expr.height, ih, Nat.add_comm]

theorem height_tree (start n : Nat) : (tree start n).height = 2 * n + 1 := by
  induction n generalizing start with
  | zero => rfl
  | succ n ih =>
    simp only [tree, parens, leaf, Tree.height_spanning, Tree.forestHeight, Tree.height_leaf,
      List.singleton_append, ih]
    omega

theorem byteSize_text (n : Nat) : Text.byteSize (text n) = 5 * n + 1 := by
  induction n with
  | zero => rfl
  | succ n ih =>
    rw [text, Text.byteSize_append, Text.byteSize_append, ih]
    change 4 + (5 * n + 1) + 1 = _
    omega

section
variable (before after : List Char) (n : Nat)

/-- The inner calls stand behind the parenthesis that the outer one opens. -/
theorem source_succ : before ++ text (n + 1) ++ after =
    before ++ ['a', 'b', 's', '('] ++ text n ++ ')' :: after := by
  simp [text]

theorem cutsOut_number : Span.CutsOut (before ++ text 0 ++ after)
    ⟨Text.byteSize before, Text.byteSize before + 1⟩ before ['1'] after :=
  ⟨rfl, rfl, rfl⟩

theorem cutsOut_callee : Span.CutsOut (before ++ text (n + 1) ++ after)
    ⟨Text.byteSize before, Text.byteSize before + 3⟩ before ['a', 'b', 's']
    ('(' :: text n ++ ')' :: after) := by
  refine ⟨?_, rfl, rfl⟩
  simp [text]

theorem cutsOut_opening : Span.CutsOut (before ++ text (n + 1) ++ after)
    ⟨Text.byteSize before + 3, Text.byteSize before + 4⟩ (before ++ ['a', 'b', 's']) ['(']
    (text n ++ ')' :: after) := by
  refine ⟨?_, Text.byteSize_append _ _, rfl⟩
  simp [text]

theorem cutsOut_closing : Span.CutsOut (before ++ text (n + 1) ++ after)
    ⟨Text.byteSize before + 5 * n + 5, Text.byteSize before + 5 * n + 6⟩
    (before ++ ['a', 'b', 's', '('] ++ text n) [')'] after := by
  refine ⟨?_, ?_, rfl⟩
  · simp [text]
  · rw [Text.byteSize_append, Text.byteSize_append, byteSize_text]
    change _ + 4 + _ = Text.byteSize before + 5 * n + 5
    omega

end

/-- **The tree writes the expression.** -/
theorem writes_tree (before after : List Char) (n : Nat) :
    Reading.Writes (before ++ text n ++ after) (tree (Text.byteSize before) n) (expr n) := by
  induction n generalizing before after with
  | zero =>
    have hread : Literal.read "1" = .ok 1 := by decide +kernel
    have htext := (cutsOut_number before after).text_eq
    exact .number (isToken_leaf _ _) ((congrArg Literal.read htext).trans hread)
  | succ n ih =>
    have hinner := ih (before ++ ['a', 'b', 's', '(']) (')' :: after)
    rw [← source_succ, Text.byteSize_append] at hinner
    exact .call1 rfl rfl (isToken_leaf _ _) (cutsOut_callee before after n).text_eq rfl rfl
      (isToken_leaf _ _) hinner (isToken_leaf _ _)

/-- **The grammar derives the tree** from words of the text. -/
theorem exists_isApplied_tree (before after : List Char) (n : Nat) :
    ∃ ls, IsApplied ls (tree (Text.byteSize before) n) ∧
      ∀ l ∈ ls, l.Genuine (before ++ text n ++ after) := by
  induction n generalizing before after with
  | zero =>
    refine ⟨_, .atom (.number rfl), List.forall_mem_singleton.mpr ?_⟩
    exact (cutsOut_number before after).genuine ⟨'1', [], rfl, by decide⟩
  | succ n ih =>
    obtain ⟨ls, hinner, hls⟩ := ih (before ++ ['a', 'b', 's', '(']) (')' :: after)
    rw [← source_succ] at hls
    rw [Text.byteSize_append] at hinner
    refine ⟨_, .call (.atom (.name rfl))
      (.parens rfl (.last (.product (.operand (.applied hinner)))) rfl), ?_⟩
    simp only [List.forall_mem_append, List.forall_mem_cons]
    refine ⟨⟨?_, List.forall_mem_nil _⟩, ?_, hls, ?_, List.forall_mem_nil _⟩
    · apply (cutsOut_callee before after n).genuine
      rfl
    · apply (cutsOut_opening before after n).genuine
      rfl
    · apply (cutsOut_closing before after n).genuine
      rfl

/-! If there is nothing before and after the calls, they are a script. -/

theorem writes_script (n : Nat) : Reading.Writes (text n) (tree 0 n) (expr n) := by
  have hwrites := writes_tree [] [] n
  rwa [List.nil_append, List.append_nil] at hwrites

theorem exists_isSum_script (n : Nat) :
    ∃ ls, IsSum ls (tree 0 n) ∧ ∀ l ∈ ls, l.Genuine (text n) := by
  obtain ⟨ls, hderives, hls⟩ := exists_isApplied_tree [] [] n
  rw [List.nil_append, List.append_nil] at hls
  exact ⟨ls, .product (.operand (.applied hderives)), hls⟩

end NestedCalls

/-! ## The limit of a walk -/

namespace Walk
open Reading
variable {γ κ : Type} [TreeCursor γ] [Tagged κ] {R : γ → Location κ → Prop}

/-- **A walk keeps the limit on the levels of the expression, and not on those of the tree.**
The grammar keeps it on those of the tree: in a script no expression has more.  A tree that it
derives is supported exactly if it writes an expression, however many levels it has.  A tree that
writes an expression, wherever it comes from, has at least as many levels as that and at most
twice as many, and the walk reads it if those of the expression are within the limit.  So it keeps
the limit on the levels of the tree as well if the tree is within the limit, or if the expression
is not either; and only then. -/
theorem keepsLimit_height_tree_iff (hR : Conforms R) (source : List Char) :
    (∀ t, Tree.ofSource source = .ok t → ∀ s ∈ t.children, Grammar.KeepsTo maxNesting s) ∧
    (∀ ls t, Grammar.IsSum ls t → (∀ l ∈ ls, l.Genuine source) →
      (t.IsSupported source ↔ ∃ e, Writes source t e)) ∧
    ∀ c l e, R c l → Writes source l.focus e →
      KeepsLimit source c e e.height ∧
      (e.height ≤ l.focus.height ∧ l.focus.height ≤ 2 * e.height) ∧
      (KeepsLimit source c e l.focus.height ↔
        l.focus.height ≤ maxNesting ∨ maxNesting < e.height) := by
  refine ⟨fun t ht => ?_, fun ls t h hls => h.isSupported_iff hls, fun c l e hc h => ?_⟩
  · simp only [Tree.ofSource, Except.bind_eq_ok_iff, Except.mapError_eq_ok_iff,
      Grammar.script_eq_ok_iff] at ht
    obtain ⟨ls, -, ts, ⟨-, hkeeps⟩, ht⟩ := ht
    cases ht
    exact hkeeps
  have hkeeps := keepsLimit_height_expr hR hc (h.exprAt_eq 1)
  have hbounds := h.height_bounds
  refine ⟨hkeeps, hbounds, fun htree => ?_, fun hlevels => ⟨fun hfits => ?_, fun hhigh => ?_⟩⟩
  · -- Otherwise the walk would both read the tree and find it too deep.
    by_contra hneither
    rw [not_or, Nat.not_le, Nat.not_lt] at hneither
    obtain ⟨err, herr, -⟩ := htree.tooDeep hneither.1
    cases herr.symm.trans (hkeeps.eq_ok hneither.2)
  · exact hkeeps.eq_ok (hbounds.1.trans hfits)
  · exact hkeeps.tooDeep (hlevels.resolve_left (Nat.not_le.mpr hhigh))

/-- The tree of 127 nested calls is supported; it has 255 levels, and the walk reads it.  The tree
of 256 has 513, and the walk finds it too deep. -/
theorem keepsLimit_height_tree_iff_nested :
    (NestedCalls.tree 0 127).IsSupported (NestedCalls.text 127) ∧
    KeepsLimit (NestedCalls.text 127) (NestedCalls.tree 0 127).top (NestedCalls.expr 127) 255 ∧
    KeepsLimit (NestedCalls.text 256) (NestedCalls.tree 0 256).top (NestedCalls.expr 256) 513 := by
  have hlimit (n : Nat) :=
    keepsLimit_height_tree_iff (conforms_location (κ := NodeKind)) (NestedCalls.text n)
  have hnested (n : Nat) : KeepsLimit (NestedCalls.text n) (NestedCalls.tree 0 n).top
      (NestedCalls.expr n) (2 * n + 1) ↔ 2 * n + 1 ≤ maxNesting ∨ maxNesting < n + 1 := by
    have hiff := ((hlimit n).2.2 _ _ _ (Eq.refl (NestedCalls.tree 0 n).top)
      (NestedCalls.writes_script n)).2.2
    simp only [Tree.top, NestedCalls.height_tree, NestedCalls.height_expr] at hiff
    exact hiff
  obtain ⟨ls, hsum, hls⟩ := NestedCalls.exists_isSum_script 127
  have hsupported := ((hlimit 127).2.1 ls _ hsum hls).mpr ⟨_, NestedCalls.writes_script 127⟩
  exact ⟨hsupported, (hnested 127).mpr (by decide), (hnested 256).mpr (by decide)⟩

/-- **Nested calls are read although their tree is above the limit.**  The grammar derives it and
it is supported, but it has 257 levels. -/
theorem not_keepsLimit_height_tree :
    let source := NestedCalls.text 128
    let t := NestedCalls.tree 0 128
    let e := NestedCalls.expr 128
    (∃ ls, Grammar.IsSum ls t ∧ (∀ l ∈ ls, l.Genuine source) ∧ t.IsSupported source) ∧
      t.height = 257 ∧ outcome (expr source) t.top = .ok e ∧
      ¬KeepsLimit source t.top e t.height := by
  intro source t e
  have hwrites : Writes source t e := NestedCalls.writes_script 128
  have hheight : t.height = 257 := NestedCalls.height_tree 0 128
  have hread : outcome (expr source) t.top = .ok e := by
    apply (keepsLimit_height_expr conforms_location (Eq.refl t.top) (hwrites.exprAt_eq 1)).eq_ok
    rw [NestedCalls.height_expr]
    decide
  obtain ⟨ls, hsum, hls⟩ := NestedCalls.exists_isSum_script 128
  refine ⟨⟨ls, hsum, hls, (hsum.isSupported_iff hls).mpr ⟨e, hwrites⟩⟩, hheight, hread, ?_⟩
  intro hkeeps
  have hhigh : maxNesting < t.height := by
    rw [hheight]
    decide
  obtain ⟨err, herr, -⟩ := hkeeps.tooDeep hhigh
  cases herr.symm.trans hread

end Walk

end ArithWat
