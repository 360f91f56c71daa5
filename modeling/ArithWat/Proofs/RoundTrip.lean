import ArithWat.Proofs.Grammar.Balance
import ArithWat.Proofs.Printing
import ArithWat.Proofs.Spans

/-!
# Reading back what was printed

The lexemes of a printed program are derivable, one statement after the other, and the
trees of the derivation are read as the statements that were printed.  An expression is
derived in the class that it belongs to, and its tree has exactly as many levels as the
expression takes (`Expr.exists_derivation`), so the nesting limit refuses nothing that is
expressible.

Together with `isExpressible_of_parse` this makes the expressible programs exactly those
that scripts have, and printing a right inverse of parsing up to spans.
-/

namespace ArithWat
open Grammar Reading

/-! ## Numbers and names are read back -/

theorem natOfDigits_toDigits (n : Nat) : Decimal.natOfDigits (Nat.toDigits 10 n) = n :=
  Nat.ofDigitChars_ten_toDigits

/-- **A printed integer is read back.** -/
theorem Literal.read_numeral {text : String} {v : Int} (htext : text.toList = numeral v)
    (hrange : least ≤ v ∧ v ≤ greatest) : read text = .ok v := by
  have hvalue := natOfDigits_toDigits v.natAbs
  obtain ⟨d, ds, hcons, hd, hds⟩ := Decimal.exists_toDigits_eq_cons v.natAbs
  have hdigits : ∀ c ∈ d :: ds, c.isDigit = true := List.forall_mem_cons.mpr ⟨hd, hds⟩
  rw [numeral, hcons] at htext
  rw [hcons] at hvalue
  split at htext
  · refine read_digits true (d :: ds) ?_ (List.cons_ne_nil _ _) hdigits ?_ hrange
    · rw [htext]
      rfl
    · rw [hvalue, if_pos rfl]
      omega
  · refine read_digits false (d :: ds) ?_ (List.cons_ne_nil _ _) hdigits ?_ hrange
    · rw [htext, splitSign_number (.inl hd)]
    · rw [hvalue, if_neg Bool.false_ne_true]
      omega

theorem UnaryBuiltin.ofName?_name (f : UnaryBuiltin) : ofName? f.name = some f := by
  cases f <;> decide

theorem UnaryBuiltin.ofName?_binaryName (f : BinaryBuiltin) : ofName? f.name = none := by
  cases f <;> decide

theorem BinaryBuiltin.ofName?_name (f : BinaryBuiltin) : ofName? f.name = some f := by
  cases f <;> decide

/-! ## Trees that are read -/

section
variable {source : List Char} {n : Nat}

theorem exprWithin_number {l : Lexeme} {v : Int} (hl : l.Genuine source)
    (hv : Literal.read l.text = .ok v) :
    exprWithin source (n + 1) (leaf .number l) = .ok (.num v) := by
  change literal (leaf .number l) (text source (leaf .number l)) = _
  rw [hl.text_leaf, literal, hv]

theorem exprWithin_signed {sign l : Lexeme} {v : Int} (hsign : sign.Genuine source)
    (hl : l.Genuine source) (hminus : sign.text = "-")
    (hv : Literal.read (sign.text ++ l.text) = .ok v) :
    exprWithin source (n + 1) (.spanning .unaryExpression (leaf .arithOp sign) [leaf .number l]) =
      .ok (.num v) := by
  have hsigned : signedText source (leaf .arithOp sign) [leaf .number l] =
      .ok (sign.text ++ l.text) := by
    simp [signedText, next, hsign.text_leaf, hl.text_leaf, hminus]
  change (signedText source _ _ >>= literal _) = _
  rw [hsigned, Except.ok_bind, literal, hv]

theorem exprWithin_binary {left right : Tree NodeKind} {op : Lexeme} {o : ArithOp} {l r : Expr}
    (hop : op.Genuine source) (ho : ArithOp.ofText? op.text = some o)
    (hl : exprWithin source n left = .ok l) (hr : exprWithin source n right = .ok r) :
    exprWithin source (n + 1) (.spanning .binaryExpression left [leaf .arithOp op, right]) =
      .ok (.binary o l r) := by
  have hoperator : operator source (leaf .arithOp op) = .ok o := by
    rw [operator, hop.text_leaf, ho]
    exact if_pos (kind?_eq_kind (leaf .arithOp op))
  change binary source (exprWithin source n) _ = _
  simp only [binary, withinChildren, Tree.children_spanning, next, hl, hr, hoperator,
    Except.ok_bind]

/-- A tree that has been read can be an argument. -/
theorem isArgument_of_exprWithin {t : Tree NodeKind} {e : Expr}
    (h : exprWithin source n t = .ok e) : Walk.isArgument (some t.kind) = true := by
  have hkind := isExpression_of_exprWithin h
  cases hk : t.kind <;> first | rfl | (rw [hk] at hkind; cases hkind)

theorem exprWithin_call1 {callee a : Tree NodeKind} {l l' : Lexeme} {f : UnaryBuiltin} {e : Expr}
    (hf : text source callee = f.name) (ha : exprWithin source n a = .ok e) :
    exprWithin source (n + 1) (.spanning .callExpression callee
      [.spanning .argList (leaf .openParen l) ([a] ++ [leaf .closeParen l'])]) =
      .ok (.call1 f e) := by
  have harg := isArgument_of_exprWithin ha
  change call source (exprWithin source n) _ = _
  simp [call, withinChildren, hf, UnaryBuiltin.ofName?_name, withinArguments, next, nextTo,
    harg, ha]

theorem exprWithin_call2 {callee a b : Tree NodeKind} {l l' l'' : Lexeme} {f : BinaryBuiltin}
    {e e' : Expr} (hf : text source callee = f.name) (ha : exprWithin source n a = .ok e)
    (hb : exprWithin source n b = .ok e') :
    exprWithin source (n + 1) (.spanning .callExpression callee
      [.spanning .argList (leaf .openParen l) ([a, leaf .comma l', b] ++ [leaf .closeParen l''])]) =
      .ok (.call2 f e e') := by
  have harg := isArgument_of_exprWithin ha
  have harg' := isArgument_of_exprWithin hb
  change call source (exprWithin source n) _ = _
  simp [call, withinChildren, hf, UnaryBuiltin.ofName?_binaryName, BinaryBuiltin.ofName?_name,
    withinArguments, next, nextTo, harg, harg', ha, hb]

/-! ## Expressions -/

/-- A tree has the levels of an expression and is read as it, up to spans. -/
structure IsTreeOf (source : List Char) (e : Expr) (t : Tree NodeKind) : Prop where
  height_eq : t.height = e.levels
  reads : ∀ n, e.levels ≤ n →
    ∃ e', exprWithin source n t = .ok e' ∧ e'.unspanned = e.unspanned

/-- What it means that lexemes are derivable as an expression, in its class. -/
def Derives (source : List Char) (ls : List Lexeme) (e : Expr) : Prop :=
  ∃ t, IsSum ls t ∧ (e.isSum = false → IsProduct ls t) ∧ (e.isBinary = false → IsOperand ls t) ∧
    IsTreeOf source e t

theorem derives_of_isOperand {ls : List Lexeme} {e : Expr} {t : Tree NodeKind}
    (h : IsOperand ls t) (ht : IsTreeOf source e t) : Derives source ls e :=
  ⟨t, .product (.operand h), fun _ => .operand h, fun _ => h, ht⟩

theorem derives_num {v : Int} (hv : (Expr.num v).IsPlain) {ls : List Lexeme}
    (hls : ∀ l ∈ ls, l.Genuine source)
    (hspelling : ls.map Lexeme.spelling = (Expr.num v).spelling) :
    Derives source ls (.num v) := by
  unfold Expr.spelling at hspelling
  split at hspelling
  · rename_i hneg
    obtain ⟨sign, ls, rfl, hsign, hrest⟩ := List.map_eq_cons_iff.mp hspelling
    obtain ⟨l, ls, rfl, hl, hnil⟩ := List.map_eq_cons_iff.mp hrest
    obtain rfl := List.map_eq_nil_iff.mp hnil
    obtain ⟨htoken, htext⟩ := Prod.mk.inj hsign
    obtain ⟨htoken', htext'⟩ := Prod.mk.inj hl
    simp only [List.forall_mem_cons] at hls
    have hread : Literal.read (sign.text ++ l.text) = .ok v := by
      refine Literal.read_numeral ?_ hv
      rw [String.toList_append, htext, htext', numeral, if_pos hneg]
      rfl
    have hminus : sign.text = "-" := String.toList_inj.mp htext
    refine derives_of_isOperand
      (.sign (by rw [htoken]; rfl) (.applied (.atom (.number htoken')))) ⟨?_, fun n hn => ?_⟩
    · rw [Expr.levels, if_pos hneg]
      rfl
    · cases n with
      | zero => rw [Expr.levels, if_pos hneg] at hn; cases hn
      | succ n => exact ⟨_, exprWithin_signed hls.1 hls.2.1 hminus hread, rfl⟩
  · rename_i hnonneg
    obtain ⟨l, ls, rfl, hl, hnil⟩ := List.map_eq_cons_iff.mp hspelling
    obtain rfl := List.map_eq_nil_iff.mp hnil
    obtain ⟨htoken, htext⟩ := Prod.mk.inj hl
    have hread : Literal.read l.text = .ok v := by
      refine Literal.read_numeral ?_ hv
      rw [htext, numeral, if_neg hnonneg]
    refine derives_of_isOperand (.applied (.atom (.number htoken))) ⟨?_, fun n hn => ?_⟩
    · rw [Expr.levels, if_neg hnonneg]
      rfl
    · cases n with
      | zero => rw [Expr.levels, if_neg hnonneg] at hn; cases hn
      | succ n => exact ⟨_, exprWithin_number (hls l List.mem_cons_self) hread, rfl⟩

theorem derives_ref {name : String} {span : Span} {ls : List Lexeme}
    (hls : ∀ l ∈ ls, l.Genuine source)
    (hspelling : ls.map Lexeme.spelling = (Expr.ref name span).spelling) :
    Derives source ls (.ref name span) := by
  obtain ⟨l, ls, rfl, hl, hnil⟩ := List.map_eq_cons_iff.mp hspelling
  obtain rfl := List.map_eq_nil_iff.mp hnil
  obtain ⟨htoken, htext⟩ := Prod.mk.inj hl
  refine derives_of_isOperand (.applied (.atom (.name htoken))) ⟨rfl, fun n hn => ?_⟩
  cases n with
  | zero => cases hn
  | succ n =>
    refine ⟨_, rfl, ?_⟩
    have hname : text source (leaf .variableName l) = name :=
      ((hls l List.mem_cons_self).text_leaf _).trans (String.toList_inj.mp htext)
    rw [hname]
    rfl

theorem derives_binary {op : ArithOp} {l r : Expr} (he : (Expr.binary op l r).IsPlain)
    {ls rs : List Lexeme} {o : Lexeme} (ho : o.Genuine source)
    (hspelling : o.spelling = (op.token, [op.symbol]))
    (hl : Derives source ls l) (hr : Derives source rs r) :
    Derives source (ls ++ o :: rs) (.binary op l r) := by
  obtain ⟨left, hsuml, hproductl, -, htl⟩ := hl
  obtain ⟨right, hsumr, hproductr, hoperandr, htr⟩ := hr
  have htoken : o.token = op.token := congrArg Prod.fst hspelling
  have htree : IsTreeOf source (.binary op l r)
      (.spanning .binaryExpression left [leaf .arithOp o, right]) := by
    have hop : ArithOp.ofText? o.text = some op := by
      rw [ofText?_text ho (by rw [htoken]; cases op <;> decide), htoken]
      cases op <;> rfl
    have hposl := left.height_pos
    rw [htl.height_eq] at hposl
    refine ⟨?_, fun n hn => ?_⟩
    · rw [Tree.height_spanning]
      simp only [Tree.forestHeight, htl.height_eq, htr.height_eq, height_leaf, Expr.levels]
      omega
    · rw [Expr.levels] at hn
      cases n with
      | zero => omega
      | succ n =>
        obtain ⟨l', hl', hlspans⟩ := htl.reads n (by omega)
        obtain ⟨r', hr', hrspans⟩ := htr.reads n (by omega)
        refine ⟨_, exprWithin_binary ho hop hl' hr', ?_⟩
        rw [Expr.unspanned_binary, hlspans, hrspans, Expr.unspanned_binary]
  cases op with
  | add | sub =>
    refine ⟨_, .add hsuml (by rw [htoken]; rfl) (hproductr he.2.2), fun h => ?_, fun h => ?_, htree⟩
    · cases h
    · cases h
  | mul =>
    have hproduct := IsProduct.mul (hproductl he.2.2.1) (by rw [htoken]; rfl) (hoperandr he.2.2.2)
    exact ⟨_, .product hproduct, fun _ => hproduct, fun h => Bool.noConfusion h, htree⟩

theorem derives_call1 {f : UnaryBuiltin} {a : Expr} {c o c' : Lexeme} {ls : List Lexeme}
    (hc : c.Genuine source) (hname : c.spelling = (.name, f.name.toList))
    (hopen : o.token = .openParen) (hclose : c'.token = .closeParen) (ha : Derives source ls a) :
    Derives source (c :: o :: (ls ++ [c'])) (.call1 f a) := by
  obtain ⟨t, hsum, -, -, ht⟩ := ha
  obtain ⟨htoken, htext⟩ := Prod.mk.inj hname
  have hf : text source (leaf .variableName c) = f.name :=
    (hc.text_leaf _).trans (String.toList_inj.mp htext)
  have hpos := t.height_pos
  rw [ht.height_eq] at hpos
  have happlied : IsApplied ([c] ++ o :: (ls ++ [c'])) _ :=
    .call (.atom (.name htoken)) (.parens hopen (.last hsum) hclose)
  refine derives_of_isOperand (.applied happlied) ⟨?_, fun n hn => ?_⟩
  · simp only [Tree.height_spanning, Tree.forestHeight, List.singleton_append, ht.height_eq,
      height_leaf, Expr.levels]
    omega
  · rw [Expr.levels] at hn
    cases n with
    | zero => omega
    | succ n =>
      obtain ⟨a', ha', hspans⟩ := ht.reads n (by omega)
      refine ⟨_, exprWithin_call1 hf ha', ?_⟩
      rw [Expr.unspanned_call1, hspans, Expr.unspanned_call1]

theorem derives_call2 {f : BinaryBuiltin} {a b : Expr} {c o m c' : Lexeme} {ls rs : List Lexeme}
    (hc : c.Genuine source) (hname : c.spelling = (.name, f.name.toList))
    (hopen : o.token = .openParen) (hcomma : m.token = .comma) (hclose : c'.token = .closeParen)
    (ha : Derives source ls a) (hb : Derives source rs b) :
    Derives source (c :: o :: (ls ++ m :: rs ++ [c'])) (.call2 f a b) := by
  obtain ⟨t, hsum, -, -, ht⟩ := ha
  obtain ⟨u, hsum', -, -, hu⟩ := hb
  obtain ⟨htoken, htext⟩ := Prod.mk.inj hname
  have hf : text source (leaf .variableName c) = f.name :=
    (hc.text_leaf _).trans (String.toList_inj.mp htext)
  have hpos := t.height_pos
  rw [ht.height_eq] at hpos
  have happlied : IsApplied ([c] ++ o :: (ls ++ m :: rs ++ [c'])) _ :=
    .call (.atom (.name htoken)) (.parens hopen (.more hsum hcomma (.last hsum')) hclose)
  refine derives_of_isOperand (.applied happlied) ⟨?_, fun n hn => ?_⟩
  · simp only [Tree.height_spanning, Tree.forestHeight, List.cons_append, List.nil_append,
      ht.height_eq, hu.height_eq, height_leaf, Expr.levels]
    omega
  · rw [Expr.levels] at hn
    cases n with
    | zero => omega
    | succ n =>
      obtain ⟨a', ha', hspans⟩ := ht.reads n (by omega)
      obtain ⟨b', hb', hspans'⟩ := hu.reads n (by omega)
      refine ⟨_, exprWithin_call2 hf ha' hb', ?_⟩
      rw [Expr.unspanned_call2, hspans, hspans', Expr.unspanned_call2]

/-- **The tokens of a plain expression are derivable**, in its class, and the tree has the
levels that the expression takes. -/
theorem Expr.derives {e : Expr} (he : e.IsPlain) {ls : List Lexeme}
    (hls : ∀ l ∈ ls, l.Genuine source) (hspelling : ls.map Lexeme.spelling = e.spelling) :
    Derives source ls e := by
  induction e generalizing ls with
  | num v => exact derives_num he hls hspelling
  | ref name span => exact derives_ref hls hspelling
  | binary op l r ihl ihr =>
    obtain ⟨ls, rs', rfl, hl, hr⟩ := List.map_eq_append_iff.mp hspelling
    obtain ⟨o, rs, rfl, ho, hr⟩ := List.map_eq_cons_iff.mp hr
    simp only [List.forall_mem_append, List.forall_mem_cons] at hls
    exact derives_binary he hls.2.1 ho (ihl he.1 hls.1 hl) (ihr he.2.1 hls.2.2 hr)
  | call1 f a iha =>
    obtain ⟨c, rs, rfl, hname, hrest⟩ := List.map_eq_cons_iff.mp hspelling
    obtain ⟨o, rs, rfl, hopen, hrest⟩ := List.map_eq_cons_iff.mp hrest
    obtain ⟨ls, rs, rfl, ha, hrest⟩ := List.map_eq_append_iff.mp hrest
    obtain ⟨c', rs, rfl, hclose, hnil⟩ := List.map_eq_cons_iff.mp hrest
    obtain rfl := List.map_eq_nil_iff.mp hnil
    simp only [List.forall_mem_append, List.forall_mem_cons] at hls
    exact derives_call1 hls.1 hname (congrArg Prod.fst hopen) (congrArg Prod.fst hclose)
      (iha he hls.2.2.1 ha)
  | call2 f a b iha ihb =>
    obtain ⟨c, rs, rfl, hname, hrest⟩ := List.map_eq_cons_iff.mp hspelling
    obtain ⟨o, rs, rfl, hopen, hrest⟩ := List.map_eq_cons_iff.mp hrest
    obtain ⟨ls, rs, rfl, ha, hrest⟩ := List.map_eq_append_iff.mp hrest
    obtain ⟨m, rs, rfl, hcomma, hrest⟩ := List.map_eq_cons_iff.mp hrest
    obtain ⟨rs, us, rfl, hb, hrest⟩ := List.map_eq_append_iff.mp hrest
    obtain ⟨c', us, rfl, hclose, hnil⟩ := List.map_eq_cons_iff.mp hrest
    obtain rfl := List.map_eq_nil_iff.mp hnil
    simp only [List.forall_mem_append, List.forall_mem_cons] at hls
    have hderives := derives_call2 hls.1 hname (congrArg Prod.fst hopen)
      (congrArg Prod.fst hcomma) (congrArg Prod.fst hclose) (iha he.1 hls.2.2.1 ha)
      (ihb he.2 hls.2.2.2.2.1 hb)
    rwa [List.append_assoc] at hderives

/-! ## Statements and programs -/

/-- **The tokens of an expressible statement are derivable** within the limit, and read
back. -/
theorem Stmt.exists_isStatement {s : Stmt} (hs : s.IsExpressible) {ls : List Lexeme}
    (hls : ∀ l ∈ ls, l.Genuine source) (hspelling : ls.map Lexeme.spelling = s.spelling) :
    ∃ t s', IsStatement ls t ∧ KeepsTo maxNesting t ∧ stmt source t = .ok s' ∧
      s'.unspanned = s.unspanned := by
  cases s with
  | define name value =>
    obtain ⟨c, rs, rfl, hname, hrest⟩ := List.map_eq_cons_iff.mp hspelling
    obtain ⟨o, rs, rfl, hassign, hrest⟩ := List.map_eq_cons_iff.mp hrest
    simp only [List.forall_mem_cons] at hls
    obtain ⟨t, hsum, -, -, ht⟩ := Expr.derives hs.2.1 hls.2.2 hrest
    obtain ⟨e, he, hspans⟩ := ht.reads maxNesting hs.2.2
    obtain ⟨htoken, htext⟩ := Prod.mk.inj hname
    have htarget : text source (leaf .variableName c) = name :=
      (hls.1.text_leaf _).trans (String.toList_inj.mp htext)
    refine ⟨_, .define name e, .assign htoken (congrArg Prod.fst hassign) hsum, ?_, ?_, ?_⟩
    · simp only [KeepsTo, Tree.children_spanning, List.forall_mem_cons, height_leaf, ht.height_eq]
      exact ⟨by decide, by decide, hs.2.2, List.forall_mem_nil _⟩
    · simp [stmt, withinChildren, next, Reading.expr, htarget, he]
    · rw [Stmt.unspanned_define, hspans, Stmt.unspanned_define]
  | expr value =>
    obtain ⟨t, hsum, -, -, ht⟩ := Expr.derives hs.1 hls hspelling
    obtain ⟨e, he, hspans⟩ := ht.reads maxNesting hs.2
    refine ⟨_, .expr e, .expression hsum, ?_, ?_, ?_⟩
    · simp only [KeepsTo, Tree.children_spanning, List.forall_mem_cons, ht.height_eq]
      exact ⟨hs.2, List.forall_mem_nil _⟩
    · simp [stmt, withinChildren, Reading.expr, he]
    · rw [Stmt.unspanned_expr, hspans, Stmt.unspanned_expr]

/-- **The tokens of an expressible program are derivable** within the limit, and read back;
all its line feeds stand outside parentheses. -/
theorem Program.exists_isScript {p : Program} (hp : p.IsExpressible) {ls : List Lexeme}
    (hls : ∀ l ∈ ls, l.Genuine source) (hspelling : ls.map Lexeme.spelling = p.spelling) :
    ∃ ts, ∃ q : Program, Lexeme.significant 0 ls = ls ∧ IsScript ls ts ∧
      (∀ t ∈ ts, KeepsTo maxNesting t) ∧ ts.mapM (stmt source) = .ok q ∧
      q.unspanned = p.unspanned := by
  induction p generalizing ls with
  | nil =>
    obtain rfl := List.map_eq_nil_iff.mp hspelling
    exact ⟨[], [], rfl, .blank (List.forall_mem_nil _), List.forall_mem_nil _, rfl, rfl⟩
  | cons s p ih =>
    obtain ⟨hs, hp⟩ := List.forall_mem_cons.mp hp
    rw [spelling, List.flatMap_cons, List.append_assoc] at hspelling
    obtain ⟨ls, rs, rfl, hstmt, hrest⟩ := List.map_eq_append_iff.mp hspelling
    obtain ⟨l, rs, rfl, hline, hrest⟩ := List.map_eq_cons_iff.mp hrest
    have hnewline : l.token = .newline := congrArg Prod.fst hline
    simp only [List.forall_mem_append, List.forall_mem_cons] at hls
    obtain ⟨t, s', ht, hkeeps, hread, hspans⟩ := Stmt.exists_isStatement hs hls.1 hstmt
    obtain ⟨ts, q, hsignificant, hts, hkeeps', hread', hspans'⟩ := ih hp hls.2.2 hrest
    refine ⟨t :: ts, s' :: q, ?_, ?_, List.forall_mem_cons.mpr ⟨hkeeps, hkeeps'⟩, ?_, ?_⟩
    · rw [Lexeme.significant_append_newline (ht.depthAfter_eq 0) hnewline,
        Lexeme.significant_eq_self ht.token_ne_newline, hsignificant]
    · have hsep : l.token.isSeparator = true := by rw [hnewline]; rfl
      have hscript : IsScript ([] ++ (ls ++ l :: rs)) (t :: ts) :=
        .statement (List.forall_mem_nil _) ht (beginsWith_cons.mpr hsep) (hts.cons_separator hsep)
      exact hscript
    · rw [List.mapM_cons, hread, Except.ok_bind, hread']
      rfl
    · rw [Program.unspanned_cons, hspans, hspans', Program.unspanned_cons]

end

/-- **Scripts have exactly the expressible programs, and printing leads back.**  A program
that is read off a script is expressible, and an expressible program is read off its
printed text, up to spans. -/
theorem Script.expressible_of_parse_and_parse_written :
    (∀ source p, Script.parse source = .ok p → p.IsExpressible) ∧
    ∀ p : Program, p.IsExpressible →
      ∃ q, Script.parse (String.ofList p.written) = .ok q ∧ q.unspanned = p.unspanned := by
  refine ⟨fun source p => isExpressible_of_parse, fun p hp => ?_⟩
  cases p with
  | nil => exact ⟨[], rfl, rfl⟩
  | cons s p =>
    have hs := (List.forall_mem_cons.mp hp).1
    obtain ⟨ls, hscan, hspelling⟩ := (Program.yields hp).exists_lexemes
    obtain ⟨ts, q, hsignificant, hscript, hkeeps, hread, hspans⟩ :=
      Program.exists_isScript hp (Scan.genuine_of_lexemes hscan) hspelling
    refine ⟨q, ?_, hspans⟩
    rw [Script.parse, String.toList_ofList, Program.isEmpty_trim_written hs,
      if_neg Bool.false_ne_true]
    rw [← hsignificant] at hscript
    exact Script.parseTree_eq_ok_iff.mpr ⟨ls, ts, hscan, hscript, hkeeps, hread⟩

/-- A program with the least number, operators of both classes and nested calls, and a
script with a signed zero, a comment and a line feed between arguments. -/
theorem Script.expressible_of_parse_and_parse_written_pow :
    let x := Expr.ref "x_1" ⟨7, 9⟩
    let p : Program :=
      [.define "x_1" (.num (-2147483648)),
       .expr (.binary .sub (.binary .mul x (.num (-3)))
         (.call2 .pow (.binary .add x (.num 20)) (.call1 .abs x)))]
    let q : Program := [.define "y" (.call2 .min (.num 0) (.ref "y" ⟨13, 14⟩))]
    (p.IsExpressible ∧
      p.written = "x_1 = -2147483648\nx_1 * -3 - pow(x_1 + 20, abs(x_1))\n".toList ∧
      ∃ q, Script.parse (String.ofList p.written) = .ok q ∧ q.unspanned = p.unspanned) ∧
    Script.parse "y = min(-0,\n y) # y" = .ok q ∧ q.IsExpressible := by
  intro x p q
  have hp : p.IsExpressible := by decide
  have hq : Script.parse "y = min(-0,\n y) # y" = .ok q := by
    decide +kernel
  obtain ⟨himage, hround⟩ := Script.expressible_of_parse_and_parse_written
  exact ⟨⟨hp, by decide, hround p hp⟩, hq, himage _ q hq⟩

end ArithWat
