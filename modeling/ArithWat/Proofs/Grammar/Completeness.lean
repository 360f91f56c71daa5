import ArithWat.Proofs.Grammar.Soundness

/-!
# What is derivable is read

The converse of `Soundness`: on lexemes that begin with those of a derivation, and go
on with nothing that could extend it, a rule reads the tree of the derivation, as long
as the tree keeps to the limit.

A repetition is followed from the inside: after the lexemes of a first part of it, the
rule stands in the loop with the tree of that part (`IsSum.read`, `IsProduct.read`,
`IsApplied.read`), whatever comes next.  The number of levels left is never what stops
a rule, for it is at least the height of the tree still to be read.

Since the rules give one tree, and the limit can be as large as one likes, lexemes have
at most one tree (`IsScript.unique`).
-/

namespace ArithWat.Grammar
variable {limit : Nat}

/-! ## What can follow -/

/-- A list of lexemes that does not begin with a token of the class `p`. -/
def Apart (p : Token → Bool) (ls : List Lexeme) : Prop := ∀ l ∈ ls.head?, p l.token = false

theorem Apart.mono {p q : Token → Bool} {ls : List Lexeme} (h : Apart q ls)
    (hpq : ∀ t, p t = true → q t = true) : Apart p ls := by
  intro l hl
  cases hp : p l.token with
  | false => rfl
  | true => rw [← h l hl, hpq l.token hp]

theorem apart_cons {p : Token → Bool} {l : Lexeme} {ls : List Lexeme} :
    Apart p (l :: ls) ↔ p l.token = false := by
  simp [Apart]

/-- The tokens that go on with an operand: an argument list may begin. -/
def extendsOperand (t : Token) : Bool := decide (t = .openParen)

/-- The tokens that go on with a product. -/
def extendsProduct (t : Token) : Bool := t.isMultiplicative || extendsOperand t

/-- The tokens that go on with a sum. -/
def extendsSum (t : Token) : Bool := t.isAdditive || extendsProduct t

theorem extendsProduct_of_isAdditive {t : Token} (h : t.isAdditive = true) :
    extendsProduct t = false := by
  revert h
  cases t <;> decide

theorem extendsOperand_of_isMultiplicative {t : Token} (h : t.isMultiplicative = true) :
    extendsOperand t = false := by
  revert h
  cases t <;> decide

theorem Apart.operand {ls : List Lexeme} (h : Apart extendsProduct ls) :
    Apart extendsOperand ls :=
  h.mono fun t ht => by simp [extendsProduct, ht]

theorem Apart.isMultiplicative {ls : List Lexeme} (h : Apart extendsProduct ls) :
    Apart Token.isMultiplicative ls :=
  h.mono fun t ht => by simp [extendsProduct, ht]

theorem Apart.product {ls : List Lexeme} (h : Apart extendsSum ls) : Apart extendsProduct ls :=
  h.mono fun t ht => by simp [extendsSum, ht]

theorem Apart.isAdditive {ls : List Lexeme} (h : Apart extendsSum ls) :
    Apart Token.isAdditive ls :=
  h.mono fun t ht => by simp [extendsSum, ht]

/-! ## Steps of the loops -/

theorem build_eq_ok {k : NodeKind} {first : Tree NodeKind} {more : List (Tree NodeKind)}
    (h : (Tree.spanning k first more).height ≤ limit) :
    build limit k first more = .ok (.spanning k first more) :=
  build_eq_ok_iff.mpr ⟨rfl, h⟩

theorem expect_eq_ok {t : Token} {k : NodeKind} {l : Lexeme} {ls : List Lexeme}
    (h : l.token = t) : expect t k (l :: ls) = .ok (leaf k l, ls) :=
  expect_eq_ok_iff.mpr ⟨l, rfl, h, rfl⟩

/-- A repetition ends where no operator follows. -/
theorem chainFrom_stop {isOp : Token → Bool} {rule : Rule} {ls : List Lexeme}
    (h : Apart isOp ls) (room : List Lexeme) (left : Tree NodeKind) :
    chainFrom limit isOp rule room left ls = .ok (left, ls) := by
  cases ls with
  | nil => cases room <;> rfl
  | cons op ls =>
    cases room with
    | nil => rfl
    | cons _ room =>
      rw [apart_cons] at h
      simp [chainFrom, h]

/-- A repetition goes on where an operator follows and the rule reads on. -/
theorem chainFrom_step {isOp : Token → Bool} {rule : Rule} {room ls rest : List Lexeme}
    {op : Lexeme} {left right : Tree NodeKind} (hop : isOp op.token = true)
    (hright : rule ls = .ok (right, rest)) (hrest : rest.length ≤ ls.length)
    (hheight : (Tree.spanning .binaryExpression left [leaf .arithOp op, right]).height ≤ limit)
    (hroom : (op :: ls).length ≤ room.length) :
    ∃ room', rest.length ≤ room'.length ∧
      chainFrom limit isOp rule room left (op :: ls) =
        chainFrom limit isOp rule room'
          (.spanning .binaryExpression left [leaf .arithOp op, right]) rest := by
  cases room with
  | nil => cases hroom
  | cons _ room =>
    refine ⟨room, Nat.le_trans hrest (Nat.le_of_succ_le_succ hroom), ?_⟩
    simp [chainFrom, hop, hright, build_eq_ok hheight]

theorem calls_stop {rule : Rule} {ls : List Lexeme} (h : Apart extendsOperand ls)
    (room : List Lexeme) (callee : Tree NodeKind) :
    calls limit rule room callee ls = .ok (callee, ls) := by
  cases ls with
  | nil => cases room <;> rfl
  | cons l ls =>
    cases room with
    | nil => rfl
    | cons _ room =>
      rw [apart_cons] at h
      have hl : ¬ l.token = .openParen := of_decide_eq_false h
      simp [calls, hl]

theorem calls_step {rule : Rule} {room ls rest : List Lexeme} {l : Lexeme}
    {callee args : Tree NodeKind} (hl : l.token = .openParen)
    (hargs : argList limit rule l ls = .ok (args, rest)) (hrest : rest.length ≤ ls.length)
    (hheight : (Tree.spanning .callExpression callee [args]).height ≤ limit)
    (hroom : (l :: ls).length ≤ room.length) :
    ∃ room', rest.length ≤ room'.length ∧
      calls limit rule room callee (l :: ls) =
        calls limit rule room' (.spanning .callExpression callee [args]) rest := by
  cases room with
  | nil => cases hroom
  | cons _ room =>
    refine ⟨room, Nat.le_trans hrest (Nat.le_of_succ_le_succ hroom), ?_⟩
    simp [calls, hl, hargs, build_eq_ok hheight]

/-! ## Expressions -/

/-- The lexemes that begin an expression do not close a parenthesis. -/
theorem IsSum.head_ne_closeParen {ls t} (h : IsSum ls t) (rest : List Lexeme) :
    (ls ++ rest).head?.map Lexeme.token ≠ some .closeParen := by
  obtain ⟨l, ls', rfl, hl⟩ := h.head
  simp only [List.cons_append, List.head?_cons, Option.map_some, ne_eq, Option.some.injEq]
  intro hclose
  rw [hclose] at hl
  cases hl

/-- No atom begins here. -/
theorem atom_of_apart {rule : Rule} {ls : List Lexeme} (h : Apart opensAtom ls) :
    atom limit rule ls = .error (failAt ls (.expectedExpression (.ofLexemes ls))) := by
  rcases ls with _ | ⟨l, ls⟩
  · rfl
  · rw [apart_cons] at h
    cases hl : l.token with
    | number | name | openParen =>
      rw [hl] at h
      cases h
    | _ => simp only [atom, hl]

theorem signed_of_apart {operand expression : Rule} {ls : List Lexeme}
    (h : Apart Token.isAdditive ls) :
    signed limit operand expression ls = applied limit expression ls := by
  rcases ls with _ | ⟨l, ls⟩
  · rfl
  · rw [signed, apart_cons.mp h]
    rfl

theorem signed_of_isApplied {operand expression : Rule} {ls t} (h : IsApplied ls t)
    (rest : List Lexeme) :
    signed limit operand expression (ls ++ rest) = applied limit expression (ls ++ rest) := by
  obtain ⟨l, ls', rfl, hl⟩ := h.head
  exact signed_of_apart (apart_cons.mpr (isAdditive_of_opensAtom hl))

mutual

/-- After the lexemes of a sum the rule for expressions stands in its loop, with the
tree of the sum. -/
theorem IsSum.read {ls t} : IsSum ls t → ∀ {levels} (rest), t.height ≤ levels →
    t.height ≤ limit → Apart extendsProduct rest →
    ∃ room, rest.length ≤ room.length ∧
      expression limit levels (ls ++ rest) =
        chainFrom limit Token.isAdditive
          (chain limit Token.isMultiplicative (operand limit levels)) room t rest
  | .product h, levels, rest, hlevels, hlimit, hrest => by
    obtain ⟨room, -, hread⟩ := h.read rest hlevels hlimit hrest.operand
    rw [chainFrom_stop hrest.isMultiplicative] at hread
    refine ⟨rest, Nat.le_refl _, ?_⟩
    rw [expression, sum, chain, hread]
    rfl
  | @IsSum.more ls rs op left right hl hop hr, levels, rest, hlevels, hlimit, hrest => by
    have hop := Token.isAdditive_iff.mpr hop
    have hheight := hlimit
    simp only [Tree.height_spanning_le_iff, List.forall_mem_cons] at hlevels hlimit
    obtain ⟨room, hroom, hread⟩ := hl.read (op :: (rs ++ rest)) (Nat.le_of_lt hlevels.1)
      (Nat.le_of_lt hlimit.1) (apart_cons.mpr (extendsProduct_of_isAdditive hop))
    obtain ⟨_, -, hright⟩ := hr.read rest (Nat.le_of_lt hlevels.2.2.1)
      (Nat.le_of_lt hlimit.2.2.1) hrest.operand
    rw [chainFrom_stop hrest.isMultiplicative] at hright
    obtain ⟨room', hroom', hstep⟩ := chainFrom_step hop hright (by simp) hheight hroom
    exact ⟨room', hroom', by rw [List.append_assoc, List.cons_append, hread, hstep]⟩

/-- After the lexemes of a product the rule for products stands in its loop. -/
theorem IsProduct.read {ls t} : IsProduct ls t → ∀ {levels} (rest), t.height ≤ levels →
    t.height ≤ limit → Apart extendsOperand rest →
    ∃ room, rest.length ≤ room.length ∧
      chain limit Token.isMultiplicative (operand limit levels) (ls ++ rest) =
        chainFrom limit Token.isMultiplicative (operand limit levels) room t rest
  | .operand h, levels, rest, hlevels, hlimit, hrest => by
    refine ⟨rest, Nat.le_refl _, ?_⟩
    rw [chain, h.read rest hlevels hlimit hrest]
    rfl
  | @IsProduct.more ls rs op left right hl hop hr, levels, rest, hlevels, hlimit, hrest => by
    have hop := Token.isMultiplicative_iff.mpr hop
    have hheight := hlimit
    simp only [Tree.height_spanning_le_iff, List.forall_mem_cons] at hlevels hlimit
    obtain ⟨room, hroom, hread⟩ := hl.read (op :: (rs ++ rest)) (Nat.le_of_lt hlevels.1)
      (Nat.le_of_lt hlimit.1) (apart_cons.mpr (extendsOperand_of_isMultiplicative hop))
    have hright := hr.read rest (Nat.le_of_lt hlevels.2.2.1) (Nat.le_of_lt hlimit.2.2.1) hrest
    obtain ⟨room', hroom', hstep⟩ := chainFrom_step hop hright (by simp) hheight hroom
    exact ⟨room', hroom', by rw [List.append_assoc, List.cons_append, hread, hstep]⟩

/-- The rule for operands reads an operand. -/
theorem IsOperand.read {ls t} : IsOperand ls t → ∀ {levels} (rest), t.height ≤ levels →
    t.height ≤ limit → Apart extendsOperand rest →
    operand limit levels (ls ++ rest) = .ok (t, rest)
  | @IsOperand.signed ls op t hop h, levels, rest, hlevels, hlimit, hrest => by
    have hop := Token.isAdditive_iff.mpr hop
    have hheight := hlimit
    simp only [Tree.height_spanning_le_iff, List.forall_mem_cons] at hlevels hlimit
    cases levels with
    | zero => exact absurd hlevels.1 (Nat.not_lt_zero _)
    | succ levels =>
      have hinner := h.read rest (Nat.le_of_lt_succ hlevels.2.1) (Nat.le_of_lt hlimit.2.1) hrest
      simp [operand, signed, hop, hinner, build_eq_ok hheight]
  | .applied h, levels, rest, hlevels, hlimit, hrest => by
    cases levels with
    | zero => exact absurd hlevels (Nat.not_le_of_lt t.height_pos)
    | succ levels =>
      obtain ⟨room, -, hread⟩ := h.read rest hlevels hlimit
      rw [operand, signed_of_isApplied h rest]
      exact hread.trans (calls_stop hrest room t)

/-- After the lexemes of an atom with argument lists the rule stands in its loop.  One
level of the tree stands for the parentheses around whatever is read inside. -/
theorem IsApplied.read {ls t} : IsApplied ls t → ∀ {levels} (rest), t.height ≤ levels + 1 →
    t.height ≤ limit →
    ∃ room, rest.length ≤ room.length ∧
      applied limit (expression limit levels) (ls ++ rest) =
        calls limit (expression limit levels) room t rest
  | .atom h, levels, rest, hlevels, hlimit => by
    refine ⟨rest, Nat.le_refl _, ?_⟩
    rw [applied, h.read rest hlevels hlimit]
    rfl
  | @IsApplied.call ls rs callee args h hargs, levels, rest, hlevels, hlimit => by
    have hheight := hlimit
    simp only [Tree.height_spanning_le_iff, List.forall_mem_cons] at hlevels hlimit
    obtain ⟨l, rs', rfl, hl, hread⟩ := hargs.read rest (Nat.le_of_lt hlevels.2.1)
      (Nat.le_of_lt hlimit.2.1)
    obtain ⟨room, hroom, hcallee⟩ := h.read (l :: (rs' ++ rest)) (Nat.le_of_lt hlevels.1)
      (Nat.le_of_lt hlimit.1)
    obtain ⟨room', hroom', hstep⟩ := calls_step hl hread (by simp) hheight hroom
    exact ⟨room', hroom', by rw [List.append_assoc, List.cons_append, hcallee, hstep]⟩

theorem IsAtom.read {ls t} : IsAtom ls t → ∀ {levels} (rest), t.height ≤ levels + 1 →
    t.height ≤ limit → atom limit (expression limit levels) (ls ++ rest) = .ok (t, rest)
  | .number h, levels, rest, _, _ => by simp [atom, h]
  | .name h, levels, rest, _, _ => by simp [atom, h]
  | @IsAtom.group ls l l' t hl h hl', levels, rest, hlevels, hlimit => by
    have hheight := hlimit
    simp only [Tree.height_spanning_le_iff, List.forall_mem_cons] at hlevels hlimit
    have hapart : Apart extendsSum (l' :: rest) := apart_cons.mpr (by rw [hl']; rfl)
    obtain ⟨room, -, hread⟩ := h.read (l' :: rest) (Nat.le_of_lt_succ hlevels.2.1)
      (Nat.le_of_lt hlimit.2.1) hapart.product
    rw [chainFrom_stop hapart.isAdditive] at hread
    simp [atom, hl, hread, expect_eq_ok hl', build_eq_ok hheight]

theorem IsArgList.read {ls t} : IsArgList ls t → ∀ {levels} (rest), t.height ≤ levels + 1 →
    t.height ≤ limit →
    ∃ l ls', ls = l :: ls' ∧ l.token = .openParen ∧
      argList limit (expression limit levels) l (ls' ++ rest) = .ok (t, rest)
  | @IsArgList.parens ls l l' ts hl h hl', levels, rest, hlevels, hlimit => by
    have hheight := hlimit
    simp only [Tree.height_spanning_le_iff, List.forall_mem_cons, List.forall_mem_append]
      at hlevels hlimit
    have hread := h.read (l :: (ls ++ l' :: rest)) rest
      (fun t ht => Nat.le_of_lt_succ (hlevels.2.1 t ht))
      (fun t ht => Nat.le_of_lt (hlimit.2.1 t ht))
      (by simp only [List.length_append, List.length_cons]; omega) hl'
    refine ⟨l, ls ++ [l'], rfl, hl, ?_⟩
    simp [argList, hread, expect_eq_ok hl', build_eq_ok hheight]

theorem AreArguments.read {ls ts} : AreArguments ls ts → ∀ {levels close} (room rest),
    (∀ t ∈ ts, t.height ≤ levels) → (∀ t ∈ ts, t.height ≤ limit) →
    ls.length < room.length → close.token = .closeParen →
    arguments (expression limit levels) room (ls ++ close :: rest) = .ok (ts, close :: rest)
  | .none, levels, close, room, rest, _, _, hroom, hclose => by
    cases room with
    | nil => cases hroom
    | cons _ room => simp [arguments, hclose]
  | .last h, levels, close, room, rest, hlevels, hlimit, hroom, hclose => by
    have hapart : Apart extendsSum (close :: rest) := apart_cons.mpr (by rw [hclose]; rfl)
    obtain ⟨_, -, hread⟩ := h.read (close :: rest) (hlevels _ List.mem_cons_self)
      (hlimit _ List.mem_cons_self) hapart.product
    rw [chainFrom_stop hapart.isAdditive] at hread
    cases room with
    | nil => cases hroom
    | cons _ room =>
      rw [arguments, if_neg (h.head_ne_closeParen _), hread]
      simp [hclose]
  | @AreArguments.more ls rs l t ts h hl hs, levels, close, room, rest, hlevels, hlimit, hroom,
      hclose => by
    have hapart : Apart extendsSum (l :: (rs ++ close :: rest)) :=
      apart_cons.mpr (by rw [hl]; rfl)
    obtain ⟨_, -, hread⟩ := h.read (l :: (rs ++ close :: rest)) (hlevels _ List.mem_cons_self)
      (hlimit _ List.mem_cons_self) hapart.product
    rw [chainFrom_stop hapart.isAdditive] at hread
    cases room with
    | nil => cases hroom
    | cons _ room =>
      have hmore := hs.read room rest
        (fun t ht => hlevels t (List.mem_cons_of_mem _ (List.mem_cons_of_mem _ ht)))
        (fun t ht => hlimit t (List.mem_cons_of_mem _ (List.mem_cons_of_mem _ ht)))
        (by simp at hroom; omega) hclose
      rw [List.append_assoc, List.cons_append, arguments, if_neg (h.head_ne_closeParen _), hread]
      simp [hl, hmore]

end

/-- **An expression is read** where nothing follows that could extend it. -/
theorem IsSum.expression_eq {ls rest t} (h : IsSum ls t) (hlimit : t.height ≤ limit)
    (hrest : Apart extendsSum rest) :
    expression limit limit (ls ++ rest) = .ok (t, rest) := by
  obtain ⟨room, -, hread⟩ := h.read rest hlimit hlimit hrest.product
  rw [hread, chainFrom_stop hrest.isAdditive]

/-! ## Statements and scripts -/

theorem BeginsWith.apart {ls : List Lexeme} (h : BeginsWith Token.isSeparator ls) :
    Apart extendsSum ls := by
  intro l hl
  have hsep := h l hl
  revert hsep
  cases l.token <;> decide

theorem BeginsWith.any_eq_false {ls : List Lexeme} (h : BeginsWith Token.isSeparator ls) :
    ls.head?.any (!·.token.isSeparator) = false := by
  rcases ls with _ | ⟨l, ls⟩
  · rfl
  · simpa using h l rfl

/-- What does not begin with a name and an equals sign is not taken for an assignment. -/
theorem statement_of_not_assign {ls : List Lexeme}
    (h : ∀ l l' rest, ls = l :: l' :: rest → ¬(l.token = .name ∧ l'.token = .assign)) :
    statement limit ls = statement.plain limit ls := by
  unfold statement
  split
  · rename_i l l' rest
    exact if_neg (h l l' rest rfl)
  · rfl

/-- Lexemes of an expression are not taken for an assignment. -/
theorem statement_eq_plain {ls rest : List Lexeme} (hls : ∀ l ∈ ls, isInner l.token = true)
    (hrest : BeginsWith Token.isSeparator rest) (hne : ls ≠ []) :
    statement limit (ls ++ rest) = statement.plain limit (ls ++ rest) := by
  have hassign : ∀ l l' more, ls ++ rest = l :: l' :: more → l'.token ≠ .assign := by
    intro l l' more heq hl'
    obtain ⟨a, ls, rfl⟩ := List.exists_cons_of_ne_nil hne
    cases ls with
    | nil =>
      obtain ⟨-, rfl⟩ := List.cons.inj heq
      have := hrest l' rfl
      rw [hl'] at this
      cases this
    | cons b ls =>
      obtain ⟨-, heq⟩ := List.cons.inj heq
      obtain ⟨rfl, -⟩ := List.cons.inj heq
      have := hls b (by simp)
      rw [hl'] at this
      cases this
  exact statement_of_not_assign fun l l' more heq htokens => hassign l l' more heq htokens.2

/-- **A statement is read** where a separator or nothing follows. -/
theorem IsStatement.read {ls rest t} (h : IsStatement ls t) (hlimit : KeepsTo limit t)
    (hrest : BeginsWith Token.isSeparator rest) :
    statement limit (ls ++ rest) = .ok (t, rest) := by
  cases h with
  | @assign ls l l' e hl hl' h =>
    have hread := h.expression_eq (hlimit e (by simp)) hrest.apart
    simp [statement, hl, hl', hread]
  | @expression ls e h =>
    have hread := h.expression_eq (hlimit e (by simp)) hrest.apart
    have hne : ls ≠ [] := by
      obtain ⟨l, ls', rfl, -⟩ := h.head
      exact List.cons_ne_nil _ _
    rw [statement_eq_plain h.isInner hrest hne]
    simp [statement.plain, hread]

/-- A statement does not begin with a separator. -/
theorem IsStatement.skipSeparators_eq {ls t} (h : IsStatement ls t) (rest : List Lexeme) :
    skipSeparators (ls ++ rest) = ls ++ rest := by
  have hhead : ∃ l ls', ls = l :: ls' ∧ l.token.isSeparator = false := by
    cases h with
    | assign hl hl' h => exact ⟨_, _, rfl, by rw [hl]; rfl⟩
    | expression h =>
      obtain ⟨l, ls', rfl, hl⟩ := h.head
      refine ⟨l, ls', rfl, ?_⟩
      revert hl
      cases l.token <;> decide
  obtain ⟨l, ls', rfl, hl⟩ := hhead
  simp [skipSeparators, hl]

theorem length_skipSeparators_le (ls : List Lexeme) :
    (skipSeparators ls).length ≤ ls.length :=
  (List.dropWhile_sublist _).length_le

/-- It does not matter how much room there is, as long as there is enough. -/
theorem statements_congr_room {room room' ls : List Lexeme} (h : ls.length ≤ room.length)
    (h' : ls.length ≤ room'.length) : statements limit room ls = statements limit room' ls := by
  induction room generalizing room' ls with
  | nil =>
    obtain rfl := List.length_eq_zero_iff.mp (Nat.le_zero.mp h)
    cases room' with
    | nil => rfl
    | cons r room' => rfl
  | cons r room ih =>
    cases room' with
    | nil =>
      obtain rfl := List.length_eq_zero_iff.mp (Nat.le_zero.mp h')
      rfl
    | cons r' room' =>
      have hskip := length_skipSeparators_le ls
      rw [statements, statements]
      split
      · rfl
      · rename_i l ls' heq
        rw [heq] at hskip
        cases hstmt : statement limit (l :: ls') with
        | error e => rfl
        | ok x =>
          -- A statement takes a lexeme, so what is left fits into the smaller rooms.
          obtain ⟨front, hfront, hstatement, -⟩ := statement_reads hstmt
          have hpos := hstatement.length_pos
          rw [hfront, List.length_append] at hskip
          rw [List.length_cons] at h h'
          simp only [Except.ok_bind]
          have hmore : statements limit room x.2 = statements limit room' x.2 :=
            ih (by omega) (by omega)
          rw [hmore]

theorem statements_eq_script {room ls : List Lexeme} (h : ls.length ≤ room.length) :
    statements limit room ls = script limit ls :=
  statements_congr_room h (Nat.le_refl _)

/-- A separator before a script is skipped. -/
theorem script_cons_separator {l : Lexeme} (hl : l.token.isSeparator = true)
    (ls : List Lexeme) : script limit (l :: ls) = script limit ls := by
  have hskip : skipSeparators (l :: ls) = skipSeparators ls := List.dropWhile_cons_of_pos hl
  have hroom : ls.length ≤ (l :: ls).length := Nat.le_succ _
  rw [← statements_eq_script hroom, script, statements, statements, hskip]

theorem script_append_separators {seps : List Lexeme}
    (hseps : ∀ l ∈ seps, l.token.isSeparator = true) (ls : List Lexeme) :
    script limit (seps ++ ls) = script limit ls := by
  induction seps with
  | nil => rfl
  | cons l seps ih =>
    rw [List.forall_mem_cons] at hseps
    rw [List.cons_append, script_cons_separator hseps.1, ih hseps.2]

/-- After a statement the script goes on as one of its own. -/
theorem IsStatement.script_append {ls rest : List Lexeme} {t : Tree NodeKind}
    (h : IsStatement ls t) (hlimit : KeepsTo limit t) (hrest : BeginsWith Token.isSeparator rest) :
    script limit (ls ++ rest) = (script limit rest).bimap id (t :: ·) := by
  have hread := h.read hlimit hrest
  have hskip := h.skipSeparators_eq rest
  have hsep := hrest.any_eq_false
  obtain ⟨l, ls', rfl⟩ := List.exists_cons_of_length_pos h.length_pos
  have hroom : rest.length ≤ (ls' ++ rest).length := by
    rw [List.length_append]
    omega
  rw [List.cons_append] at hread hskip ⊢
  rw [script, statements, hskip]
  simp only [hread, Except.ok_bind, hsep, Bool.false_eq_true, if_false,
    statements_eq_script hroom]
  cases script limit rest with
  | error e => rfl
  | ok ts => rfl

/-- **The statements of a script are read.** -/
theorem IsScript.read {ls ts} (h : IsScript ls ts) (hlimit : ∀ t ∈ ts, KeepsTo limit t) :
    script limit ls = .ok ts := by
  induction h using IsScript.induction with
  | @blank seps hseps =>
    have hread : script limit (seps ++ []) = script limit [] := script_append_separators hseps []
    rwa [List.append_nil] at hread
  | more hseps hstmt hbegins hscript ih =>
    rw [List.forall_mem_cons] at hlimit
    rw [script_append_separators hseps, hstmt.script_append hlimit.1 hbegins, ih hlimit.2,
      Except.bimap_ok]

/-- **The rules accept a script exactly when it is derivable within the limit**, and then
give the trees of the derivation. -/
theorem script_eq_ok_iff {ls : List Lexeme} {ts : List (Tree NodeKind)} :
    script limit ls = .ok ts ↔ IsScript ls ts ∧ ∀ t ∈ ts, KeepsTo limit t :=
  ⟨statements_reads (Nat.le_refl _), fun h => h.1.read h.2⟩

theorem keepsTo_of_height_le {t : Tree NodeKind} (h : t.height ≤ limit) : KeepsTo limit t := by
  intro e he
  cases t with
  | node k s ts =>
    exact Nat.le_trans (Tree.forestHeight_le_iff.mp (Nat.le_refl _) e he) (Nat.le_of_succ_le h)

/-- **The grammar is unambiguous**: lexemes have at most one list of trees, however many
levels these have. -/
theorem IsScript.unique {ls : List Lexeme} {ts ts' : List (Tree NodeKind)}
    (h : IsScript ls ts) (h' : IsScript ls ts') : ts = ts' := by
  -- Both are what the rules give under a limit above all of their heights.
  have hread : script (max (Tree.forestHeight ts) (Tree.forestHeight ts')) ls = .ok ts :=
    script_eq_ok_iff.mpr ⟨h, fun t ht => keepsTo_of_height_le
      (Nat.le_trans (Tree.forestHeight_le_iff.mp (Nat.le_refl _) t ht) (Nat.le_max_left ..))⟩
  have hread' : script (max (Tree.forestHeight ts) (Tree.forestHeight ts')) ls = .ok ts' :=
    script_eq_ok_iff.mpr ⟨h', fun t ht => keepsTo_of_height_le
      (Nat.le_trans (Tree.forestHeight_le_iff.mp (Nat.le_refl _) t ht) (Nat.le_max_right ..))⟩
  exact Except.ok.inj (hread.symm.trans hread')

end ArithWat.Grammar

namespace ArithWat
open Grammar

/-- **The tree of a script is its derivation.**  A script that can be scanned has a tree
exactly when its significant lexemes are derivable and every expression of the
derivation has at most `maxNesting` levels; the tree is that derivation below a root
that spans the script; and there is no second derivation, of whatever height. -/
theorem Tree.ofSource_eq_ok_iff {source : List Char} {ls : List Lexeme}
    (hscan : Scan.lexemes source = .ok ls) :
    (∀ t, Tree.ofSource source = .ok t ↔
      ∃ stmts, IsScript (Lexeme.significant 0 ls) stmts ∧
        (∀ s ∈ stmts, ∀ e ∈ s.children, e.height ≤ maxNesting) ∧
        t = .node .script ⟨0, Text.byteSize source⟩ stmts) ∧
    ∀ stmts stmts', IsScript (Lexeme.significant 0 ls) stmts →
      IsScript (Lexeme.significant 0 ls) stmts' → stmts = stmts' := by
  refine ⟨fun t => ?_, fun _ _ h h' => h.unique h'⟩
  simp only [Tree.ofSource, hscan, Except.mapError_ok, Except.ok_bind, Except.bind_eq_ok_iff,
    Except.mapError_eq_ok_iff, script_eq_ok_iff, KeepsTo]
  constructor
  · rintro ⟨stmts, ⟨hscript, hheight⟩, ht⟩
    exact ⟨stmts, hscript, hheight, (Except.ok.inj ht).symm⟩
  · rintro ⟨stmts, hscript, hheight, rfl⟩
    exact ⟨stmts, ⟨hscript, hheight⟩, rfl⟩

/-- A product of a signed number, which is read from the left, a call with a comma after
its last argument, and a line feed that is layout. -/
theorem Tree.ofSource_eq_ok_iff_call :
    let source := "a = -1 // 2 % 3; b(a / 2,\n)".toList
    let stmts : List (Tree NodeKind) :=
      [.node .assignStatement ⟨0, 15⟩
        [.leaf .variableName ⟨0, 1⟩, .leaf .assignOp ⟨2, 3⟩,
         .node .binaryExpression ⟨4, 15⟩
          [.node .binaryExpression ⟨4, 11⟩
            [.node .unaryExpression ⟨4, 6⟩ [.leaf .arithOp ⟨4, 5⟩, .leaf .number ⟨5, 6⟩],
             .leaf .arithOp ⟨7, 9⟩, .leaf .number ⟨10, 11⟩],
           .leaf .arithOp ⟨12, 13⟩, .leaf .number ⟨14, 15⟩]],
       .node .expressionStatement ⟨17, 27⟩
        [.node .callExpression ⟨17, 27⟩
          [.leaf .variableName ⟨17, 18⟩,
           .node .argList ⟨18, 27⟩
            [.leaf .openParen ⟨18, 19⟩,
             .node .binaryExpression ⟨19, 24⟩
              [.leaf .variableName ⟨19, 20⟩, .leaf .arithOp ⟨21, 22⟩, .leaf .number ⟨23, 24⟩],
             .leaf .comma ⟨24, 25⟩, .leaf .closeParen ⟨26, 27⟩]]]]
    ∃ ls, Scan.lexemes source = .ok ls ∧
      Tree.ofSource source = .ok (.node .script ⟨0, 27⟩ stmts) ∧
      IsScript (Lexeme.significant 0 ls) stmts ∧
      ∀ s ∈ stmts, ∀ e ∈ s.children, e.height ≤ maxNesting := by
  intro source stmts
  have htree : Tree.ofSource source = .ok (.node .script ⟨0, 27⟩ stmts) := by
    decide +kernel
  cases hscan : Scan.lexemes source with
  | error e => simp [Tree.ofSource, hscan] at htree
  | ok ls =>
    obtain ⟨stmts', hscript, hheight, heq⟩ := ((Tree.ofSource_eq_ok_iff hscan).1 _).mp htree
    obtain rfl : stmts = stmts' := congrArg Tree.children heq
    exact ⟨ls, rfl, htree, hscript, hheight⟩

end ArithWat
