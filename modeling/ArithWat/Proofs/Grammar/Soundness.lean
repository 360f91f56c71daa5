import ArithWat.Proofs.Grammar.Derivation
import ArithWat.Proofs.Outcome

/-!
# What the rules read is derivable

A rule that succeeds has read a front part of its lexemes, and the tree that it gives
is a tree of that part in the sense of `Derivation`, with no more levels than the
limit.  The rules for repetitions are treated once for any rule to be repeated
(`Reads`); recursion through signs and parentheses is induction on the number of
levels left (`reads_operand`).
-/

namespace ArithWat.Grammar
variable {limit : Nat}

/-! ## The steps of a rule -/

theorem build_eq_ok_iff {k : NodeKind} {first t : Tree NodeKind} {more : List (Tree NodeKind)} :
    build limit k first more = .ok t ↔ t = .spanning k first more ∧ t.height ≤ limit := by
  unfold build
  dsimp only
  split
  · rename_i hle
    constructor
    · intro h
      cases h
      exact ⟨rfl, hle⟩
    · rintro ⟨rfl, -⟩
      rfl
  · rename_i hgt
    constructor
    · intro h
      cases h
    · rintro ⟨rfl, hle⟩
      exact absurd hle hgt

theorem expect_eq_ok_iff {t : Token} {k : NodeKind} {ls rest : List Lexeme}
    {tree : Tree NodeKind} :
    expect t k ls = .ok (tree, rest) ↔ ∃ l, ls = l :: rest ∧ l.token = t ∧ tree = leaf k l := by
  cases ls with
  | nil => simp [expect]
  | cons l ls =>
    simp only [expect]
    split
    · rename_i hl
      constructor
      · intro h
        cases h
        exact ⟨l, rfl, hl, rfl⟩
      · rintro ⟨l', h, -, rfl⟩
        cases h
        rfl
    · rename_i hl
      constructor
      · intro h
        cases h
      · rintro ⟨l', h, hl', -⟩
        cases h
        exact absurd hl' hl

/-- **A rule reads trees of a kind**: when it succeeds, it has taken the lexemes of the
tree off the front, and the tree keeps to the limit. -/
def Reads (limit : Nat) (P : List Lexeme → Tree NodeKind → Prop) (rule : Rule) : Prop :=
  ∀ ls t rest, rule ls = .ok (t, rest) →
    ∃ front, ls = front ++ rest ∧ P front t ∧ t.height ≤ limit

/-! ## Repetitions -/

section Chain
variable {P Q : List Lexeme → Tree NodeKind → Prop} {isOp : Token → Bool} {rule : Rule}

/-- What is read after `left` extends the lexemes of `left` to those of the whole. -/
theorem chainFrom_reads (hrule : Reads limit P rule)
    (hmore : ∀ {ls rs op left right}, Q ls left → isOp op.token = true → P rs right →
      Q (ls ++ op :: rs) (.spanning .binaryExpression left [leaf .arithOp op, right]))
    {room ls rest : List Lexeme} {left t : Tree NodeKind}
    (h : chainFrom limit isOp rule room left ls = .ok (t, rest))
    {front : List Lexeme} (hleft : Q front left) (hheight : left.height ≤ limit) :
    ∃ front', front ++ ls = front' ++ rest ∧ Q front' t ∧ t.height ≤ limit := by
  fun_induction chainFrom limit isOp rule room left ls generalizing front with
  | case1 _ room left op ls hop ih =>
    simp only [Except.bind_eq_ok_iff] at h
    obtain ⟨⟨right, ls'⟩, hright, tree, hbuild, h⟩ := h
    obtain ⟨rfl, htree⟩ := build_eq_ok_iff.mp hbuild
    obtain ⟨mid, rfl, hmid, -⟩ := hrule _ _ _ hright
    obtain ⟨front', heq, hfront'⟩ := ih _ _ h (hmore hleft hop hmid) htree
    exact ⟨front', by simpa using heq, hfront'⟩
  | case2 _ room left op ls hop =>
    cases h
    exact ⟨front, rfl, hleft, hheight⟩
  | case3 room left ls =>
    cases h
    exact ⟨front, rfl, hleft, hheight⟩

theorem reads_chain (hrule : Reads limit P rule) (hone : ∀ {ls t}, P ls t → Q ls t)
    (hmore : ∀ {ls rs op left right}, Q ls left → isOp op.token = true → P rs right →
      Q (ls ++ op :: rs) (.spanning .binaryExpression left [leaf .arithOp op, right])) :
    Reads limit Q (chain limit isOp rule) := by
  intro ls t rest h
  simp only [chain, Except.bind_eq_ok_iff] at h
  obtain ⟨⟨left, ls'⟩, hleft, h⟩ := h
  obtain ⟨front, rfl, hfront, hheight⟩ := hrule _ _ _ hleft
  exact chainFrom_reads hrule hmore h (hone hfront) hheight

end Chain

theorem reads_sum {rule : Rule} (hrule : Reads limit IsOperand rule) :
    Reads limit IsSum (sum limit rule) :=
  reads_chain (reads_chain hrule .operand .mul) .product .add

section Expression
variable {rule : Rule}

theorem arguments_reads (hrule : Reads limit IsSum rule) {room ls rest : List Lexeme}
    {ts : List (Tree NodeKind)} (h : arguments rule room ls = .ok (ts, rest)) :
    ∃ front, ls = front ++ rest ∧ AreArguments front ts := by
  induction room generalizing ls ts rest with
  | nil =>
    cases h
    exact ⟨[], rfl, .none⟩
  | cons _ room ih =>
    simp only [arguments] at h
    split at h
    · cases h
      exact ⟨[], rfl, .none⟩
    · rw [Except.bind_eq_ok_iff] at h
      obtain ⟨⟨t, ls'⟩, ht, h⟩ := h
      obtain ⟨front, rfl, hfront, -⟩ := hrule _ _ _ ht
      cases ls' with
      | nil =>
        cases h
        exact ⟨front, rfl, .last hfront⟩
      | cons l ls' =>
        dsimp only at h
        split at h
        · rename_i hl
          simp only [Except.bind_eq_ok_iff] at h
          obtain ⟨⟨ts', ls''⟩, hts, h⟩ := h
          obtain ⟨more, rfl, hmore⟩ := ih hts
          cases h
          exact ⟨front ++ l :: more, by simp, .more hfront hl hmore⟩
        · cases h
          exact ⟨front, rfl, .last hfront⟩

theorem argList_reads (hrule : Reads limit IsSum rule) {l : Lexeme} (hl : l.token = .openParen)
    {ls rest : List Lexeme} {t : Tree NodeKind} (h : argList limit rule l ls = .ok (t, rest)) :
    ∃ front, l :: ls = front ++ rest ∧ IsArgList front t := by
  simp only [argList, Except.bind_eq_ok_iff] at h
  obtain ⟨⟨ts, ls'⟩, hts, ⟨close, ls''⟩, hclose, tree, hbuild, h⟩ := h
  obtain ⟨rfl, -⟩ := build_eq_ok_iff.mp hbuild
  obtain ⟨l', rfl, hl', rfl⟩ := expect_eq_ok_iff.mp hclose
  obtain ⟨front, rfl, hfront⟩ := arguments_reads hrule hts
  cases h
  exact ⟨l :: (front ++ [l']), by simp, .parens hl hfront hl'⟩

theorem calls_reads (hrule : Reads limit IsSum rule) {room ls rest : List Lexeme}
    {callee t : Tree NodeKind} (h : calls limit rule room callee ls = .ok (t, rest))
    {front : List Lexeme} (hcallee : IsApplied front callee) (hheight : callee.height ≤ limit) :
    ∃ front', front ++ ls = front' ++ rest ∧ IsApplied front' t ∧ t.height ≤ limit := by
  fun_induction calls limit rule room callee ls generalizing front with
  | case1 _ room callee l ls hl ih =>
    simp only [Except.bind_eq_ok_iff] at h
    obtain ⟨⟨args, ls'⟩, hargs, tree, hbuild, h⟩ := h
    obtain ⟨rfl, htree⟩ := build_eq_ok_iff.mp hbuild
    obtain ⟨mid, hmid, hargs⟩ := argList_reads hrule hl hargs
    obtain ⟨front', heq, hfront'⟩ := ih _ _ h (.call hcallee hargs) htree
    exact ⟨front', by rw [← heq, hmid, List.append_assoc], hfront'⟩
  | case2 _ room callee l ls hl =>
    cases h
    exact ⟨front, rfl, hcallee, hheight⟩
  | case3 room callee ls =>
    cases h
    exact ⟨front, rfl, hcallee, hheight⟩

theorem reads_atom (hrule : Reads limit IsSum rule) (hlimit : 0 < limit) :
    Reads limit IsAtom (atom limit rule) := by
  intro ls t rest h
  cases ls with
  | nil => cases h
  | cons l ls =>
    simp only [atom] at h
    split at h
    · rename_i hl
      cases h
      exact ⟨[l], rfl, .number hl, hlimit⟩
    · rename_i hl
      cases h
      exact ⟨[l], rfl, .name hl, hlimit⟩
    · rename_i hl
      simp only [Except.bind_eq_ok_iff] at h
      obtain ⟨⟨inner, ls'⟩, hinner, ⟨close, ls''⟩, hclose, tree, hbuild, h⟩ := h
      obtain ⟨rfl, htree⟩ := build_eq_ok_iff.mp hbuild
      obtain ⟨l', rfl, hl', rfl⟩ := expect_eq_ok_iff.mp hclose
      obtain ⟨front, rfl, hfront, -⟩ := hrule _ _ _ hinner
      cases h
      exact ⟨l :: (front ++ [l']), by simp, .group hl hfront hl', htree⟩
    · cases h

theorem reads_applied (hrule : Reads limit IsSum rule) (hlimit : 0 < limit) :
    Reads limit IsApplied (applied limit rule) := by
  intro ls t rest h
  simp only [applied, Except.bind_eq_ok_iff] at h
  obtain ⟨⟨callee, ls'⟩, hcallee, h⟩ := h
  obtain ⟨front, rfl, hfront, hheight⟩ := reads_atom hrule hlimit _ _ _ hcallee
  exact calls_reads hrule h (.atom hfront) hheight

theorem reads_signed {operand : Rule} (hoperand : Reads limit IsOperand operand)
    (hrule : Reads limit IsSum rule) (hlimit : 0 < limit) :
    Reads limit IsOperand (signed limit operand rule) := by
  have happlied : Reads limit IsOperand (applied limit rule) := by
    intro ls t rest h
    obtain ⟨front, heq, hfront, hheight⟩ := reads_applied hrule hlimit _ _ _ h
    exact ⟨front, heq, .applied hfront, hheight⟩
  intro ls t rest h
  cases ls with
  | nil => exact happlied _ _ _ h
  | cons l ls =>
    simp only [signed] at h
    split at h
    · rename_i hl
      simp only [Except.bind_eq_ok_iff] at h
      obtain ⟨⟨inner, ls'⟩, hinner, tree, hbuild, h⟩ := h
      obtain ⟨rfl, htree⟩ := build_eq_ok_iff.mp hbuild
      obtain ⟨front, rfl, hfront, -⟩ := hoperand _ _ _ hinner
      cases h
      exact ⟨l :: front, rfl, .sign hl hfront, htree⟩
    · exact happlied _ _ _ h

end Expression

/-! ## Expressions and statements -/

/-- **Operands are derivable**, whatever number of levels is left. -/
theorem reads_operand {levels : Nat} (hlevels : levels ≤ limit) :
    Reads limit IsOperand (operand limit levels) := by
  induction levels with
  | zero =>
    intro ls t rest h
    cases h
  | succ levels ih =>
    have hinner := ih (Nat.le_of_succ_le hlevels)
    exact reads_signed hinner (reads_sum hinner) (Nat.lt_of_lt_of_le (Nat.succ_pos _) hlevels)

/-- **Expressions are derivable.** -/
theorem reads_expression : Reads limit IsSum (expression limit limit) :=
  reads_sum (reads_operand (Nat.le_refl limit))

/-- The levels of a statement are those of what it is made of. -/
def KeepsTo (limit : Nat) (t : Tree NodeKind) : Prop := ∀ e ∈ t.children, e.height ≤ limit

theorem plain_reads {ls rest : List Lexeme} {t : Tree NodeKind}
    (h : statement.plain limit ls = .ok (t, rest)) :
    ∃ front, ls = front ++ rest ∧ IsStatement front t ∧ KeepsTo limit t := by
  simp only [statement.plain, Except.bind_eq_ok_iff] at h
  obtain ⟨⟨e, ls'⟩, he, h⟩ := h
  obtain ⟨front, rfl, hfront, hheight⟩ := reads_expression _ _ _ he
  cases h
  exact ⟨front, rfl, .expression hfront, by simpa [KeepsTo] using hheight⟩

theorem statement_reads {ls rest : List Lexeme} {t : Tree NodeKind}
    (h : statement limit ls = .ok (t, rest)) :
    ∃ front, ls = front ++ rest ∧ IsStatement front t ∧ KeepsTo limit t := by
  unfold statement at h
  split at h
  · split at h
    · rename_i l l' more htokens
      simp only [Except.bind_eq_ok_iff] at h
      obtain ⟨⟨e, ls'⟩, he, h⟩ := h
      obtain ⟨front, rfl, hfront, hheight⟩ := reads_expression _ _ _ he
      have hpos : 0 < limit := Nat.lt_of_lt_of_le e.height_pos hheight
      cases h
      refine ⟨l :: l' :: front, rfl, .assign htokens.1 htokens.2 hfront, ?_⟩
      simpa [KeepsTo, leaf] using ⟨hpos, hheight⟩
    · exact plain_reads h
  · exact plain_reads h

/-- A statement has a lexeme. -/
theorem IsStatement.length_pos {ls : List Lexeme} {t : Tree NodeKind} (h : IsStatement ls t) :
    0 < ls.length := by
  cases h with
  | assign => exact Nat.succ_pos _
  | expression h =>
    obtain ⟨l, ls', rfl, -⟩ := h.head
    exact Nat.succ_pos _

/-- What `skipSeparators` skips are separators. -/
theorem exists_skipSeparators (ls : List Lexeme) :
    ∃ seps, ls = seps ++ skipSeparators ls ∧ ∀ l ∈ seps, l.token.isSeparator = true :=
  ⟨_, List.takeWhile_append_dropWhile.symm, List.all_eq_true.mp List.all_takeWhile⟩

/-- **Scripts are derivable**, as long as there is room for all lexemes. -/
theorem statements_reads {room ls : List Lexeme} {ts : List (Tree NodeKind)}
    (hroom : ls.length ≤ room.length) (h : statements limit room ls = .ok ts) :
    IsScript ls ts ∧ ∀ t ∈ ts, KeepsTo limit t := by
  induction room generalizing ls ts with
  | nil =>
    cases h
    obtain rfl := List.length_eq_zero_iff.mp (Nat.le_zero.mp hroom)
    exact ⟨.blank (List.forall_mem_nil _), List.forall_mem_nil _⟩
  | cons _ room ih =>
    obtain ⟨seps, hls, hseps⟩ := exists_skipSeparators ls
    simp only [statements] at h
    split at h
    · rename_i hskip
      cases h
      rw [hls, hskip, List.append_nil]
      exact ⟨.of_separators hseps, List.forall_mem_nil _⟩
    · rename_i l ls' hskip
      rw [hskip] at hls
      rw [Except.bind_eq_ok_iff] at h
      obtain ⟨⟨t, rest⟩, ht, h⟩ := h
      obtain ⟨front, hfront, hstmt, hkeeps⟩ := statement_reads ht
      dsimp only at h
      split at h
      · cases h
      · rename_i hsep
        simp only [Except.bind_eq_ok_iff] at h
        obtain ⟨ts', hts, h⟩ := h
        cases h
        have hlength : rest.length ≤ room.length := by
          have := hstmt.length_pos
          rw [hls, hfront] at hroom
          simp only [List.length_append, List.length_cons] at hroom
          omega
        obtain ⟨hscript, hkeeps'⟩ := ih hlength hts
        have hbegins : BeginsWith Token.isSeparator rest := by
          intro l hl
          simpa [Option.mem_def.mp hl] using hsep
        rw [hls, hfront]
        exact ⟨.statement hseps hstmt hbegins hscript,
          List.forall_mem_cons.mpr ⟨hkeeps, hkeeps'⟩⟩

end ArithWat.Grammar
