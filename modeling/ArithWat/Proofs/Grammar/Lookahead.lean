import ArithWat.Proofs.Grammar.Completeness

/-!
# One lexeme ahead

A rule takes as much as it can: what follows the tree that it gives does not extend the tree
(`EndsApart`).  Together with completeness this says how little a rule looks at.  Of all that
follows what it reads, only the next lexeme matters, and a rule that allows more levels reads
the same (`Follows`).
-/

namespace ArithWat.Grammar
variable {limit : Nat}

/-! ## Rules take as much as they can -/

/-- A rule after which no token of the class `p` follows. -/
def EndsApart (p : Token → Bool) (rule : Rule) : Prop :=
  ∀ ls t rest, rule ls = .ok (t, rest) → Apart p rest

theorem apart_nil (p : Token → Bool) : Apart p [] := by
  intro l hl
  cases hl

theorem Apart.or {p q : Token → Bool} {ls : List Lexeme} (hp : Apart p ls) (hq : Apart q ls) :
    Apart (fun t => p t || q t) ls := by
  intro l hl
  simp [hp l hl, hq l hl]

/-- Whether a list begins with a token of a class is seen from its first lexeme. -/
theorem Apart.of_head?_eq {p : Token → Bool} {ls ls' : List Lexeme} (h : Apart p ls)
    (hhead : ls'.head? = ls.head?) : Apart p ls' := by
  intro l hl
  rw [hhead] at hl
  exact h l hl

/-- Where a lexeme is left there is room for it. -/
theorem exists_cons_of_room {l : Lexeme} {ls room : List Lexeme}
    (h : (l :: ls).length ≤ room.length) : ∃ r room', room = r :: room' :=
  List.exists_cons_of_length_pos (Nat.lt_of_lt_of_le (Nat.succ_pos _) h)

section Chain
variable {P : List Lexeme → Tree NodeKind → Prop} {p isOp : Token → Bool} {rule : Rule}

theorem chainFrom_apart (hreads : Reads limit P rule) (hrule : EndsApart p rule)
    {room ls rest : List Lexeme} {left t : Tree NodeKind} (hroom : ls.length ≤ room.length)
    (hls : Apart p ls) (h : chainFrom limit isOp rule room left ls = .ok (t, rest)) :
    Apart (fun t => isOp t || p t) rest := by
  fun_induction chainFrom limit isOp rule room left ls with
  | case1 _ room left op ls hop ih =>
    simp only [Except.bind_eq_ok_iff] at h
    obtain ⟨⟨right, ls'⟩, hright, tree, -, h⟩ := h
    obtain ⟨mid, rfl, -, -⟩ := hreads _ _ _ hright
    refine ih _ _ ?_ (hrule _ _ _ hright) h
    simp only [List.length_cons, List.length_append] at hroom
    omega
  | case2 _ room left op ls hop =>
    cases h
    exact (apart_cons.mpr (eq_false_of_ne_true hop)).or hls
  | case3 room left ls hstop =>
    -- There is room for a lexeme that is left, so the loop would not have stopped before it.
    cases h
    rcases rest with _ | ⟨op, rest⟩
    · exact apart_nil _
    · obtain ⟨r, room, rfl⟩ := exists_cons_of_room hroom
      exact (hstop r room op rest rfl rfl).elim

theorem endsApart_chain (hreads : Reads limit P rule) (hrule : EndsApart p rule) :
    EndsApart (fun t => isOp t || p t) (chain limit isOp rule) := by
  intro ls t rest h
  simp only [chain, Except.bind_eq_ok_iff] at h
  obtain ⟨⟨left, ls'⟩, hleft, h⟩ := h
  exact chainFrom_apart hreads hrule (Nat.le_refl _) (hrule _ _ _ hleft) h

end Chain

theorem calls_apart {rule : Rule} (hreads : Reads limit IsSum rule) {room ls rest : List Lexeme}
    {callee t : Tree NodeKind} (hroom : ls.length ≤ room.length)
    (h : calls limit rule room callee ls = .ok (t, rest)) : Apart extendsOperand rest := by
  fun_induction calls limit rule room callee ls with
  | case1 _ room callee l ls hl ih =>
    simp only [Except.bind_eq_ok_iff] at h
    obtain ⟨⟨args, ls'⟩, hargs, tree, -, h⟩ := h
    obtain ⟨part, hpart, hargs⟩ := argList_reads hreads hl hargs
    have hlength : (l :: ls).length = part.length + ls'.length := by
      rw [hpart, List.length_append]
    have hpos : 0 < part.length := by
      cases hargs
      exact Nat.succ_pos _
    refine ih _ _ ?_ h
    rw [List.length_cons] at hlength
    rw [List.length_cons, List.length_cons] at hroom
    change ls'.length ≤ room.length
    omega
  | case2 _ room callee l ls hl =>
    cases h
    exact apart_cons.mpr (decide_eq_false hl)
  | case3 room callee ls hstop =>
    cases h
    rcases rest with _ | ⟨l, rest⟩
    · exact apart_nil _
    · obtain ⟨r, room, rfl⟩ := exists_cons_of_room hroom
      exact (hstop r room l rest rfl rfl).elim

/-- **No argument list follows an operand.** -/
theorem endsApart_operand {levels : Nat} (hlevels : levels ≤ limit) :
    EndsApart extendsOperand (operand limit levels) := by
  induction levels with
  | zero =>
    intro ls t rest h
    cases h
  | succ levels ih =>
    have hlevels' := Nat.le_of_succ_le hlevels
    have happlied : EndsApart extendsOperand (applied limit (sum limit (operand limit levels))) := by
      intro ls t rest h
      simp only [applied, Except.bind_eq_ok_iff] at h
      obtain ⟨⟨callee, ls'⟩, -, h⟩ := h
      exact calls_apart (reads_sum (reads_operand hlevels')) (Nat.le_refl _) h
    intro ls t rest h
    cases ls with
    | nil => exact happlied _ _ _ h
    | cons l ls =>
      simp only [operand, signed] at h
      split at h
      · simp only [Except.bind_eq_ok_iff] at h
        obtain ⟨⟨inner, ls'⟩, hinner, tree, -, h⟩ := h
        cases h
        exact ih hlevels' _ _ _ hinner
      · exact happlied _ _ _ h

theorem reads_product {levels : Nat} (hlevels : levels ≤ limit) :
    Reads limit IsProduct (chain limit Token.isMultiplicative (operand limit levels)) :=
  reads_chain (reads_operand hlevels) .operand .mul

theorem endsApart_product {levels : Nat} (hlevels : levels ≤ limit) :
    EndsApart extendsProduct (chain limit Token.isMultiplicative (operand limit levels)) :=
  endsApart_chain (reads_operand hlevels) (endsApart_operand hlevels)

/-- **Nothing that would extend it follows an expression.** -/
theorem endsApart_expression {levels : Nat} (hlevels : levels ≤ limit) :
    EndsApart extendsSum (expression limit levels) :=
  endsApart_chain (reads_product hlevels) (endsApart_product hlevels)

/-! ## Rules look one lexeme ahead -/

/-- **Rules that differ in the number of levels they allow look one lexeme ahead**: what the
first of them reads, each that allows enough levels reads, whatever follows, as long as the next
lexeme is the same. -/
def Follows (limit : Nat) (rules : Nat → Rule) : Prop :=
  ∀ front rest t, rules 0 (front ++ rest) = .ok (t, rest) →
    ∀ n rest', limit ≤ n → rest'.head? = rest.head? → rules n (front ++ rest') = .ok (t, rest')

/-- Rules that read what is derivable, and take as much as they can, look one lexeme ahead. -/
theorem follows_of_reads {P : List Lexeme → Tree NodeKind → Prop} {p : Token → Bool}
    {rules : Nat → Rule} (hreads : Reads limit P (rules 0)) (hends : EndsApart p (rules 0))
    (hread : ∀ {n ls t rest}, limit ≤ n → P ls t → t.height ≤ limit → Apart p rest →
      rules n (ls ++ rest) = .ok (t, rest)) : Follows limit rules := by
  intro front rest t h n rest' hn hhead
  obtain ⟨front', hfront, hP, hheight⟩ := hreads _ _ _ h
  obtain rfl := List.append_cancel_right hfront
  exact hread hn hP hheight ((hends _ _ _ h).of_head?_eq hhead)

section
variable {levels : Nat} {ls rest : List Lexeme} {t : Tree NodeKind}

theorem IsProduct.product_eq (h : IsProduct ls t) (hlevels : t.height ≤ levels)
    (hlimit : t.height ≤ limit) (hrest : Apart extendsProduct rest) :
    chain limit Token.isMultiplicative (Grammar.operand limit levels) (ls ++ rest) =
      .ok (t, rest) := by
  obtain ⟨room, -, hread⟩ := h.read rest hlevels hlimit hrest.operand
  exact hread.trans (chainFrom_stop hrest.isMultiplicative room t)

theorem IsSum.sum_eq (h : IsSum ls t) (hlevels : t.height ≤ levels) (hlimit : t.height ≤ limit)
    (hrest : Apart extendsSum rest) : expression limit levels (ls ++ rest) = .ok (t, rest) := by
  obtain ⟨room, -, hread⟩ := h.read rest hlevels hlimit hrest.product
  exact hread.trans (chainFrom_stop hrest.isAdditive room t)

theorem follows_operand (hlevels : levels ≤ limit) :
    Follows limit fun n => operand (limit + n) (levels + n) := by
  refine follows_of_reads (reads_operand hlevels) (endsApart_operand hlevels) ?_
  intro n ls t rest hn h hheight hrest
  exact h.read rest (by omega) (by omega) hrest

theorem follows_product (hlevels : levels ≤ limit) :
    Follows limit fun n =>
      chain (limit + n) Token.isMultiplicative (operand (limit + n) (levels + n)) := by
  refine follows_of_reads (reads_product hlevels) (endsApart_product hlevels) ?_
  intro n ls t rest hn h hheight hrest
  exact h.product_eq (by omega) (by omega) hrest

theorem follows_expression (hlevels : levels ≤ limit) :
    Follows limit fun n => expression (limit + n) (levels + n) := by
  refine follows_of_reads (reads_sum (reads_operand hlevels)) (endsApart_expression hlevels) ?_
  intro n ls t rest hn h hheight hrest
  exact h.sum_eq (by omega) (by omega) hrest

/-- It does not matter what follows an atom. -/
theorem follows_atom (hlevels : levels ≤ limit) (hlimit : 0 < limit) :
    Follows limit fun n => atom (limit + n) (expression (limit + n) (levels + n)) := by
  have hends : EndsApart (fun _ => false) (atom limit (expression limit levels)) :=
    fun _ _ _ _ _ _ => rfl
  refine follows_of_reads (reads_atom (reads_sum (reads_operand hlevels)) hlimit) hends ?_
  intro n ls t rest hn h hheight _
  exact h.read rest (by omega) (by omega)

end

/-- **What stands between parentheses is read with one lexeme of lookahead.** -/
theorem arguments_follows {rules : Nat → Rule} (hreads : Reads limit IsSum (rules 0))
    (hfollows : Follows limit rules) {n : Nat} (hn : limit ≤ n)
    {room front rest rest' : List Lexeme} {ts : List (Tree NodeKind)}
    (h : arguments (rules 0) room (front ++ rest) = .ok (ts, rest))
    (hroom : (front ++ rest).length < room.length) (hhead : rest'.head? = rest.head?)
    {room' : List Lexeme} (hroom' : (front ++ rest').length < room'.length) :
    arguments (rules n) room' (front ++ rest') = .ok (ts, rest') := by
  induction room generalizing front ts room' with
  | nil => cases hroom
  | cons _ room ih =>
    rcases room' with _ | ⟨r, room'⟩
    · cases hroom'
    have hhead' : (front ++ rest').head? = (front ++ rest).head? := by
      rw [List.head?_append, List.head?_append, hhead]
    simp only [arguments] at h ⊢
    rw [hhead']
    split at h
    · rename_i hclose
      obtain ⟨rfl, hrest⟩ := Prod.mk.inj (Except.ok.inj h)
      obtain rfl := List.append_left_eq_self.mp hrest
      rw [if_pos hclose, List.nil_append]
    · rename_i hclose
      rw [if_neg hclose]
      rw [Except.bind_eq_ok_iff] at h
      obtain ⟨⟨t, ls⟩, ht, h⟩ := h
      obtain ⟨part, hpart, -, -⟩ := hreads _ _ _ ht
      rw [hpart] at ht
      have hread := fun later hlater => hfollows part ls t ht n later hn hlater
      rcases ls with _ | ⟨l, ls⟩
      · obtain ⟨rfl, rfl⟩ := Prod.mk.inj (Except.ok.inj h)
        obtain rfl := List.append_cancel_right hpart
        obtain rfl := List.head?_eq_none_iff.mp hhead
        rw [hread [] rfl]
        rfl
      dsimp only at h
      split at h
      · -- What follows the comma is read by the induction hypothesis; the lexeme after the
        -- expression is the comma in both lists.
        rename_i hcomma
        rw [Except.bind_eq_ok_iff] at h
        obtain ⟨⟨ts', rest''⟩, hts, h⟩ := h
        dsimp only at h
        obtain ⟨rfl, rfl⟩ := Prod.mk.inj (Except.ok.inj h)
        obtain ⟨more, rfl, -⟩ := arguments_reads hreads hts
        obtain rfl : front = part ++ l :: more :=
          List.append_cancel_right (hpart.trans (by simp))
        rw [List.append_assoc, List.cons_append] at hroom hroom' ⊢
        simp only [List.length_append, List.length_cons] at hroom hroom'
        have hmore : arguments (rules n) room' (more ++ rest') = .ok (ts', rest') :=
          ih hts (by rw [List.length_append]; omega) (by rw [List.length_append]; omega)
        rw [hread (l :: (more ++ rest')) rfl, Except.ok_bind]
        simp only [hcomma, if_true, hmore, Except.ok_bind]
      · rename_i hcomma
        obtain ⟨rfl, rfl⟩ := Prod.mk.inj (Except.ok.inj h)
        obtain rfl := List.append_cancel_right hpart
        obtain ⟨later, rfl⟩ := List.head?_eq_some_iff.mp hhead
        rw [hread (l :: later) rfl, Except.ok_bind]
        exact if_neg hcomma

/-! ## Statements -/

/-- Whether lexemes are taken for an assignment is seen from the first two of them. -/
theorem statement_eq_plain_of_ne {ls : List Lexeme}
    (h : (ls.take 2).map Lexeme.token ≠ [.name, .assign]) :
    statement limit ls = statement.plain limit ls := by
  refine statement_of_not_assign fun l l' rest heq htokens => h ?_
  simp [heq, htokens.1, htokens.2]

/-- The other lexemes begin with a name and an equals sign. -/
theorem exists_of_take_two {ls : List Lexeme}
    (h : (ls.take 2).map Lexeme.token = [.name, .assign]) :
    ∃ l l' more, ls = l :: l' :: more ∧ l.token = .name ∧ l'.token = .assign := by
  rcases ls with _ | ⟨l, _ | ⟨l', more⟩⟩
  · cases h
  · simp at h
  · exact ⟨l, l', more, rfl, by simpa using h⟩

/-- The first two lexemes are seen from some that are read and the next. -/
theorem take_two_append {front rest rest' : List Lexeme} (hfront : 0 < front.length)
    (hhead : rest'.head? = rest.head?) : (front ++ rest').take 2 = (front ++ rest).take 2 := by
  rcases front with _ | ⟨l, _ | ⟨l', front⟩⟩
  · cases hfront
  · simp [List.take_one, hhead]
  · rfl

theorem statement_apart {ls rest : List Lexeme} {t : Tree NodeKind}
    (h : statement limit ls = .ok (t, rest)) : Apart extendsSum rest := by
  have hends := endsApart_expression (Nat.le_refl limit)
  by_cases htake : (ls.take 2).map Lexeme.token = [.name, .assign]
  · obtain ⟨l, l', more, rfl, hl, hl'⟩ := exists_of_take_two htake
    simp only [statement, hl, hl', and_self, if_true, Except.bind_eq_ok_iff] at h
    obtain ⟨⟨e, ls'⟩, he, h⟩ := h
    cases h
    exact hends _ _ _ he
  · simp only [statement_eq_plain_of_ne htake, statement.plain, Except.bind_eq_ok_iff] at h
    obtain ⟨⟨e, ls'⟩, he, h⟩ := h
    cases h
    exact hends _ _ _ he

/-- **Statements are read with one lexeme of lookahead.** -/
theorem follows_statement : Follows limit fun n => statement (limit + n) := by
  intro front rest t h n rest' hn hhead
  change statement limit (front ++ rest) = .ok (t, rest) at h
  change statement (limit + n) (front ++ rest') = .ok (t, rest')
  have hrest := (statement_apart h).of_head?_eq hhead
  obtain ⟨front', hfront, hstmt, hkeeps⟩ := statement_reads h
  obtain rfl := List.append_cancel_right hfront
  have hpos := hstmt.length_pos
  cases hstmt with
  | @assign ls l l' e hl hl' hsum =>
    have hheight : e.height ≤ limit + n := Nat.le_add_right_of_le (hkeeps e (by simp))
    simp [statement, hl, hl', hsum.expression_eq hheight hrest]
  | @expression ls e hsum =>
    have hheight : e.height ≤ limit + n := Nat.le_add_right_of_le (hkeeps e (by simp))
    have htake : ((front ++ rest).take 2).map Lexeme.token ≠ [.name, .assign] := by
      intro htake
      obtain ⟨l, l', more, heq, hl, hl'⟩ := exists_of_take_two htake
      simp only [heq, statement, hl, hl', and_self, if_true, Except.bind_eq_ok_iff] at h
      obtain ⟨_, -, h⟩ := h
      cases congrArg (·.1.kind) (Except.ok.inj h)
    rw [statement_eq_plain_of_ne (by rwa [take_two_append hpos hhead])]
    simp [statement.plain, hsum.expression_eq hheight hrest]

end ArithWat.Grammar
