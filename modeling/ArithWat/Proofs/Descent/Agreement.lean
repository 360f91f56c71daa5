import ArithWat.Proofs.Descent.Bounds
import ArithWat.Proofs.Descent.Calls
import ArithWat.Proofs.Grammar.Soundness

/-!
# The descent follows the grammar

Each rule of the descent, wherever it is called, comes to the outcome of the rule of the same name
in `Grammar`: it stops at the same lexeme with the same tree in the table, or with the same
failure.  The proofs go along the definitions of the rules, one task after the other.  A loop of the
descent has no bound; that it ends where the repetition of the grammar does is an induction on the
room of the repetition, which is never less than what is ahead.

The depth and the levels that are left add up to the limit, so that the one refuses a call exactly
where the other has no level left (`nests`).  `exists_finish` says what the whole descent comes to,
and with the bounds of its states it gives `progress_of_reaches`.
-/

namespace ArithWat.Descent
open TableNode Grammar

variable {D : Descent}

/-! ## Following a rule of the grammar -/

theorem suffix_of_append {front rest : List Lexeme} (h : 0 < front.length) :
    rest <:+ front ++ rest ∧ rest.length < (front ++ rest).length := by
  refine ⟨List.suffix_append front rest, ?_⟩
  rw [List.length_append]
  omega

/-- What is read begins with a lexeme. -/
theorem advances_of_reads {limit : Nat} {P : List Lexeme → Tree NodeKind → Prop}
    {p : Token → Bool} {g : Grammar.Rule} (hg : Reads limit P g)
    (hP : ∀ {ls t}, P ls t → ∃ l ls', ls = l :: ls' ∧ p l.token = true) (ls : List Lexeme) :
    Advances ls (g ls) := by
  intro t rest h
  obtain ⟨front, rfl, hfront, -⟩ := hg ls t rest h
  obtain ⟨l, ls', rfl, -⟩ := hP hfront
  exact suffix_of_append (Nat.succ_pos _)

variable (D) in
/-- **A rule follows a rule of the grammar** at a depth: it comes to the same outcome, and takes
a lexeme if it succeeds. -/
def Follows (r : Rule) (depth : Nat) (g : Grammar.Rule) : Prop :=
  ∀ ls, ls <:+ D.lexemes → D.Computes r depth ls (g ls) ∧ Advances ls (g ls)

variable (D) in
/-- A rule follows a rule of the grammar when it is called one level deeper, unless the limit has
been reached. -/
def Nests (r : Rule) (depth : Nat) (g : Grammar.Rule) : Prop :=
  (depth < D.limit → D.Follows r (depth + 1) g) ∧
    (D.limit ≤ depth → ∀ ls, g ls = .error (failAt ls .tooDeep))

section
variable {K : Context} {base : Array TableNode} {ls rest : List Lexeme}
  {ts : List (Tree NodeKind)} {t : Tree NodeKind} {todo : List Task} {r : Rule} {g : Grammar.Rule}
  {depth : Nat}

theorem Follows.leads_call (h : D.Follows r K.depth g) (hls : ls <:+ D.lexemes) :
    D.Leads K (D.holding K base ls ts (.call r :: todo)) (g ls)
      fun p => D.holding K base p.2 (ts ++ [p.1]) todo :=
  Descent.leads_call hls (h ls hls).1 (.inr (h ls hls).2)

/-- What a rule leaves is still ahead. -/
theorem Follows.suffix (h : D.Follows r depth g) (hls : ls <:+ D.lexemes)
    (hg : g ls = .ok (t, rest)) : rest <:+ D.lexemes ∧ rest.length < ls.length := by
  obtain ⟨hrest, hlt⟩ := (h ls hls).2 t rest hg
  exact ⟨hrest.trans hls, hlt⟩

theorem Nests.leads_nest (h : D.Nests r K.depth g) (hls : ls <:+ D.lexemes) :
    D.Leads K (D.holding K base ls ts (.nest r :: todo)) (g ls)
      fun p => D.holding K base p.2 (ts ++ [p.1]) todo := by
  rcases Nat.lt_or_ge K.depth D.limit with hdepth | hdepth
  · obtain ⟨hcomputes, hadvances⟩ := h.1 hdepth ls hls
    exact Descent.leads_nest hdepth hls hcomputes hadvances
  · rw [h.2 hdepth ls]
    exact leads_nest_of_le hdepth hls

/-! ## Repetitions -/

/-- Operators and what stands behind them, as in a sum or a product. -/
theorem leads_chainFrom {p : Point} {isOp : Token → Bool}
    (hplan : ∀ ls, p.plan ls = if nextIs isOp ls then
      .ok [.take .arithOp, .call r, .node .binaryExpression, .goto p] else .ok [])
    (hr : D.Follows r K.depth g) {room : List Lexeme} {left : Tree NodeKind}
    (hls : ls <:+ D.lexemes) (hroom : ls.length ≤ room.length) :
    D.Leads K (D.holding K base ls [left] [.goto p]) (chainFrom D.limit isOp g room left ls)
      fun q => D.holding K base q.2 [q.1] [] := by
  induction room generalizing left ls with
  | nil =>
    obtain rfl := List.length_eq_zero_iff.mp (Nat.le_zero.mp hroom)
    exact Path.leads_ok (path_goto hls (hplan []))
  | cons _ room ih =>
    cases ls with
    | nil => exact Path.leads_ok (path_goto hls (hplan []))
    | cons op ls =>
      have hnext := hplan (op :: ls)
      have htail : ls <:+ D.lexemes := (List.suffix_cons op ls).trans hls
      rw [nextIs_cons] at hnext
      simp only [chainFrom]
      split
      · rename_i hop
        rw [if_pos hop] at hnext
        refine (path_goto hls hnext).leads ((path_take hls .arithOp).leads ?_)
        refine (hr.leads_call htail).bind fun a ha => ?_
        obtain ⟨right, rest⟩ := a
        obtain ⟨hrest, hlt⟩ := hr.suffix htail ha
        refine (leads_node rfl _ _).bind fun tree _ => ih hrest ?_
        exact Nat.le_trans (Nat.le_of_lt hlt) (Nat.le_of_succ_le_succ hroom)
      · rename_i hop
        rw [if_neg hop] at hnext
        exact Path.leads_ok (path_goto hls hnext)

theorem computes_chain {r' : Rule} {p : Point} {isOp : Token → Bool}
    (hrule : ∀ ls, r'.plan ls = .ok [.call r, .goto p])
    (hplan : ∀ ls, p.plan ls = if nextIs isOp ls then
      .ok [.take .arithOp, .call r, .node .binaryExpression, .goto p] else .ok [])
    (hr : D.Follows r depth g) (hls : ls <:+ D.lexemes) :
    D.Computes r' depth ls (chain D.limit isOp g ls) := by
  intro deeper below base
  refine (path_goto (p := .rule r') hls (hrule ls)).leads ?_
  refine (hr.leads_call (K := ⟨depth, deeper, below⟩) hls).bind fun a ha => ?_
  obtain ⟨left, rest⟩ := a
  exact leads_chainFrom hplan hr (hr.suffix hls ha).1 (Nat.le_refl _)

theorem nextIs_eq_iff {t : Token} {ls : List Lexeme} :
    nextIs (· = t) ls = true ↔ ls.head?.map Lexeme.token = some t := by
  cases ls with
  | nil => simp [nextIs]
  | cons l ls => simp [nextIs]

/-- Arguments, of which the loop is left at a closing parenthesis or where no comma follows. -/
theorem leads_arguments (hr : D.Follows .expression K.depth g) {room : List Lexeme}
    (hls : ls <:+ D.lexemes) (hroom : ls.length < room.length) :
    D.Leads K (D.holding K base ls ts (.goto .arguments :: todo)) (arguments g room ls)
      fun q => D.holding K base q.2 (ts ++ q.1) todo := by
  induction room generalizing ls ts with
  | nil => exact absurd hroom (Nat.not_lt_zero _)
  | cons _ room ih =>
    simp only [arguments, ← nextIs_eq_iff]
    split
    · rename_i hclose
      refine Path.leads_ok ?_
      rw [List.append_nil]
      exact path_goto (p := .arguments) hls (if_pos hclose)
    · rename_i hclose
      refine (path_goto (p := .arguments) hls (if_neg hclose)).leads ?_
      refine (hr.leads_call hls).bind fun a ha => ?_
      obtain ⟨tree, rest⟩ := a
      obtain ⟨hrest, hlt⟩ := hr.suffix hls ha
      cases rest with
      | nil => exact Path.leads_ok (path_goto (p := .afterArgument) hrest rfl)
      | cons l rest =>
        have hplan : Point.afterArgument.plan (l :: rest) =
            if l.token = .comma then .ok [.take .comma, .goto .arguments] else .ok [] := by
          simp only [Point.plan, nextIs_cons, decide_eq_true_eq]
        dsimp only
        split
        · rename_i hcomma
          rw [if_pos hcomma] at hplan
          refine (path_goto hrest hplan).leads ((path_take hrest .comma).leads ?_)
          refine (ih ((List.suffix_cons l rest).trans hrest) ?_).bind fun q _ => ?_
          · simp only [List.length_cons] at hlt hroom
            omega
          · obtain ⟨trees, rest'⟩ := q
            refine Path.leads_ok ?_
            simp only [List.append_assoc, List.singleton_append]
            exact .refl _
        · rename_i hcomma
          rw [if_neg hcomma] at hplan
          exact Path.leads_ok (path_goto hrest hplan)

theorem computes_argList (hr : D.Follows .expression depth g) (hg : Reads D.limit IsSum g)
    {l : Lexeme} (hls : l :: ls <:+ D.lexemes) :
    D.Computes .argList depth (l :: ls) (argList D.limit g l ls) := by
  intro deeper below base
  have htail : ls <:+ D.lexemes := (List.suffix_cons l ls).trans hls
  refine (path_goto (p := .rule .argList) hls rfl).leads ((path_take hls .openParen).leads ?_)
  refine (leads_arguments (K := ⟨depth, deeper, below⟩) hr htail (Nat.lt_succ_self _)).bind
    fun a ha => ?_
  obtain ⟨trees, rest⟩ := a
  obtain ⟨front, hfront, -⟩ := arguments_reads hg ha
  have hrest : rest <:+ D.lexemes := (hfront ▸ List.suffix_append front rest).trans htail
  refine (leads_expect hrest .closeParen .closeParen).bind fun b _ => ?_
  obtain ⟨close, rest'⟩ := b
  refine (leads_node rfl _ _).bind fun tree _ => ?_
  exact Path.leads_ok (.refl _)

theorem advances_argList (hg : Reads D.limit IsSum g) {l : Lexeme} (hl : l.token = .openParen) :
    Advances (l :: ls) (argList D.limit g l ls) := by
  intro t rest h
  obtain ⟨front, hfront, hargs⟩ := argList_reads hg hl h
  rw [hfront]
  cases hargs with
  | parens => exact suffix_of_append (Nat.succ_pos _)

/-- Argument lists behind what they are applied to. -/
theorem leads_calls (hr : D.Follows .expression K.depth g) (hg : Reads D.limit IsSum g)
    {room : List Lexeme} {callee : Tree NodeKind} (hls : ls <:+ D.lexemes)
    (hroom : ls.length ≤ room.length) :
    D.Leads K (D.holding K base ls [callee] [.goto .calls]) (calls D.limit g room callee ls)
      fun q => D.holding K base q.2 [q.1] [] := by
  induction room generalizing callee ls with
  | nil =>
    obtain rfl := List.length_eq_zero_iff.mp (Nat.le_zero.mp hroom)
    exact Path.leads_ok (path_goto (p := .calls) hls rfl)
  | cons _ room ih =>
    cases ls with
    | nil => exact Path.leads_ok (path_goto (p := .calls) hls rfl)
    | cons l ls =>
      have hplan : Point.calls.plan (l :: ls) = if l.token = .openParen then
          .ok [.call .argList, .node .callExpression, .goto .calls] else .ok [] := by
        simp only [Point.plan, nextIs_cons, decide_eq_true_eq]
      simp only [calls]
      split
      · rename_i hl
        rw [if_pos hl] at hplan
        have hadvances : Advances (l :: ls) (argList D.limit g l ls) := advances_argList hg hl
        refine (path_goto hls hplan).leads ?_
        refine (leads_call hls (computes_argList hr hg hls) (.inr hadvances)).bind fun a ha => ?_
        obtain ⟨args, rest⟩ := a
        obtain ⟨hrest, hlt⟩ := hadvances args rest ha
        refine (leads_node rfl _ _).bind fun tree _ => ih (hrest.trans hls) ?_
        exact Nat.le_of_lt_succ (Nat.lt_of_lt_of_le hlt hroom)
      · rename_i hl
        rw [if_neg hl] at hplan
        exact Path.leads_ok (path_goto hls hplan)

/-! ## Expressions -/

theorem computes_atom (hr : D.Follows .expression depth g) (hls : ls <:+ D.lexemes) :
    D.Computes .atom depth ls (atom D.limit g ls) := by
  intro deeper below base
  cases ls with
  | nil => exact leads_goto_of_error (p := .rule .atom) hls rfl
  | cons l ls =>
    have htail : ls <:+ D.lexemes := (List.suffix_cons l ls).trans hls
    cases hl : l.token with
    | number =>
      have hplan : (Point.rule .atom).plan (l :: ls) = .ok [.take .number] := by
        simp [Point.plan, Rule.plan, hl]
      simp only [atom, hl]
      exact Path.leads_ok ((path_goto hls hplan).trans (path_take hls .number))
    | name =>
      have hplan : (Point.rule .atom).plan (l :: ls) = .ok [.take .variableName] := by
        simp [Point.plan, Rule.plan, hl]
      simp only [atom, hl]
      exact Path.leads_ok ((path_goto hls hplan).trans (path_take hls .variableName))
    | openParen =>
      have hplan : (Point.rule .atom).plan (l :: ls) =
          .ok [.take .openParen, .call .expression, .expect .closeParen .closeParen,
            .node .parenthesizedExpression] := by
        simp [Point.plan, Rule.plan, hl]
      simp only [atom, hl]
      refine (path_goto hls hplan).leads ((path_take hls .openParen).leads ?_)
      refine (hr.leads_call (K := ⟨depth, deeper, below⟩) htail).bind fun a ha => ?_
      obtain ⟨inner, rest⟩ := a
      refine (leads_expect (hr.suffix htail ha).1 .closeParen .closeParen).bind fun b _ => ?_
      obtain ⟨close, rest'⟩ := b
      refine (leads_node rfl _ _).bind fun tree _ => ?_
      exact Path.leads_ok (.refl _)
    | _ =>
      have hplan : (Point.rule .atom).plan (l :: ls) =
          .error (failAt (l :: ls) (.expectedExpression (.ofLexemes (l :: ls)))) := by
        simp [Point.plan, Rule.plan, hl]
      simp only [atom, hl]
      exact leads_goto_of_error hls hplan

theorem follows_atom (hr : D.Follows .expression depth g) (hg : Reads D.limit IsSum g)
    (hlimit : 0 < D.limit) : D.Follows .atom depth (atom D.limit g) :=
  fun ls hls => ⟨computes_atom hr hls, advances_of_reads (reads_atom hg hlimit) (·.head) ls⟩

theorem follows_applied (hr : D.Follows .expression depth g) (hg : Reads D.limit IsSum g)
    (hlimit : 0 < D.limit) : D.Follows .applied depth (applied D.limit g) := by
  intro ls hls
  refine ⟨fun deeper below base => ?_, advances_of_reads (reads_applied hg hlimit) (·.head) ls⟩
  have hatom := follows_atom hr hg hlimit
  refine (path_goto (p := .rule .applied) hls rfl).leads ?_
  refine (hatom.leads_call (K := ⟨depth, deeper, below⟩) hls).bind fun a ha => ?_
  obtain ⟨callee, rest⟩ := a
  exact leads_calls (K := ⟨depth, deeper, below⟩) hr hg (hatom.suffix hls ha).1 (Nat.le_refl _)

/-- A rule that does nothing but call another follows the same rule of the grammar. -/
theorem computes_of_call {r' : Rule} (hr : D.Follows r depth g) (hls : ls <:+ D.lexemes)
    (hplan : r'.plan ls = .ok [.call r]) : D.Computes r' depth ls (g ls) := by
  intro deeper below base
  refine (path_goto (p := .rule r') hls hplan).leads ?_
  exact hr.leads_call (K := ⟨depth, deeper, below⟩) hls

theorem computes_signed {operand : Grammar.Rule} (ho : D.Nests .operand depth operand)
    (happlied : D.Follows .applied depth (applied D.limit g)) (hls : ls <:+ D.lexemes) :
    D.Computes .operand depth ls (signed D.limit operand g ls) := by
  cases ls with
  | nil => exact computes_of_call (g := applied D.limit g) happlied hls rfl
  | cons l ls =>
    have htail : ls <:+ D.lexemes := (List.suffix_cons l ls).trans hls
    have hplan : (Point.rule .operand).plan (l :: ls) = if l.token.isAdditive then
        .ok [.take .arithOp, .nest .operand, .node .unaryExpression]
        else .ok [.call .applied] := rfl
    simp only [signed]
    split
    · rename_i hl
      rw [if_pos hl] at hplan
      intro deeper below base
      refine (path_goto hls hplan).leads ((path_take hls .arithOp).leads ?_)
      refine (ho.leads_nest (K := ⟨depth, deeper, below⟩) htail).bind fun a _ => ?_
      obtain ⟨inner, rest⟩ := a
      refine (leads_node rfl _ _).bind fun tree _ => ?_
      exact Path.leads_ok (.refl _)
    · rename_i hl
      rw [if_neg hl] at hplan
      exact computes_of_call happlied hls hplan

end

/-! ## Levels -/

section Levels
variable {depth levels : Nat}

theorem reads_levels {limit : Nat} (hlevels : levels ≤ limit) :
    Reads limit IsSum (Grammar.expression limit levels) :=
  reads_sum (reads_operand hlevels)

theorem follows_expression (hs : D.Nests .sum depth (Grammar.expression D.limit levels))
    (hlevels : levels ≤ D.limit) :
    D.Follows .expression depth (Grammar.expression D.limit levels) := by
  intro ls hls
  refine ⟨fun deeper below base => ?_, advances_of_reads (reads_levels hlevels) (·.head) ls⟩
  refine (path_goto (p := .rule .expression) hls rfl).leads ?_
  exact hs.leads_nest (K := ⟨depth, deeper, below⟩) hls

theorem follows_operand (ho : D.Nests .operand depth (operand D.limit levels))
    (hs : D.Nests .sum depth (Grammar.expression D.limit levels)) (hlevels : levels < D.limit) :
    D.Follows .operand depth (operand D.limit (levels + 1)) := by
  have hexpression := follows_expression hs (Nat.le_of_lt hlevels)
  have happlied := follows_applied hexpression (reads_levels (Nat.le_of_lt hlevels))
    (Nat.zero_lt_of_lt hlevels)
  exact fun ls hls =>
    ⟨computes_signed ho happlied hls, advances_of_reads (reads_operand hlevels) (·.head) ls⟩

theorem follows_sum (ho : D.Follows .operand depth (operand D.limit levels))
    (hlevels : levels ≤ D.limit) :
    D.Follows .sum depth (Grammar.expression D.limit levels) := by
  have hreads : Reads D.limit IsProduct
      (chain D.limit Token.isMultiplicative (operand D.limit levels)) :=
    reads_chain (reads_operand hlevels) .operand .mul
  have hproduct : D.Follows .product depth
      (chain D.limit Token.isMultiplicative (operand D.limit levels)) := fun ls hls =>
    ⟨computes_chain (fun _ => rfl) (fun _ => rfl) ho hls, advances_of_reads hreads (·.head) ls⟩
  exact fun ls hls =>
    ⟨computes_chain (fun _ => rfl) (fun _ => rfl) hproduct hls,
      advances_of_reads (reads_levels hlevels) (·.head) ls⟩

/-- **The depth and the levels that are left add up to the limit.**  Where a rule may be called one
level deeper, it follows the rule of the grammar with one level less; where it may not, there is no
level left. -/
theorem nests (h : depth + levels = D.limit) :
    D.Nests .operand depth (operand D.limit levels) ∧
      D.Nests .sum depth (Grammar.expression D.limit levels) := by
  induction levels generalizing depth with
  | zero => exact ⟨⟨by omega, fun _ _ => rfl⟩, ⟨by omega, fun _ _ => rfl⟩⟩
  | succ levels ih =>
    have hdeeper : depth + 1 + levels = D.limit := by omega
    obtain ⟨ho, hs⟩ := ih hdeeper
    have hoperand := follows_operand ho hs (by omega)
    exact ⟨⟨fun _ => hoperand, by omega⟩, ⟨fun _ => follows_sum hoperand (by omega), by omega⟩⟩

end Levels

/-! ## Statements -/

section Statements
variable {K : Context} {base : Array TableNode} {ls : List Lexeme} {ts : List (Tree NodeKind)}

theorem follows_expression_zero (D : Descent) :
    D.Follows .expression 0 (Grammar.expression D.limit D.limit) :=
  follows_expression (nests (Nat.zero_add D.limit)).2 (Nat.le_refl _)

theorem computes_plain (hls : ls <:+ D.lexemes)
    (hplan : Rule.statement.plan ls = .ok [.call .expression, .node .expressionStatement]) :
    D.Computes .statement 0 ls (statement.plain D.limit ls) := by
  intro deeper below base
  refine (path_goto (p := .rule .statement) hls hplan).leads ?_
  refine ((follows_expression_zero D).leads_call (K := ⟨0, deeper, below⟩) hls).bind fun a _ => ?_
  obtain ⟨tree, rest⟩ := a
  exact Path.leads_ok (path_statement rfl tree [])

theorem computes_statement (hls : ls <:+ D.lexemes) :
    D.Computes .statement 0 ls (statement D.limit ls) := by
  -- Two lexemes ahead are looked at, so shorter lists come first.
  cases ls with
  | nil => exact computes_plain hls rfl
  | cons l ls =>
    cases ls with
    | nil => exact computes_plain hls rfl
    | cons l' rest =>
      have hplan : (Point.rule .statement).plan (l :: l' :: rest) =
          if l.token = .name ∧ l'.token = .assign then
            .ok [.take .variableName, .take .assignOp, .call .expression, .node .assignStatement]
          else .ok [.call .expression, .node .expressionStatement] := rfl
      have htail : l' :: rest <:+ D.lexemes := (List.suffix_cons l _).trans hls
      have hrest : rest <:+ D.lexemes := (List.suffix_cons l' rest).trans htail
      simp only [statement]
      split
      · rename_i htokens
        rw [if_pos htokens] at hplan
        intro deeper below base
        refine (path_goto hls hplan).leads ?_
        refine (path_take hls .variableName).leads ((path_take htail .assignOp).leads ?_)
        refine ((follows_expression_zero D).leads_call (K := ⟨0, deeper, below⟩) hrest).bind
          fun a _ => ?_
        obtain ⟨value, rest'⟩ := a
        exact Path.leads_ok (path_statement rfl _ _)
      · rename_i htokens
        rw [if_neg htokens] at hplan
        exact computes_plain hls hplan

theorem follows_statement (D : Descent) : D.Follows .statement 0 (statement D.limit) := by
  refine fun ls hls => ⟨computes_statement hls, fun t rest h => ?_⟩
  obtain ⟨front, rfl, hfront, -⟩ := statement_reads h
  exact suffix_of_append hfront.length_pos

/-- The root is added over all statements. -/
theorem path_root (hls : ([] : List Lexeme) <:+ D.lexemes) :
    D.Path (D.Sound K.below.length) (D.holding K base [] ts [.goto .statements])
      (D.holding K base [] [.node .script ⟨0, D.size⟩ ts] []) :=
  (path_goto (p := .statements) hls rfl).trans (path_holding rfl rfl)

/-- Statements with separators between them, up to the end of the lexemes. -/
theorem leads_statements (hdepth : K.depth = 0) {room : List Lexeme} (hls : ls <:+ D.lexemes)
    (hroom : ls.length ≤ room.length) :
    D.Leads K (D.holding K base ls ts [.skip, .goto .statements]) (statements D.limit room ls)
      fun trees => D.holding K base [] [.node .script ⟨0, D.size⟩ (ts ++ trees)] [] := by
  have hnil : [] <:+ D.lexemes := List.nil_suffix
  induction room generalizing ls ts with
  | nil =>
    obtain rfl := List.length_eq_zero_iff.mp (Nat.le_zero.mp hroom)
    refine Path.leads_ok ?_
    rw [List.append_nil]
    exact (path_skip hls).trans (path_root hnil)
  | cons _ room ih =>
    have hskip : skipSeparators ls <:+ ls := List.dropWhile_suffix _
    refine (path_skip hls).leads ?_
    simp only [statements]
    split
    · rename_i hempty
      refine Path.leads_ok ?_
      rw [List.append_nil, hempty]
      exact path_root hnil
    · rename_i l rest hrest
      rw [hrest] at hskip ⊢
      have hstatement := hskip.trans hls
      refine (path_goto (p := .statements) hstatement rfl).leads ?_
      have hfollows : D.Follows .statement K.depth (statement D.limit) :=
        hdepth ▸ follows_statement D
      refine (hfollows.leads_call hstatement).bind fun a ha => ?_
      obtain ⟨tree, rest'⟩ := a
      obtain ⟨hrest', hlt⟩ := hfollows.suffix hstatement ha
      dsimp only
      split
      · rename_i hnext
        exact leads_goto_of_error (p := .afterStatement) hrest' (if_pos hnext)
      · rename_i hnext
        refine (path_goto (p := .afterStatement) hrest' (if_neg hnext)).leads ?_
        refine (ih hrest' ?_).bind fun trees _ => ?_
        · have := hskip.length_le
          simp only [List.length_cons] at this hlt hroom
          omega
        · refine Path.leads_ok ?_
          simp only [List.append_assoc, List.singleton_append]
          exact .refl _

end Statements

variable (D) in
/-- What the rule for scripts comes to: a tree, behind which nothing is left. -/
def outcome : Outcome := do
  let trees ← Grammar.script D.limit D.lexemes
  .ok (.node .script ⟨0, D.size⟩ trees, [])

theorem computes_script (D : Descent) : D.Computes .script 0 D.lexemes D.outcome := by
  intro deeper below base
  refine (path_goto (p := .rule .script) List.suffix_rfl rfl).leads ?_
  refine (leads_statements (K := ⟨0, deeper, below⟩) rfl List.suffix_rfl (Nat.le_refl _)).bind
    fun trees _ => ?_
  exact Path.leads_ok (.refl _)

/-- **The descent comes to an end**, in the table of the tree that the grammar gives or with the
failure that the grammar gives.  Every call on the way returns. -/
theorem exists_finish (D : Descent) :
    ∃ c, D.Path D.CallsReturn start c ∧ D.step c = none ∧ c.callee? = none ∧
      c.result? = some ((Grammar.script D.limit D.lexemes).map fun trees =>
        addTree #[] (.node .script ⟨0, D.size⟩ trees)) := by
  have hstart : start = D.holding ⟨0, false, []⟩ #[] D.lexemes [] [.call .script] := by
    rw [holding, Nat.sub_self]
    rfl
  have hleads : D.Leads ⟨0, false, []⟩ start D.outcome
      fun p => D.holding ⟨0, false, []⟩ #[] p.2 [p.1] [] := by
    rw [hstart]
    exact leads_call List.suffix_rfl (computes_script D) (.inl rfl)
  unfold outcome at hleads
  cases hscript : Grammar.script D.limit D.lexemes with
  | ok trees =>
    rw [hscript] at hleads
    exact ⟨_, Path.mono hleads fun _ h => h.2, rfl, rfl, rfl⟩
  | error f =>
    rw [hscript] at hleads
    obtain ⟨pos, rows, fr, -, hpath⟩ := hleads
    have hlast : D.Path D.CallsReturn ⟨pos, 0, rows, some f, [fr]⟩
        ⟨pos, fr.leave 0, rows, some f, []⟩ :=
      .single (fun r hr => by cases hr) rfl
    exact ⟨_, (hpath.mono fun _ h => h.2).trans hlast, rfl, rfl, rfl⟩

/-- **Progress and bounds of the descent.**  Whatever the lexemes, in every state that is reached
the position is within them and the depth within the limit, and a lexeme is only taken where there
is one.  Every call that is made returns, with a node or with a failure, at the depth at which it
was made; with a node, and unless it is the call for the whole script, it has passed a lexeme or
more.  And from every state that is reached the descent comes to its end, with what the grammar
gives. -/
theorem progress_of_reaches (lexemes : List Lexeme) (size : Nat) {c : Config}
    (h : Reaches ⟨maxNesting, lexemes, size⟩ start c) :
    c.pos ≤ lexemes.length ∧ c.depth ≤ maxNesting ∧
    (∀ k, c.next? = some (.take k) → c.pos < lexemes.length) ∧
    (∀ r, c.callee? = some r → ∃ c', Returns ⟨maxNesting, lexemes, size⟩ c c' ∧
      c'.depth = c.depth ∧ (c'.failure = none → r ≠ .script → c.pos < c'.pos)) ∧
    ∃ c', Reaches ⟨maxNesting, lexemes, size⟩ c c' ∧
      c'.result? = some ((Grammar.script maxNesting lexemes).map fun trees =>
        addTree #[] (.node .script ⟨0, size⟩ trees)) := by
  have hbounded := bounded_start.of_reaches h
  obtain ⟨last, hpath, hlast, hcallee, hresult⟩ := exists_finish ⟨maxNesting, lexemes, size⟩
  have hrest := hpath.of_reaches hlast h
  refine ⟨hbounded.pos_le, hbounded.depth_le, fun k => hbounded.pos_lt_of_take, ?_,
    last, hrest.reaches, hresult⟩
  cases hrest with
  | head hreturns _ _ => exact hreturns
  | refl =>
    intro r hr
    rw [hcallee] at hr
    cases hr

/-- A parenthesis that is not closed, in the state in which the sum behind it is called, one level
deep and with one lexeme passed. -/
theorem progress_of_reaches_unclosed :
    let lexemes : List Lexeme := [⟨.openParen, "(", ⟨0, 1⟩⟩, ⟨.number, "1", ⟨1, 2⟩⟩]
    let D : Descent := ⟨maxNesting, lexemes, 2⟩
    ∃ c, D.run 21 start = some c ∧ c.callee? = some .sum ∧ c.pos = 1 ∧ c.depth = 1 ∧
      (∃ c', D.Returns c c' ∧ c'.depth = 1 ∧ (c'.failure = none → 1 < c'.pos)) ∧
      ∃ c', D.Reaches c c' ∧
        c'.result? = some (.error ⟨.expectedToken .closeParen .endOfInput, none⟩) := by
  intro lexemes D
  have hrun : (D.run 21 start).map (fun c => (c.callee?, c.pos, c.depth)) =
      some (some .sum, 1, 1) := by decide +kernel
  have hscript : Grammar.script maxNesting lexemes =
      .error ⟨.expectedToken .closeParen .endOfInput, none⟩ := by decide +kernel
  obtain ⟨c, hc, hseen⟩ := Option.map_eq_some_iff.mp hrun
  obtain ⟨-, -, -, hreturns, c', hreach, hresult⟩ := progress_of_reaches lexemes 2 ⟨21, hc⟩
  simp only [Prod.mk.injEq] at hseen
  obtain ⟨hcallee, hpos, hdepth⟩ := hseen
  obtain ⟨e, hback, hsame, hpassed⟩ := hreturns .sum hcallee
  rw [hscript] at hresult
  refine ⟨c, hc, hcallee, hpos, hdepth, ⟨e, hback, hsame.trans hdepth, fun hok => ?_⟩,
    c', hreach, hresult⟩
  rw [← hpos]
  exact hpassed hok (by decide)

end ArithWat.Descent
