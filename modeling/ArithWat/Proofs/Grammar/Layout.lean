import ArithWat.Proofs.Outline

/-!
# The grammar does not look at layout

A rule stops at a break in the same way whether it is the end of the script, a line feed or
a semicolon, and looks at nothing behind it.  So on lexemes in parallel a rule reads trees
that are alike and leaves lexemes in parallel, or fails on both for faults of the same sort
(`Agrees`), and scripts with the same outline have lists of trees that are alike or fail
alike (`script_rel`).

What a failure says may well depend on layout: it names the lexeme that it stands at.
-/

namespace ArithWat.Grammar
open ArithWat.Lexeme ArithWat.Tree
variable {source source' : List Char} {limit : Nat} {ls ls' : List Lexeme}

/-- Failures for faults of the same sort. -/
def Failure.SameKind (e e' : Failure) : Prop := e.fault.kind = e'.fault.kind

/-- What is read off the front of `ls` and of `ls'`: results related by `P`, and lexemes in
parallel after them. -/
inductive ReadAlike (source source' : List Char) {β : Type} (P : β → β → Prop)
    (ls ls' : List Lexeme) : β × List Lexeme → β × List Lexeme → Prop
  | intro {b b' us us'} : P b b' → Parallel source source' us us' → us <:+ ls → us' <:+ ls' →
      ReadAlike source source' P ls ls' (b, us) (b', us')

/-- Two runs on lexemes in parallel that come to results related by `P` or fail alike. -/
abbrev RunAlike (source source' : List Char) {β : Type} (P : β → β → Prop)
    (ls ls' : List Lexeme) : (x x' : Except Failure (β × List Lexeme)) → Prop :=
  Except.Rel Failure.SameKind (ReadAlike source source' P ls ls')

/-- **A rule agrees** if it runs alike on all lexemes in parallel. -/
def Agrees (source source' : List Char) (P : Tree NodeKind → Tree NodeKind → Prop)
    (rule : Rule) : Prop :=
  ∀ ⦃ls ls'⦄, Parallel source source' ls ls' →
    RunAlike source source' P ls ls' (rule ls) (rule ls')

/-- A run that takes nothing. -/
theorem runAlike_ok {β : Type} {P : β → β → Prop} {b b' : β} (hb : P b b')
    (h : Parallel source source' ls ls') :
    RunAlike source source' P ls ls' (.ok (b, ls)) (.ok (b', ls')) :=
  .ok ⟨hb, h, List.suffix_rfl, List.suffix_rfl⟩

/-- What runs alike behind the front of two lists runs alike on the lists. -/
theorem RunAlike.of_suffix {β : Type} {P : β → β → Prop} {us us' : List Lexeme}
    {x x' : Except Failure (β × List Lexeme)} (h : RunAlike source source' P us us' x x')
    (hus : us <:+ ls) (hus' : us' <:+ ls') : RunAlike source source' P ls ls' x x' := by
  refine h.mono ?_
  rintro _ _ ⟨hb, hrest, hsuffix, hsuffix'⟩
  exact ⟨hb, hrest, hsuffix.trans hus, hsuffix'.trans hus'⟩

/-! ## Single nodes -/

theorem BeginsWith.token_ne (h : BeginsWith Token.isSeparator ls) {t : Token}
    (ht : t.isSeparator = false) {l : Lexeme} {us : List Lexeme} (hls : ls = l :: us) :
    l.token ≠ t := by
  rintro rfl
  subst hls
  rw [h l rfl] at ht
  cases ht

/-- Trees that are alike and stop where no name of a builtin does. -/
structure ClosedAlike (source source' : List Char) (t t' : Tree NodeKind) : Prop where
  alike : Alike source source' t t'
  closesAt : ClosesAt source t.span.stop
  closesAt' : ClosesAt source' t'.span.stop

/-- Trees that are alike and name the same builtin if they are called. -/
structure CalleesAlike (source source' : List Char) (t t' : Tree NodeKind) : Prop where
  alike : Alike source source' t t'
  names : SameBuiltin (t.span.text source) (t'.span.text source')

theorem ClosedAlike.callees {t t' : Tree NodeKind} (h : ClosedAlike source source' t t') :
    CalleesAlike source source' t t' :=
  ⟨h.alike, .of_closesAt h.closesAt h.closesAt'⟩

/-- A closing parenthesis is found in both lists or in neither. -/
theorem expect_rel (h : Parallel source source' ls ls') :
    RunAlike source source' (ClosedAlike source source') ls ls'
      (expect .closeParen .closeParen ls) (expect .closeParen .closeParen ls') := by
  rcases h.cases with ⟨hbreak, hbreak'⟩ | ⟨l, us, l', us', rfl, rfl, htwin, hus⟩
  · have hfail : ∀ us, BeginsWith Token.isSeparator us → expect .closeParen .closeParen us =
        .error (failAt us (.expectedToken .closeParen (.ofLexemes us))) := by
      intro us hus
      rcases us with _ | ⟨l, us⟩
      · rfl
      · exact if_neg (hus.token_ne rfl rfl)
    rw [hfail ls hbreak, hfail ls' hbreak']
    exact .error rfl
  · rw [expect, expect, ← htwin.token_eq]
    by_cases hl : l.token = .closeParen
    · rw [if_pos hl, if_pos hl]
      have hclosed : ClosedAlike source source' (leaf .closeParen l) (leaf .closeParen l') :=
        ⟨alike_leaf htwin .closeParen, htwin.genuine.closesAt hl,
          htwin.genuine'.closesAt (htwin.token_eq.symm.trans hl)⟩
      exact .ok ⟨hclosed, hus, List.suffix_cons .., List.suffix_cons ..⟩
    · rw [if_neg hl, if_neg hl]
      exact .error rfl

section
variable {k : NodeKind} {first first' last last' : Tree NodeKind}
  {more more' : List (Tree NodeKind)} (hk : isWord k = false)
  (hfirst : Alike source source' first first')
  (hcall : k ≠ .callExpression ∨ SameBuiltin (first.span.text source) (first'.span.text source'))
include hk hfirst hcall

/-- Nodes over children that are alike are built alike, or refused. -/
theorem build_rel (hmore : List.Forall₂ (Alike source source') more more') :
    Except.Rel Failure.SameKind (Alike source source') (build limit k first more)
      (build limit k first' more') := by
  have halike := alike_spanning hk hfirst hmore hcall
  rw [build, build, ← halike.height_eq]
  split
  · exact .ok halike
  · exact .error rfl

/-- A node stops where its last child stops. -/
theorem build_closed_rel (hmore : List.Forall₂ (Alike source source') more more')
    (hlast : ClosedAlike source source' last last') :
    Except.Rel Failure.SameKind (ClosedAlike source source') (build limit k first (more ++ [last]))
      (build limit k first' (more' ++ [last'])) := by
  have hchildren := List.rel_append hmore (.cons hlast.alike .nil)
  refine (build_rel hk hfirst hcall hchildren).and_ok.mono ?_
  rintro t t' ⟨halike, ht, ht'⟩
  obtain ⟨rfl, -⟩ := build_eq_ok_iff.mp ht
  obtain ⟨rfl, -⟩ := build_eq_ok_iff.mp ht'
  refine ⟨halike, ?_, ?_⟩
  · rw [stop_spanning_append]
    exact hlast.closesAt
  · rw [stop_spanning_append]
    exact hlast.closesAt'

end

/-! ## Repetitions -/

/-- After the first lexeme there is room for what is left. -/
theorem length_le_room {l r : Lexeme} {us vs room : List Lexeme}
    (hroom : (l :: us).length ≤ (r :: room).length) (h : vs <:+ us) : vs.length ≤ room.length :=
  Nat.le_trans h.length_le (Nat.le_of_succ_le_succ hroom)

section
variable {rule : Rule} (hrule : Agrees source source' (Alike source source') rule)
include hrule

theorem chainFrom_rel {isOp : Token → Bool} (hop : ∀ t, isOp t = true → extendsSum t = true)
    {room room' ls ls' : List Lexeme} {left left' : Tree NodeKind} (hroom : ls.length ≤ room.length)
    (hroom' : ls'.length ≤ room'.length) (hleft : Alike source source' left left')
    (h : Parallel source source' ls ls') :
    RunAlike source source' (Alike source source') ls ls'
      (chainFrom limit isOp rule room left ls) (chainFrom limit isOp rule room' left' ls') := by
  -- The rule may leave any later part of the lists, so the induction is on what is left.
  induction hn : ls.length using Nat.strongRecOn
    generalizing room room' ls ls' left left' with
  | ind n ih =>
    rcases h.cases with ⟨hbreak, hbreak'⟩ | ⟨op, us, op', us', rfl, rfl, htwin, hus⟩
    · rw [chainFrom_stop (hbreak.apart.mono hop), chainFrom_stop (hbreak'.apart.mono hop)]
      exact runAlike_ok hleft h
    · obtain ⟨r, room, rfl⟩ := List.exists_cons_of_length_pos (Nat.zero_lt_of_lt hroom)
      obtain ⟨r', room', rfl⟩ := List.exists_cons_of_length_pos (Nat.zero_lt_of_lt hroom')
      rw [chainFrom, chainFrom, ← htwin.token_eq]
      by_cases hl : isOp op.token = true
      · rw [if_pos hl, if_pos hl]
        refine (hrule hus).bind ?_
        rintro _ _ @⟨right, right', vs, vs', hright, hvs, hsuffix, hsuffix'⟩
        have hmore := List.Forall₂.cons (alike_leaf htwin .arithOp) (.cons hright .nil)
        refine (build_rel rfl hleft (.inl (by decide)) hmore).bind ?_
        intro tree tree' htree
        have hshorter : vs.length < n := hn ▸ Nat.lt_succ_of_le hsuffix.length_le
        refine RunAlike.of_suffix ?_ (hsuffix.trans (List.suffix_cons ..))
          (hsuffix'.trans (List.suffix_cons ..))
        exact ih vs.length hshorter (length_le_room hroom hsuffix)
          (length_le_room hroom' hsuffix') htree hvs rfl
      · rw [if_neg hl, if_neg hl]
        exact runAlike_ok hleft h

theorem agrees_chain {isOp : Token → Bool} (hop : ∀ t, isOp t = true → extendsSum t = true) :
    Agrees source source' (Alike source source') (chain limit isOp rule) := by
  intro ls ls' h
  refine (hrule h).bind ?_
  rintro _ _ @⟨left, left', us, us', hleft, hus, hsuffix, hsuffix'⟩
  exact RunAlike.of_suffix
    (chainFrom_rel hrule hop (Nat.le_refl _) (Nat.le_refl _) hleft hus) hsuffix hsuffix'

theorem agrees_sum : Agrees source source' (Alike source source') (sum limit rule) := by
  refine agrees_chain (agrees_chain hrule fun t ht => ?_) fun t ht => ?_
  · simp [extendsSum, extendsProduct, ht]
  · simp [extendsSum, ht]

omit hrule in
/-- A closing parenthesis comes next in both lists or in neither. -/
theorem head_closeParen_iff (h : Parallel source source' ls ls') :
    ls.head?.map Lexeme.token = some .closeParen ↔
      ls'.head?.map Lexeme.token = some .closeParen := by
  rcases h.cases with ⟨hbreak, hbreak'⟩ | ⟨l, us, l', us', rfl, rfl, htwin, -⟩
  · have hne : ∀ us, BeginsWith Token.isSeparator us →
        us.head?.map Lexeme.token ≠ some .closeParen := by
      intro us hus heq
      obtain ⟨l, hl, htoken⟩ := Option.map_eq_some_iff.mp heq
      have hsep := hus l hl
      rw [htoken] at hsep
      cases hsep
    exact ⟨fun heq => absurd heq (hne ls hbreak), fun heq => absurd heq (hne ls' hbreak')⟩
  · rw [List.head?_cons, List.head?_cons, Option.map_some, Option.map_some, htwin.token_eq]

theorem arguments_rel {room room' ls ls' : List Lexeme} (hroom : ls.length < room.length)
    (hroom' : ls'.length < room'.length) (h : Parallel source source' ls ls') :
    RunAlike source source' (List.Forall₂ (Alike source source')) ls ls'
      (arguments rule room ls) (arguments rule room' ls') := by
  induction room generalizing room' ls ls' with
  | nil => cases hroom
  | cons r room ih =>
    obtain ⟨r', room', rfl⟩ := List.exists_cons_of_length_pos (Nat.zero_lt_of_lt hroom')
    rw [arguments, arguments]
    by_cases hclose : ls.head?.map Lexeme.token = some .closeParen
    · rw [if_pos hclose, if_pos ((head_closeParen_iff h).mp hclose)]
      exact runAlike_ok .nil h
    · rw [if_neg hclose, if_neg (mt (head_closeParen_iff h).mpr hclose)]
      refine (hrule h).bind ?_
      rintro _ _ @⟨tree, tree', us, us', htree, hus, hsuffix, hsuffix'⟩
      have hlast : RunAlike source source' (List.Forall₂ (Alike source source')) ls ls'
          (.ok ([tree], us)) (.ok ([tree'], us')) :=
        .ok ⟨.cons htree .nil, hus, hsuffix, hsuffix'⟩
      rcases hus.cases with ⟨hbreak, hbreak'⟩ | ⟨l, vs, l', vs', rfl, rfl, htwin, hvs⟩
      · -- No comma follows at a break, so the argument is the last one in both lists.
        rcases us with _ | ⟨l, vs⟩
        · rcases us' with _ | ⟨l', vs'⟩
          · exact hlast
          · simpa only [if_neg (hbreak'.token_ne (t := .comma) rfl rfl)] using hlast
        · rcases us' with _ | ⟨l', vs'⟩
          · simpa only [if_neg (hbreak.token_ne (t := .comma) rfl rfl)] using hlast
          · simpa only [if_neg (hbreak.token_ne (t := .comma) rfl rfl),
              if_neg (hbreak'.token_ne (t := .comma) rfl rfl)] using hlast
      · dsimp only
        rw [← htwin.token_eq]
        by_cases hcomma : l.token = .comma
        · rw [if_pos hcomma, if_pos hcomma]
          have hlength := hsuffix.length_le
          have hlength' := hsuffix'.length_le
          simp only [List.length_cons] at hroom hroom' hlength hlength'
          refine (ih (by omega) (by omega) hvs).bind ?_
          rintro _ _ @⟨trees, trees', ws, ws', htrees, hws, hrest, hrest'⟩
          have hleaf := alike_leaf htwin .comma
          exact .ok ⟨.cons htree (.cons hleaf htrees), hws,
            hrest.trans ((List.suffix_cons ..).trans hsuffix),
            hrest'.trans ((List.suffix_cons ..).trans hsuffix')⟩
        · rw [if_neg hcomma, if_neg hcomma]
          exact hlast

theorem argList_rel {l l' : Lexeme} (htwin : Twin source source' l l')
    (h : Parallel source source' ls ls') :
    RunAlike source source' (ClosedAlike source source') ls ls'
      (argList limit rule l ls) (argList limit rule l' ls') := by
  have hroom : ls.length < (l :: ls).length := Nat.lt_succ_self _
  have hroom' : ls'.length < (l' :: ls').length := Nat.lt_succ_self _
  refine (arguments_rel hrule hroom hroom' h).bind ?_
  rintro _ _ @⟨trees, trees', us, us', htrees, hus, hsuffix, hsuffix'⟩
  refine (expect_rel hus).bind ?_
  rintro _ _ @⟨close, close', vs, vs', hclose, hvs, hrest, hrest'⟩
  have hopen := alike_leaf htwin .openParen
  refine (build_closed_rel rfl hopen (.inl (by decide)) htrees hclose).bind ?_
  intro tree tree' htree
  exact .ok ⟨htree, hvs, hrest.trans hsuffix, hrest'.trans hsuffix'⟩

theorem calls_rel {room room' ls ls' : List Lexeme} {callee callee' : Tree NodeKind}
    (hroom : ls.length ≤ room.length) (hroom' : ls'.length ≤ room'.length)
    (hcallee : CalleesAlike source source' callee callee') (h : Parallel source source' ls ls') :
    RunAlike source source' (Alike source source') ls ls'
      (calls limit rule room callee ls) (calls limit rule room' callee' ls') := by
  induction hn : ls.length using Nat.strongRecOn
    generalizing room room' ls ls' callee callee' with
  | ind n ih =>
    rcases h.cases with ⟨hbreak, hbreak'⟩ | ⟨l, us, l', us', rfl, rfl, htwin, hus⟩
    · rw [calls_stop hbreak.apart.product.operand, calls_stop hbreak'.apart.product.operand]
      exact runAlike_ok hcallee.alike h
    · obtain ⟨r, room, rfl⟩ := List.exists_cons_of_length_pos (Nat.zero_lt_of_lt hroom)
      obtain ⟨r', room', rfl⟩ := List.exists_cons_of_length_pos (Nat.zero_lt_of_lt hroom')
      rw [calls, calls, ← htwin.token_eq]
      by_cases hopen : l.token = .openParen
      · rw [if_pos hopen, if_pos hopen]
        refine (argList_rel hrule htwin hus).bind ?_
        rintro _ _ @⟨args, args', vs, vs', hargs, hvs, hsuffix, hsuffix'⟩
        refine (build_closed_rel rfl hcallee.alike (.inr hcallee.names) .nil hargs).bind ?_
        intro tree tree' htree
        have hshorter : vs.length < n := hn ▸ Nat.lt_succ_of_le hsuffix.length_le
        refine RunAlike.of_suffix ?_ (hsuffix.trans (List.suffix_cons ..))
          (hsuffix'.trans (List.suffix_cons ..))
        exact ih vs.length hshorter (length_le_room hroom hsuffix)
          (length_le_room hroom' hsuffix') htree.callees hvs rfl
      · rw [if_neg hopen, if_neg hopen]
        exact runAlike_ok hcallee.alike h

end

/-! ## Expressions -/

theorem calleesAlike_leaf {l l' : Lexeme} (h : Twin source source' l l') (k : NodeKind) :
    CalleesAlike source source' (leaf k l) (leaf k l') := by
  refine ⟨alike_leaf h k, ?_⟩
  change SameBuiltin (l.span.text source) (l'.span.text source')
  rw [h.span_text_eq]
  exact ⟨rfl, rfl⟩

/-- No atom begins at a break. -/
theorem atom_of_beginsWith {rule : Rule} (h : BeginsWith Token.isSeparator ls) :
    atom limit rule ls = .error (failAt ls (.expectedExpression (.ofLexemes ls))) := by
  refine atom_of_apart fun l hl => ?_
  have hsep := h l hl
  revert hsep
  cases l.token <;> decide

theorem agrees_atom {rule : Rule} (hrule : Agrees source source' (Alike source source') rule) :
    Agrees source source' (CalleesAlike source source') (atom limit rule) := by
  intro ls ls' h
  rcases h.cases with ⟨hbreak, hbreak'⟩ | ⟨l, us, l', us', rfl, rfl, htwin, hus⟩
  · rw [atom_of_beginsWith hbreak, atom_of_beginsWith hbreak']
    exact .error rfl
  · rw [atom, atom, ← htwin.token_eq]
    split
    · exact .ok ⟨calleesAlike_leaf htwin _, hus, List.suffix_cons .., List.suffix_cons ..⟩
    · exact .ok ⟨calleesAlike_leaf htwin _, hus, List.suffix_cons .., List.suffix_cons ..⟩
    · refine (hrule hus).bind ?_
      rintro _ _ @⟨inner, inner', vs, vs', hinner, hvs, hsuffix, hsuffix'⟩
      refine (expect_rel hvs).bind ?_
      rintro _ _ @⟨close, close', ws, ws', hclose, hws, hrest, hrest'⟩
      have hopen := alike_leaf htwin .openParen
      refine (build_closed_rel rfl hopen (.inl (by decide)) (.cons hinner .nil) hclose).bind ?_
      intro tree tree' htree
      exact .ok ⟨htree.callees, hws, hrest.trans (hsuffix.trans (List.suffix_cons ..)),
        hrest'.trans (hsuffix'.trans (List.suffix_cons ..))⟩
    · exact .error rfl

theorem agrees_applied {rule : Rule} (hrule : Agrees source source' (Alike source source') rule) :
    Agrees source source' (Alike source source') (applied limit rule) := by
  intro ls ls' h
  refine (agrees_atom hrule h).bind ?_
  rintro _ _ @⟨callee, callee', us, us', hcallee, hus, hsuffix, hsuffix'⟩
  exact RunAlike.of_suffix
    (calls_rel hrule (Nat.le_refl _) (Nat.le_refl _) hcallee hus) hsuffix hsuffix'

theorem agrees_signed {operand expression : Rule}
    (hoperand : Agrees source source' (Alike source source') operand)
    (hexpression : Agrees source source' (Alike source source') expression) :
    Agrees source source' (Alike source source') (signed limit operand expression) := by
  intro ls ls' h
  rcases h.cases with ⟨hbreak, hbreak'⟩ | ⟨l, us, l', us', rfl, rfl, htwin, hus⟩
  · rw [signed_of_apart hbreak.apart.isAdditive, signed_of_apart hbreak'.apart.isAdditive]
    exact agrees_applied hexpression h
  · rw [signed, signed, ← htwin.token_eq]
    by_cases hsign : l.token.isAdditive = true
    · rw [if_pos hsign, if_pos hsign]
      refine (hoperand hus).bind ?_
      rintro _ _ @⟨inner, inner', vs, vs', hinner, hvs, hsuffix, hsuffix'⟩
      have hop := alike_leaf htwin .arithOp
      refine (build_rel rfl hop (.inl (by decide)) (.cons hinner .nil)).bind ?_
      intro tree tree' htree
      exact .ok ⟨htree, hvs, hsuffix.trans (List.suffix_cons ..),
        hsuffix'.trans (List.suffix_cons ..)⟩
    · rw [if_neg hsign, if_neg hsign]
      exact agrees_applied hexpression h

/-- **Operands agree**, with any number of levels left. -/
theorem agrees_operand (levels : Nat) :
    Agrees source source' (Alike source source') (operand limit levels) := by
  induction levels with
  | zero => exact fun _ _ _ => .error rfl
  | succ levels ih => exact agrees_signed ih (agrees_sum ih)

theorem agrees_expression (levels : Nat) :
    Agrees source source' (Alike source source') (expression limit levels) :=
  agrees_sum (agrees_operand levels)

/-! ## Statements -/

theorem agrees_plain : Agrees source source' (Alike source source') (statement.plain limit) := by
  intro ls ls' h
  refine (agrees_expression limit h).bind ?_
  rintro _ _ @⟨tree, tree', us, us', htree, hus, hsuffix, hsuffix'⟩
  exact .ok ⟨alike_spanning rfl htree .nil (.inl (by decide)), hus, hsuffix, hsuffix'⟩

/-- **Statements agree.** -/
theorem agrees_statement : Agrees source source' (Alike source source') (statement limit) := by
  intro ls ls' h
  rcases h.cases with ⟨hbreak, hbreak'⟩ | ⟨l, us, l', us', rfl, rfl, htwin, hus⟩
  · -- There is no name to assign to.
    have hplain : ∀ us, BeginsWith Token.isSeparator us →
        statement limit us = statement.plain limit us := by
      intro us hus
      apply statement_of_not_assign
      rintro l l' rest rfl ⟨hname, -⟩
      exact hus.token_ne rfl rfl hname
    rw [hplain ls hbreak, hplain ls' hbreak']
    exact agrees_plain h
  rcases hus.cases with ⟨hbreak, hbreak'⟩ | ⟨m, vs, m', vs', rfl, rfl, htwin', hvs⟩
  · -- There is no equals sign behind the first word.
    have hplain : ∀ l us, BeginsWith Token.isSeparator us →
        statement limit (l :: us) = statement.plain limit (l :: us) := by
      intro l us hus
      apply statement_of_not_assign
      rintro _ l' rest heq ⟨-, hassign⟩
      exact hus.token_ne rfl (List.cons.inj heq).2 hassign
    rw [hplain l us hbreak, hplain l' us' hbreak']
    exact agrees_plain h
  · rw [statement, statement, ← htwin.token_eq, ← htwin'.token_eq]
    by_cases hassign : l.token = .name ∧ m.token = .assign
    · rw [if_pos hassign, if_pos hassign]
      refine (agrees_expression limit hvs).bind ?_
      rintro _ _ @⟨value, value', ws, ws', hvalue, hws, hsuffix, hsuffix'⟩
      have hname := alike_leaf htwin .variableName
      have hequals := alike_leaf htwin' .assignOp
      have htree := alike_spanning (k := .assignStatement) rfl hname
        (.cons hequals (.cons hvalue .nil)) (.inl (by decide))
      exact RunAlike.of_suffix (.ok ⟨htree, hws, hsuffix, hsuffix'⟩)
        ((List.suffix_cons ..).trans (List.suffix_cons ..))
        ((List.suffix_cons ..).trans (List.suffix_cons ..))
    · rw [if_neg hassign, if_neg hassign]
      exact agrees_plain h

/-! ## Scripts -/

/-- Once the separators at the front are gone, a break is the end. -/
theorem skipSeparators_eq_nil (h : BeginsWith Token.isSeparator (skipSeparators ls)) :
    skipSeparators ls = [] := by
  by_contra hne
  have hword : ((skipSeparators ls).head hne).token.isSeparator = false :=
    List.head_dropWhile_not (fun l : Lexeme => l.token.isSeparator) hne
  have hsep := h _ (List.head?_eq_some_head hne)
  exact Bool.false_ne_true (hword.symm.trans hsep)

theorem statements_of_skipSeparators (h : skipSeparators ls = []) (room : List Lexeme) :
    statements limit room ls = .ok [] := by
  rcases room with _ | ⟨r, room⟩
  · rfl
  · rw [statements, h]

/-- What a statement leaves is shorter than what it was read off. -/
theorem length_lt_of_statement {us vs : List Lexeme} {t : Tree NodeKind}
    (hskip : skipSeparators ls = us) (h : statement limit us = .ok (t, vs)) :
    vs.length < ls.length := by
  obtain ⟨front, rfl, hstmt, -⟩ := statement_reads h
  have hpos := hstmt.length_pos
  have hle := length_skipSeparators_le ls
  rw [hskip, List.length_append] at hle
  omega

/-- **Statements are read off in step**, as long as there is room for all lexemes. -/
theorem statements_rel {room room' ls ls' : List Lexeme} (hroom : ls.length ≤ room.length)
    (hroom' : ls'.length ≤ room'.length)
    (h : Parallel source source' (skipSeparators ls) (skipSeparators ls')) :
    Except.Rel Failure.SameKind (List.Forall₂ (Alike source source'))
      (statements limit room ls) (statements limit room' ls') := by
  induction hn : ls.length using Nat.strongRecOn generalizing room room' ls ls' with
  | ind n ih =>
    rcases h.cases with ⟨hbreak, hbreak'⟩ | ⟨l, us, l', us', hskip, hskip', -⟩
    · -- Nothing but separators is left, though perhaps not the same number of them.
      rw [statements_of_skipSeparators (skipSeparators_eq_nil hbreak),
        statements_of_skipSeparators (skipSeparators_eq_nil hbreak')]
      exact .ok .nil
    have hpos : ∀ {ls l us}, skipSeparators ls = l :: us → 0 < ls.length := by
      intro ls l us hls
      have hle := length_skipSeparators_le ls
      rw [hls] at hle
      exact Nat.zero_lt_of_lt hle
    obtain ⟨r, room, rfl⟩ :=
      List.exists_cons_of_length_pos (Nat.lt_of_lt_of_le (hpos hskip) hroom)
    obtain ⟨r', room', rfl⟩ :=
      List.exists_cons_of_length_pos (Nat.lt_of_lt_of_le (hpos hskip') hroom')
    rw [hskip, hskip'] at h
    rw [statements, statements, hskip, hskip']
    refine (agrees_statement h).and_ok.bind ?_
    rintro _ _ ⟨@⟨tree, tree', vs, vs', htree, hvs, -, -⟩, hread, hread'⟩
    have hlength := length_lt_of_statement hskip hread
    have hlength' := length_lt_of_statement hskip' hread'
    rw [List.length_cons] at hroom hroom'
    rcases hvs.cases with ⟨hbreak, hbreak'⟩ | ⟨m, ws, m', ws', rfl, rfl, htwin, -⟩
    · dsimp only
      rw [hbreak.any_eq_false, hbreak'.any_eq_false]
      refine (ih vs.length (by omega) (by omega) (by omega) hvs.skipSeparators rfl).bind ?_
      intro trees trees' htrees
      exact .ok (.cons htree htrees)
    · -- A word follows the statement in both scripts.
      have hword' : m'.token.isSeparator = false := htwin.token_eq ▸ htwin.isWord
      simp only [List.head?_cons, Option.any_some, htwin.isWord, hword']
      exact .error rfl

/-- **Scripts with one outline have trees that are alike, or fail alike.** -/
theorem script_rel (h : outline ls = outline ls') (hgenuine : ∀ l ∈ ls, l.Genuine source)
    (hgenuine' : ∀ l ∈ ls', l.Genuine source') :
    Except.Rel Failure.SameKind (List.Forall₂ (Alike source source')) (script limit ls)
      (script limit ls') :=
  statements_rel (Nat.le_refl _) (Nat.le_refl _) (parallel_skipSeparators h hgenuine hgenuine')

end ArithWat.Grammar
