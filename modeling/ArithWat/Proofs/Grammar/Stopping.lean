import ArithWat.Proofs.Grammar.Assembly
import ArithWat.Proofs.Grammar.Lookahead

/-!
# Where the rules stop

When a rule fails for a reason of grammar, what it has read so far can be completed to something
derivable, and it would have failed in the same way whatever followed the lexeme at fault, and
with more levels as well (`Stops`).  This is shown rule by rule, in the order of the grammar
(`FailsFirst`): where a part of a rule fails, the rule stops with the part, after what was read
before it (`Stops.lift`); and what was read before it is read again, for the rules look no
further than one lexeme ahead.

A rule may also fail because a tree has too many levels.  Then the failure shows the tree, or the
place of one, and its span goes from one lexeme to another.
-/

namespace ArithWat.Grammar
variable {limit : Nat}

/-! ## Where a rule stops -/

/-- **Where and why a rule stops.**  A fault of grammar stands at a lexeme, or at the end: what
was read before it is part of something derivable, and the rule fails in the same way on
whatever begins with the same lexemes.  A tree with too many levels covers some of the lexemes
of `whole`. -/
inductive Stops (Derivable : List Lexeme → Prop) (Fails : List Lexeme → Failure → Prop)
    (whole : List Lexeme) : List Lexeme → Failure → Prop
  | grammar {front rest : List Lexeme} {fault : Fault} (hkind : fault.kind = .grammar)
      (hviable : ∃ more, Derivable (front ++ more))
      (hsame : ∀ rest', rest'.head? = rest.head? → Fails (front ++ rest') (failAt rest fault)) :
      Stops Derivable Fails whole (front ++ rest) (failAt rest fault)
  | tooDeep {ls : List Lexeme} {span : Option Span}
      (hspan : ∀ s ∈ span, ∃ part, part.Sublist whole ∧ Lexeme.Covers part s) :
      Stops Derivable Fails whole ls ⟨.tooDeep, span⟩

section
variable {Derivable Derivable' : List Lexeme → Prop} {Fails Fails' : List Lexeme → Failure → Prop}
  {whole whole' ls : List Lexeme} {f : Failure}

/-- **What stops a part stops the whole**: the part stands after what was read before, and can
be completed to something derivable. -/
theorem Stops.lift (h : Stops Derivable Fails whole ls f) (pre : List Lexeme)
    (hwhole : whole.Sublist whole')
    (hviable : ∀ x, Derivable x → ∃ more, Derivable' (pre ++ (x ++ more)))
    (hsame : ∀ x, x.head? = ls.head? → Fails x f → Fails' (pre ++ x) f) :
    Stops Derivable' Fails' whole' (pre ++ ls) f := by
  cases h with
  | @grammar front rest fault hkind hfront hrest =>
    rw [← List.append_assoc]
    refine .grammar hkind ?_ fun rest' hhead => ?_
    · obtain ⟨more, hmore⟩ := hfront
      obtain ⟨more', hmore'⟩ := hviable _ hmore
      exact ⟨more ++ more', by simpa using hmore'⟩
    · rw [List.append_assoc]
      refine hsame _ ?_ (hrest rest' hhead)
      rw [List.head?_append, List.head?_append, hhead]
  | tooDeep hspan =>
    refine .tooDeep fun s hs => ?_
    obtain ⟨part, hpart, hcovers⟩ := hspan s hs
    exact ⟨part, hpart.trans hwhole, hcovers⟩

/-- What stops a part that ends the whole stops the whole. -/
theorem Stops.after (h : Stops Derivable Fails whole ls f) (pre : List Lexeme)
    (hwhole : whole.Sublist whole') (hviable : ∀ x, Derivable x → Derivable' (pre ++ x))
    (hsame : ∀ x, x.head? = ls.head? → Fails x f → Fails' (pre ++ x) f) :
    Stops Derivable' Fails' whole' (pre ++ ls) f := by
  refine h.lift pre hwhole (fun x hx => ⟨[], ?_⟩) hsame
  rw [List.append_nil]
  exact hviable x hx

/-- A fault of grammar at the first lexeme. -/
theorem stops_here {fault : Fault} (hkind : fault.kind = .grammar)
    (hviable : ∃ more, Derivable more)
    (hsame : ∀ ls', ls'.head? = ls.head? → Fails ls' (failAt ls fault)) :
    Stops Derivable Fails whole ls (failAt ls fault) :=
  @Stops.grammar _ _ _ [] _ _ hkind hviable hsame

/-- A tree that is refused has too many levels. -/
theorem stops_build {k : NodeKind} {first : Tree NodeKind} {more : List (Tree NodeKind)}
    {part : List Lexeme} (h : build limit k first more = .error f)
    (htree : Assembled part (.spanning k first more)) (hpart : part.Sublist whole) :
    Stops Derivable Fails whole ls f := by
  unfold build at h
  dsimp only at h
  split at h
  · cases h
  · cases h
    refine .tooDeep fun s hs => ⟨part, hpart, ?_⟩
    cases hs
    exact htree.covers

end

/-- **Rules that fail at the first impossible lexeme**, or because there are too many levels.
The rules differ in the number of levels that they allow. -/
def FailsFirst (limit : Nat) (P : List Lexeme → Tree NodeKind → Prop) (rules : Nat → Rule) :
    Prop :=
  ∀ ls f, rules 0 ls = .error f →
    Stops (fun x => ∃ t, P x t) (fun x f => ∀ n, limit ≤ n → rules n x = .error f) ls ls f

/-! ## Single lexemes -/

theorem failAt_of_head?_eq {ls ls' : List Lexeme} (h : ls'.head? = ls.head?) (fault : Fault) :
    failAt ls' fault = failAt ls fault := by
  rw [failAt, failAt, h]

theorem ofLexemes_of_head?_eq {ls ls' : List Lexeme} (h : ls'.head? = ls.head?) :
    Found.ofLexemes ls' = Found.ofLexemes ls := by
  rcases ls with _ | ⟨l, ls⟩
  · rw [List.head?_eq_none_iff.mp h]
  · obtain ⟨us, rfl⟩ := List.head?_eq_some_iff.mp h
    rfl

/-- A lexeme with a given token, to complete what is not complete. -/
def sample (t : Token) : Lexeme := ⟨t, "", default⟩

theorem expect_eq_error {t : Token} {k : NodeKind} {ls : List Lexeme}
    (h : ls.head?.map Lexeme.token ≠ some t) :
    expect t k ls = .error (failAt ls (.expectedToken t (.ofLexemes ls))) := by
  rcases ls with _ | ⟨l, ls⟩
  · rfl
  · exact if_neg fun hl => h (congrArg some hl)

theorem stops_expect {t : Token} {k : NodeKind} {ls : List Lexeme} {f : Failure}
    (h : expect t k ls = .error f) :
    Stops (fun x => ∃ l, x = [l] ∧ l.token = t) (fun x f => expect t k x = .error f) ls ls f := by
  have hhead : ls.head?.map Lexeme.token ≠ some t := by
    intro hhead
    obtain ⟨l, hl, htoken⟩ := Option.map_eq_some_iff.mp hhead
    obtain ⟨us, rfl⟩ := List.head?_eq_some_iff.mp hl
    rw [expect_eq_ok htoken] at h
    cases h
  rw [expect_eq_error hhead] at h
  cases h
  refine stops_here rfl ⟨[sample t], sample t, rfl, rfl⟩ fun ls' hls' => ?_
  rw [expect_eq_error (by rwa [hls']), ofLexemes_of_head?_eq hls', failAt_of_head?_eq hls']

/-! ## Repetitions -/

section Chain
variable {P Q : List Lexeme → Tree NodeKind → Prop} {isOp : Token → Bool} {rules : Nat → Rule}

theorem stops_chainFrom (hreads : Reads limit P (rules 0)) (hfollows : Follows limit rules)
    (hrules : FailsFirst limit P rules)
    (hmore : ∀ {ls rs op left right}, Q ls left → isOp op.token = true → P rs right →
      Q (ls ++ op :: rs) (.spanning .binaryExpression left [leaf .arithOp op, right]))
    (hassembled : ∀ {ls t}, Q ls t → Assembled ls t)
    {room ls : List Lexeme} {left : Tree NodeKind} {f : Failure}
    (h : chainFrom limit isOp (rules 0) room left ls = .error f)
    {front : List Lexeme} (hleft : Q front left) :
    Stops (fun x => ∃ t, Q (front ++ x) t)
      (fun x f => ∀ n, limit ≤ n → ∀ room', x.length ≤ room'.length →
        chainFrom (limit + n) isOp (rules n) room' left x = .error f) (front ++ ls) ls f := by
  fun_induction chainFrom limit isOp (rules 0) room left ls generalizing front with
  | case1 _ room left op ls hop ih =>
    obtain hright | ⟨⟨right, ls'⟩, hright, hrest⟩ := Except.bind_eq_error_iff.mp h
    · refine (hrules ls f hright).after [op] (by simp) ?_ ?_
      · rintro x ⟨right, hx⟩
        exact ⟨_, hmore hleft hop hx⟩
      · intro x _ hx n hn room' hroom'
        obtain ⟨r, room', rfl⟩ := exists_cons_of_room hroom'
        simp [chainFrom, hop, hx n hn]
    obtain ⟨mid, rfl, hmid, -⟩ := hreads _ _ _ hright
    have htree := hmore hleft hop hmid
    obtain hbuild | ⟨tree, hbuild, hrest⟩ := Except.bind_eq_error_iff.mp hrest
    · exact stops_build hbuild (hassembled htree) (by simp)
    obtain ⟨rfl, hheight⟩ := build_eq_ok_iff.mp hbuild
    -- The loop goes on, and the operand that it has passed is read again whatever comes after.
    refine (ih _ _ hrest htree).after (op :: mid) (by simp) ?_ ?_
    · rintro x ⟨t, hx⟩
      exact ⟨t, by rwa [List.append_assoc] at hx⟩
    · intro x hhead hx n hn room' hroom'
      have hright' := hfollows mid ls' right hright n x hn hhead
      obtain ⟨room'', hroom'', hstep⟩ := chainFrom_step hop hright' (by simp)
        (Nat.le_add_right_of_le hheight) hroom'
      exact hstep.trans (hx n hn room'' hroom'')
  | case2 _ room left op ls hop => cases h
  | case3 room left ls => cases h

theorem failsFirst_chain (hreads : Reads limit P (rules 0)) (hfollows : Follows limit rules)
    (hrules : FailsFirst limit P rules) (hone : ∀ {ls t}, P ls t → Q ls t)
    (hmore : ∀ {ls rs op left right}, Q ls left → isOp op.token = true → P rs right →
      Q (ls ++ op :: rs) (.spanning .binaryExpression left [leaf .arithOp op, right]))
    (hassembled : ∀ {ls t}, Q ls t → Assembled ls t) :
    FailsFirst limit Q fun n => chain (limit + n) isOp (rules n) := by
  intro ls f h
  obtain hleft | ⟨⟨left, ls'⟩, hleft, hrest⟩ := Except.bind_eq_error_iff.mp h
  · refine (hrules ls f hleft).after [] (.refl _) ?_ ?_
    · rintro x ⟨t, hx⟩
      exact ⟨t, hone hx⟩
    · intro x _ hx n hn
      simp [chain, hx n hn]
  · obtain ⟨front, rfl, hfront, -⟩ := hreads _ _ _ hleft
    have hstops := stops_chainFrom hreads hfollows hrules hmore hassembled hrest (hone hfront)
    refine hstops.after front (.refl _) (fun _ hx => hx) fun x hhead hx n hn => ?_
    have hleft' := hfollows front ls' left hleft n x hn hhead
    simp [chain, hleft', hx n hn x (Nat.le_refl _)]

end Chain

/-! ## Argument lists -/

section Arguments
variable {rules : Nat → Rule}

theorem stops_arguments (hreads : Reads limit IsSum (rules 0)) (hfollows : Follows limit rules)
    (hrules : FailsFirst limit IsSum rules) {room ls : List Lexeme} {f : Failure}
    (h : arguments (rules 0) room ls = .error f) :
    Stops (fun x => ∃ ts, AreArguments x ts)
      (fun x f => ∀ n, limit ≤ n → ∀ room', x.length < room'.length →
        arguments (rules n) room' x = .error f) ls ls f := by
  induction room generalizing ls with
  | nil => cases h
  | cons _ room ih =>
    simp only [arguments] at h
    split at h
    · cases h
    rename_i hclose
    obtain ht | ⟨⟨t, ls'⟩, ht, hrest⟩ := Except.bind_eq_error_iff.mp h
    · refine (hrules ls f ht).after [] (.refl _) ?_ ?_
      · rintro x ⟨t, hx⟩
        exact ⟨[t], .last hx⟩
      · intro x hhead hx n hn room' hroom'
        rcases room' with _ | ⟨r, room'⟩
        · cases hroom'
        · simp [arguments, hhead, hclose, hx n hn]
    obtain ⟨part, rfl, hpart, -⟩ := hreads _ _ _ ht
    rcases ls' with _ | ⟨l, ls'⟩
    · cases hrest
    dsimp only at hrest
    split at hrest
    · -- After a comma the arguments go on; anything else is left to the closing parenthesis.
      rename_i hcomma
      obtain hmore | ⟨_, -, hrest⟩ := Except.bind_eq_error_iff.mp hrest
      · rw [List.append_cons part l ls']
        refine (ih hmore).after (part ++ [l]) (by simp) ?_ ?_
        · rintro x ⟨ts, hx⟩
          rw [← List.append_cons]
          exact ⟨_, .more hpart hcomma hx⟩
        · intro x _ hx n hn room' hroom'
          rcases room' with _ | ⟨r, room'⟩
          · cases hroom'
          have hroom : x.length < room'.length := by
            simp only [List.length_append, List.length_cons] at hroom'
            omega
          have hpart' := hfollows part (l :: ls') t ht n (l :: x) hn rfl
          rw [← List.append_cons, arguments, if_neg (hpart.head_ne_closeParen _), hpart']
          simp [hcomma, hx n hn room' hroom]
      · cases hrest
    · cases hrest

theorem stops_argList (hreads : Reads limit IsSum (rules 0)) (hfollows : Follows limit rules)
    (hrules : FailsFirst limit IsSum rules) {l : Lexeme} (hl : l.token = .openParen)
    {ls : List Lexeme} {f : Failure} (h : argList limit (rules 0) l ls = .error f) :
    Stops (fun x => ∃ t, IsArgList (l :: x) t)
      (fun x f => ∀ n, limit ≤ n → argList (limit + n) (rules n) l x = .error f)
      (l :: ls) ls f := by
  obtain hts | ⟨⟨ts, ls'⟩, hts, hrest⟩ := Except.bind_eq_error_iff.mp h
  · -- The arguments can be completed, and then a closing parenthesis completes the list.
    refine (stops_arguments hreads hfollows hrules hts).lift [] (by simp) ?_ ?_
    · rintro x ⟨ts, hx⟩
      exact ⟨[sample .closeParen], _, .parens hl hx rfl⟩
    · intro x _ hx n hn
      simp [argList, hx n hn (l :: x) (Nat.lt_succ_self _)]
  obtain ⟨part, rfl, hpart⟩ := arguments_reads hreads hts
  obtain hclose | ⟨⟨close, ls''⟩, hclose, hrest⟩ := Except.bind_eq_error_iff.mp hrest
  · refine (stops_expect hclose).after part ?_ ?_ ?_
    · exact .cons _ (List.sublist_append_right ..)
    · rintro x ⟨l', rfl, hl'⟩
      exact ⟨_, .parens hl hpart hl'⟩
    · intro x hhead hx n hn
      have hts' : arguments (rules n) (l :: (part ++ x)) (part ++ x) = .ok (ts, x) :=
        arguments_follows hreads hfollows hn hts (Nat.lt_succ_self _) hhead (Nat.lt_succ_self _)
      simp [argList, hts', hx]
  obtain ⟨l', rfl, hl', rfl⟩ := expect_eq_ok_iff.mp hclose
  obtain hbuild | ⟨_, -, hrest⟩ := Except.bind_eq_error_iff.mp hrest
  · exact stops_build hbuild (IsArgList.parens hl hpart hl').assembled (by simp)
  · cases hrest

end Arguments

/-! ## Operands and expressions -/

section Expression
variable {levels : Nat}

theorem stops_calls (hlevels : levels ≤ limit)
    (hrules : FailsFirst limit IsSum fun n => expression (limit + n) (levels + n))
    {room ls : List Lexeme} {callee : Tree NodeKind} {f : Failure}
    (h : calls limit (expression limit levels) room callee ls = .error f)
    {front : List Lexeme} (hcallee : IsApplied front callee) :
    Stops (fun x => ∃ t, IsApplied (front ++ x) t)
      (fun x f => ∀ n, limit ≤ n → ∀ room', x.length ≤ room'.length →
        calls (limit + n) (expression (limit + n) (levels + n)) room' callee x = .error f)
      (front ++ ls) ls f := by
  have hreads := reads_sum (reads_operand hlevels)
  fun_induction calls limit (expression limit levels) room callee ls generalizing front with
  | case1 _ room callee l ls hl ih =>
    obtain hargs | ⟨⟨args, ls'⟩, hargs, hrest⟩ := Except.bind_eq_error_iff.mp h
    · have hstops := stops_argList hreads (follows_expression hlevels) hrules hl hargs
      refine hstops.after [l] (List.sublist_append_right ..) ?_ ?_
      · rintro x ⟨args, hx⟩
        exact ⟨_, .call hcallee hx⟩
      · intro x _ hx n hn room' hroom'
        obtain ⟨r, room', rfl⟩ := exists_cons_of_room hroom'
        simp [calls, hl, hx n hn]
    obtain ⟨mid, hmid, hargs⟩ := argList_reads hreads hl hargs
    have htree := IsApplied.call hcallee hargs
    rw [hmid]
    obtain hbuild | ⟨tree, hbuild, hrest⟩ := Except.bind_eq_error_iff.mp hrest
    · exact stops_build hbuild htree.assembled (by simp)
    obtain ⟨rfl, hheight⟩ := build_eq_ok_iff.mp hbuild
    refine (ih _ _ hrest htree).after mid (by simp) ?_ ?_
    · rintro x ⟨t, hx⟩
      exact ⟨t, by rwa [List.append_assoc] at hx⟩
    · -- Nothing that follows the closing parenthesis matters to the argument list.
      intro x _ hx n hn room' hroom'
      have hlt : args.height < limit := Tree.height_spanning_le_iff.mp hheight args (by simp)
      obtain ⟨l, mid, rfl, hl, hread⟩ := @IsArgList.read (limit + n) _ _ hargs (levels + n) x
        (by omega) (by omega)
      obtain ⟨room'', hroom'', hstep⟩ := calls_step hl hread (by simp)
        (Nat.le_add_right_of_le hheight) hroom'
      exact hstep.trans (hx n hn room'' hroom'')
  | case2 _ room callee l ls hl => cases h
  | case3 room callee ls => cases h

theorem failsFirst_atom {rules : Nat → Rule} (hreads : Reads limit IsSum (rules 0))
    (hfollows : Follows limit rules) (hrules : FailsFirst limit IsSum rules) :
    FailsFirst limit IsAtom fun n => atom (limit + n) (rules n) := by
  have hother : ∀ {ls : List Lexeme}, Apart opensAtom ls →
      Stops (fun x => ∃ t, IsAtom x t)
        (fun x f => ∀ n, limit ≤ n → atom (limit + n) (rules n) x = .error f) ls ls
        (failAt ls (.expectedExpression (.ofLexemes ls))) := by
    intro ls hls
    refine stops_here rfl ⟨[sample .number], _, .number rfl⟩ fun ls' hhead n _ => ?_
    rw [atom_of_apart (hls.of_head?_eq hhead), ofLexemes_of_head?_eq hhead,
      failAt_of_head?_eq hhead]
  intro ls f h
  rcases ls with _ | ⟨l, ls⟩
  · cases h
    exact hother (apart_nil _)
  simp only [atom] at h
  split at h
  · cases h
  · cases h
  · rename_i hl
    obtain hinner | ⟨⟨inner, ls'⟩, hinner, hrest⟩ := Except.bind_eq_error_iff.mp h
    · refine (hrules ls f hinner).lift [l] (by simp) ?_ ?_
      · rintro x ⟨t, hx⟩
        exact ⟨[sample .closeParen], _, .group hl hx rfl⟩
      · intro x _ hx n hn
        simp [atom, hl, hx n hn]
    obtain ⟨part, rfl, hpart, -⟩ := hreads _ _ _ hinner
    obtain hclose | ⟨⟨close, ls''⟩, hclose, hrest⟩ := Except.bind_eq_error_iff.mp hrest
    · refine (stops_expect hclose).after (l :: part) ?_ ?_ ?_
      · exact List.sublist_append_right (l :: part) ls'
      · rintro x ⟨l', rfl, hl'⟩
        exact ⟨_, .group hl hpart hl'⟩
      · intro x hhead hx n hn
        have hinner' := hfollows part ls' inner hinner n x hn hhead
        simp [atom, hl, hinner', hx]
    obtain ⟨l', rfl, hl', rfl⟩ := expect_eq_ok_iff.mp hclose
    obtain hbuild | ⟨_, -, hrest⟩ := Except.bind_eq_error_iff.mp hrest
    · exact stops_build hbuild (IsAtom.group hl hpart hl').assembled (by simp)
    · cases hrest
  · rename_i hnumber hname hopen
    cases h
    refine hother (apart_cons.mpr ?_)
    cases hl : l.token with
    | number => exact absurd hl hnumber
    | name => exact absurd hl hname
    | openParen => exact absurd hl hopen
    | _ => rfl

theorem failsFirst_applied (hlevels : levels ≤ limit) (hlimit : 0 < limit)
    (hrules : FailsFirst limit IsSum fun n => expression (limit + n) (levels + n)) :
    FailsFirst limit IsApplied fun n =>
      applied (limit + n) (expression (limit + n) (levels + n)) := by
  have hreads := reads_sum (reads_operand hlevels)
  intro ls f h
  obtain hatom | ⟨⟨callee, ls'⟩, hatom, hrest⟩ := Except.bind_eq_error_iff.mp h
  · have hstops := failsFirst_atom hreads (follows_expression hlevels) hrules ls f hatom
    refine hstops.after [] (.refl _) ?_ ?_
    · rintro x ⟨t, hx⟩
      exact ⟨t, .atom hx⟩
    · intro x _ hx n hn
      simp [applied, hx n hn]
  · obtain ⟨front, rfl, hfront, -⟩ := reads_atom hreads hlimit _ _ _ hatom
    have hstops := stops_calls hlevels hrules hrest (.atom hfront)
    refine hstops.after front (.refl _) (fun _ hx => hx) fun x hhead hx n hn => ?_
    have hatom' := follows_atom hlevels hlimit front ls' callee hatom n x hn hhead
    simp [applied, hatom', hx n hn x (Nat.le_refl _)]

theorem failsFirst_signed (hlevels : levels ≤ limit) (hlimit : 0 < limit)
    (hoperand : FailsFirst limit IsOperand fun n => operand (limit + n) (levels + n))
    (hrules : FailsFirst limit IsSum fun n => expression (limit + n) (levels + n)) :
    FailsFirst limit IsOperand fun n =>
      signed (limit + n) (operand (limit + n) (levels + n))
        (expression (limit + n) (levels + n)) := by
  have happlied : ∀ {ls : List Lexeme} {f : Failure}, Apart Token.isAdditive ls →
      applied limit (expression limit levels) ls = .error f →
      Stops (fun x => ∃ t, IsOperand x t)
        (fun x f => ∀ n, limit ≤ n →
          signed (limit + n) (operand (limit + n) (levels + n))
            (expression (limit + n) (levels + n)) x = .error f) ls ls f := by
    intro ls f hls h
    refine (failsFirst_applied hlevels hlimit hrules ls f h).after [] (.refl _) ?_ ?_
    · rintro x ⟨t, hx⟩
      exact ⟨t, .applied hx⟩
    · intro x hhead hx n hn
      exact (signed_of_apart (hls.of_head?_eq hhead)).trans (hx n hn)
  intro ls f h
  rcases ls with _ | ⟨l, ls⟩
  · exact happlied (apart_nil _) h
  simp only [signed] at h
  split at h
  · rename_i hl
    obtain hinner | ⟨⟨inner, ls'⟩, hinner, hrest⟩ := Except.bind_eq_error_iff.mp h
    · refine (hoperand ls f hinner).after [l] (by simp) ?_ ?_
      · rintro x ⟨t, hx⟩
        exact ⟨_, .sign hl hx⟩
      · intro x _ hx n hn
        simp [signed, hl, hx n hn]
    obtain ⟨part, rfl, hpart, -⟩ := reads_operand hlevels _ _ _ hinner
    obtain hbuild | ⟨_, -, hrest⟩ := Except.bind_eq_error_iff.mp hrest
    · exact stops_build hbuild (IsOperand.sign hl hpart).assembled (by simp)
    · cases hrest
  · rename_i hl
    exact happlied (apart_cons.mpr (eq_false_of_ne_true hl)) h

theorem failsFirst_expression (hlevels : levels ≤ limit)
    (hoperand : FailsFirst limit IsOperand fun n => operand (limit + n) (levels + n)) :
    FailsFirst limit IsSum fun n => expression (limit + n) (levels + n) := by
  have hproduct : FailsFirst limit IsProduct fun n =>
      chain (limit + n) Token.isMultiplicative (operand (limit + n) (levels + n)) :=
    failsFirst_chain (reads_operand hlevels) (follows_operand hlevels) hoperand .operand .mul
      IsProduct.assembled
  exact failsFirst_chain (reads_product hlevels) (follows_product hlevels) hproduct
    .product .add IsSum.assembled

/-- **Operands fail at the first impossible lexeme**, whatever number of levels is left. -/
theorem failsFirst_operand (hlevels : levels ≤ limit) :
    FailsFirst limit IsOperand fun n => operand (limit + n) (levels + n) := by
  induction levels with
  | zero =>
    -- No level is left: the lexeme at which the operand would begin is at fault.
    intro ls f h
    cases h
    refine .tooDeep fun s hs => ?_
    obtain ⟨l, hl, rfl⟩ := Option.map_eq_some_iff.mp hs
    obtain ⟨us, rfl⟩ := List.head?_eq_some_iff.mp hl
    exact ⟨[l], by simp, Lexeme.covers_singleton l⟩
  | succ levels ih =>
    have hlevels' := Nat.le_of_succ_le hlevels
    have hoperand := ih hlevels'
    have hsigned := failsFirst_signed hlevels' (Nat.lt_of_lt_of_le (Nat.succ_pos _) hlevels)
      hoperand (failsFirst_expression hlevels' hoperand)
    have heq : ∀ n, operand (limit + n) (levels + 1 + n) =
        signed (limit + n) (operand (limit + n) (levels + n))
          (expression (limit + n) (levels + n)) := by
      intro n
      rw [Nat.add_right_comm]
      rfl
    simpa only [heq] using hsigned

end Expression

/-! ## Statements -/

/-- The beginning of an assignment is no expression. -/
theorem take_two_ne_of_expression_error (hlimit : 0 < limit) {ls : List Lexeme} {f : Failure}
    (h : expression limit limit ls = .error f) :
    (ls.take 2).map Lexeme.token ≠ [.name, .assign] := by
  intro htake
  obtain ⟨l, l', more, rfl, hl, hl'⟩ := exists_of_take_two htake
  have hname : IsSum [l] (leaf .variableName l) :=
    .product (.operand (.applied (.atom (.name hl))))
  have hapart : Apart extendsSum (l' :: more) := apart_cons.mpr (by rw [hl']; rfl)
  have hread := hname.expression_eq hlimit hapart
  rw [List.singleton_append, h] at hread
  cases hread

theorem failsFirst_statement (hlimit : 0 < limit) :
    FailsFirst limit IsStatement fun n => statement (limit + n) := by
  have hexpression := failsFirst_expression (Nat.le_refl limit) (failsFirst_operand (Nat.le_refl _))
  intro ls f h
  change statement limit ls = .error f at h
  by_cases htake : (ls.take 2).map Lexeme.token = [.name, .assign]
  · obtain ⟨l, l', more, rfl, hl, hl'⟩ := exists_of_take_two htake
    simp only [statement, hl, hl', and_self, if_true] at h
    obtain hvalue | ⟨_, -, h⟩ := Except.bind_eq_error_iff.mp h
    · refine (hexpression more f hvalue).after [l, l'] (by simp) ?_ ?_
      · rintro x ⟨t, hx⟩
        exact ⟨_, .assign hl hl' hx⟩
      · intro x _ hx n hn
        simp [statement, hl, hl', hx n hn]
    · cases h
  · rw [statement_eq_plain_of_ne htake] at h
    obtain hvalue | ⟨_, -, h⟩ := Except.bind_eq_error_iff.mp h
    · refine (hexpression ls f hvalue).after [] (.refl _) ?_ ?_
      · rintro x ⟨t, hx⟩
        exact ⟨_, .expression hx⟩
      · -- What follows may differ, but never so that an assignment would begin here.
        intro x _ hx n hn
        have htake' := take_two_ne_of_expression_error (Nat.add_pos_left hlimit n) (hx n hn)
        refine (statement_eq_plain_of_ne htake').trans ?_
        simp [statement.plain, hx n hn]
    · cases h

/-! ## Scripts -/

/-- Where and why the rules stop in a script. -/
abbrev ScriptStops (limit : Nat) (ls : List Lexeme) (f : Failure) : Prop :=
  Stops (fun x => ∃ ts, IsScript x ts)
    (fun x f => ∀ n, limit ≤ n → script (limit + n) x = .error f) ls ls f

theorem script_eq_error_of_statement {l : Lexeme} {ls : List Lexeme} {f : Failure}
    (hl : l.token.isSeparator = false) (h : statement limit (l :: ls) = .error f) :
    script limit (l :: ls) = .error f := by
  have hskip : skipSeparators (l :: ls) = l :: ls := by simp [skipSeparators, hl]
  simp [script, statements, hskip, h]

section
variable {front rest : List Lexeme} {l : Lexeme} {t : Tree NodeKind} {f : Failure}

/-- A statement is a script. -/
theorem IsStatement.isScript (h : IsStatement front t) : IsScript front [t] := by
  have hscript : IsScript ([] ++ (front ++ [])) [t] :=
    .more (List.forall_mem_nil _) h (fun l hl => by cases hl) (.blank (List.forall_mem_nil _))
  rwa [List.nil_append, List.append_nil] at hscript

/-- No script goes on after a statement with anything but a separator. -/
theorem IsStatement.script_eq_error (h : IsStatement front t) (hl : l.token.isSeparator = false)
    (hread : statement limit (front ++ l :: rest) = .ok (t, l :: rest)) :
    script limit (front ++ l :: rest) =
      .error (failAt (l :: rest) (.afterStatement (.ofLexemes (l :: rest)))) := by
  have hskip := h.skipSeparators_eq (l :: rest)
  obtain ⟨first, front, rfl⟩ := List.exists_cons_of_length_pos h.length_pos
  rw [List.cons_append] at hread hskip ⊢
  simp [script, statements, hskip, hread, hl]

theorem scriptStops_cons_separator (hl : l.token.isSeparator = true)
    (h : ScriptStops limit rest f) : ScriptStops limit (l :: rest) f := by
  refine h.after [l] (by simp) ?_ ?_
  · rintro x ⟨ts, hx⟩
    exact ⟨ts, hx.cons_separator hl⟩
  · intro x _ hx n hn
    exact (script_cons_separator hl x).trans (hx n hn)

/-- After a statement and a separator the rest stops as a script of its own. -/
theorem IsStatement.scriptStops_append (h : IsStatement front t) (hkeeps : KeepsTo limit t)
    (hl : l.token.isSeparator = true) (hrest : ScriptStops limit rest f) :
    ScriptStops limit (front ++ l :: rest) f := by
  rw [List.append_cons]
  refine hrest.after (front ++ [l]) (List.sublist_append_right ..) ?_ ?_
  · rintro x ⟨ts, hx⟩
    have hscript : IsScript ([] ++ (front ++ l :: x)) (t :: ts) :=
      .statement (List.forall_mem_nil _) h (beginsWith_cons.mpr hl) (hx.cons_separator hl)
    rw [← List.append_cons]
    exact ⟨_, hscript⟩
  · intro x _ hx n hn
    have hkeeps' : KeepsTo (limit + n) t := fun e he => Nat.le_add_right_of_le (hkeeps e he)
    rw [← List.append_cons, h.script_append hkeeps' (beginsWith_cons.mpr hl),
      script_cons_separator hl, Except.bimap_id_eq_error_iff]
    exact hx n hn

end

/-- **Scripts fail at the first impossible lexeme.** -/
theorem scriptStops_of_error (hlimit : 0 < limit) {ls : List Lexeme} {f : Failure}
    (h : script limit ls = .error f) : ScriptStops limit ls f := by
  induction hlength : ls.length using Nat.strong_induction_on generalizing ls with
  | _ length ih =>
  rcases ls with _ | ⟨l, ls⟩
  · cases h
  by_cases hl : l.token.isSeparator = true
  · rw [script_cons_separator hl] at h
    exact scriptStops_cons_separator hl (ih ls.length (by simp [← hlength]) h rfl)
  rw [Bool.not_eq_true] at hl
  cases hstmt : statement limit (l :: ls) with
  | error e =>
    rw [script_eq_error_of_statement hl hstmt] at h
    cases h
    refine (failsFirst_statement hlimit _ _ hstmt).after [] (.refl _) ?_ ?_
    · rintro x ⟨t, hx⟩
      exact ⟨[t], hx.isScript⟩
    · intro x hhead hx n hn
      obtain ⟨us, rfl⟩ := List.head?_eq_some_iff.mp hhead
      exact script_eq_error_of_statement hl (hx n hn)
  | ok y =>
    obtain ⟨t, rest⟩ := y
    obtain ⟨front, hfront, hstatement, hkeeps⟩ := statement_reads hstmt
    have hpos := hstatement.length_pos
    rw [hfront] at h hstmt hlength ⊢
    rcases rest with _ | ⟨r, rest⟩
    · rw [List.append_nil, hstatement.isScript.read (by simpa using hkeeps)] at h
      cases h
    by_cases hr : r.token.isSeparator = true
    · -- The statement is complete, so it is the rest that stops.
      rw [hstatement.script_append hkeeps (beginsWith_cons.mpr hr), script_cons_separator hr,
        Except.bimap_id_eq_error_iff] at h
      rw [List.length_append, List.length_cons] at hlength
      exact hstatement.scriptStops_append hkeeps hr (ih rest.length (by omega) h rfl)
    · rw [Bool.not_eq_true] at hr
      rw [hstatement.script_eq_error hr hstmt] at h
      cases h
      refine .grammar rfl ⟨[], [t], by simpa using hstatement.isScript⟩ fun rest' hhead n hn => ?_
      have hread := follows_statement front (r :: rest) t hstmt n rest' hn hhead
      obtain ⟨us, rfl⟩ := List.head?_eq_some_iff.mp hhead
      exact hstatement.script_eq_error hr hread

end ArithWat.Grammar
