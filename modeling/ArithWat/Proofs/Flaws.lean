import ArithWat.Proofs.Supported

/-!
# Where flaws stand

A flaw stands at a node: whatever is wrong with a tree that is read, the span of the flaw is the
span of the tree or of one below its root (`Reading.pointsInto_stmt`).  Nothing is asked of
the tree.  Its tags may be any, and so may its spans.

The readings go through the children of a node from the left, and each part of a reading points
into the tree because the nodes that it has come to are nodes of the tree (`PointsInto.bind`).

So a walk that fails reports a span of the subtree that it began on, whichever entrance it took
(`Walk.exists_standsAt_of_error`).  The text and the place of the report are those of that span,
also where the span is no range of whole characters.
-/

namespace ArithWat

theorem Tree.mem_subtrees_of_mem {κ : Type} {t u : Tree κ} (h : u ∈ t.children) :
    u ∈ t.subtrees :=
  subtrees_subset h u.mem_subtrees_self

namespace Reading
variable {κ α β : Type} {source : List Char} {t u : Tree κ} {later : List (Tree κ)}
  {r : Except Flaw α}

/-- **A reading that points into a tree**: its flaw, if it has one, stands at a node of the
tree. -/
def PointsInto (t : Tree κ) (r : Except Flaw α) : Prop :=
  ∀ f, r = .error f → ∃ u ∈ t.subtrees, u.span = f.span

theorem pointsInto_ok (t : Tree κ) (a : α) : PointsInto t (.ok a) := by
  intro f hf
  cases hf

theorem pointsInto_flaw (hu : u ∈ t.subtrees) (fault : Fault) :
    PointsInto t (flaw u fault : Except Flaw α) := by
  intro f hf
  cases hf
  exact ⟨u, hu, rfl⟩

theorem PointsInto.bind {g : α → Except Flaw β} (h : PointsInto t r)
    (hg : ∀ a, r = .ok a → PointsInto t (g a)) : PointsInto t (r >>= g) := by
  intro f hf
  obtain hr | ⟨a, hr, hga⟩ := Except.bind_eq_error_iff.mp hf
  · exact h f hr
  · exact hg a hr f hga

/-- What points into a child points into the tree. -/
theorem PointsInto.of_mem (h : PointsInto u r) (hu : u ∈ t.children) : PointsInto t r := by
  intro f hf
  obtain ⟨v, hv, hspan⟩ := h f hf
  exact ⟨v, Tree.subtrees_subset hu hv, hspan⟩

variable [Tagged κ]

theorem pointsInto_withinChildren {body : Tree κ → List (Tree κ) → Except Flaw α}
    (h : ∀ u us, t.children = u :: us → PointsInto t (body u us)) :
    PointsInto t (withinChildren t body) := by
  unfold withinChildren
  split
  · exact pointsInto_flaw t.mem_subtrees_self _
  · rename_i u us hchildren
    exact h u us hchildren

theorem pointsInto_next (part : Part) (hu : u ∈ t.subtrees) (later : List (Tree κ)) :
    PointsInto t (next part u later) := by
  cases later with
  | nil => exact pointsInto_flaw hu _
  | cons v vs => exact pointsInto_ok t _

theorem pointsInto_nextTo (test : Option NodeKind → Bool) (fault : Fault) (hu : u ∈ t.subtrees)
    (hlater : ∀ v ∈ later, v ∈ t.subtrees) : PointsInto t (nextTo test fault u later) := by
  cases later with
  | nil => exact pointsInto_flaw hu _
  | cons v vs =>
    rw [nextTo]
    split
    · exact pointsInto_ok t _
    · exact pointsInto_flaw (hlater v (.head _)) _

/-! ## Expressions -/

theorem pointsInto_operator (source : List Char) (t : Tree κ) :
    PointsInto t (operator source t) := by
  unfold operator
  split
  · split
    · exact pointsInto_ok t _
    · exact pointsInto_flaw t.mem_subtrees_self _
  · exact pointsInto_flaw t.mem_subtrees_self _

omit [Tagged κ] in
theorem pointsInto_literal (t : Tree κ) (s : String) : PointsInto t (literal t s) := by
  unfold literal
  split
  · exact pointsInto_ok t _
  · exact pointsInto_flaw t.mem_subtrees_self _

theorem pointsInto_signedText (hu : u ∈ t.children) (hlater : ∀ v ∈ later, v ∈ t.children) :
    PointsInto t (signedText source u later) := by
  unfold signedText
  split
  · refine (pointsInto_next _ (Tree.mem_subtrees_of_mem hu) later).bind fun x hx => ?_
    have hnumber : x.1 ∈ t.children := hlater x.1 (by simp [next_eq_ok hx])
    dsimp only
    split
    · exact pointsInto_ok t _
    · exact pointsInto_flaw (Tree.mem_subtrees_of_mem hnumber) _
  · exact pointsInto_flaw (Tree.mem_subtrees_of_mem hu) _

theorem pointsInto_binary {operand : Tree κ → Except Flaw Expr}
    (hoperand : ∀ u, PointsInto u (operand u)) : PointsInto t (binary source operand t) := by
  refine pointsInto_withinChildren fun left later hchildren => ?_
  have hleft : left ∈ t.children := by simp [hchildren]
  refine ((hoperand left).of_mem hleft).bind fun l _ => ?_
  refine (pointsInto_next _ (Tree.mem_subtrees_of_mem hleft) later).bind fun x hx => ?_
  have hop : x.1 ∈ t.children := by simp [hchildren, next_eq_ok hx]
  refine ((pointsInto_operator source x.1).of_mem hop).bind fun o _ => ?_
  refine (pointsInto_next _ (Tree.mem_subtrees_of_mem hop) x.2).bind fun y hy => ?_
  have hright : y.1 ∈ t.children := by simp [hchildren, next_eq_ok hx, next_eq_ok hy]
  exact ((hoperand y.1).of_mem hright).bind fun r _ => pointsInto_ok t _

theorem pointsInto_withinArguments {name : String} (hu : u ∈ t.children)
    (hlater : ∀ v ∈ later, v ∈ t.children) {body : Tree κ → List (Tree κ) → Except Flaw α}
    (hbody : ∀ args opening vs, args.children = opening :: vs →
      PointsInto args (body opening vs)) : PointsInto t (withinArguments name u later body) := by
  refine (pointsInto_next _ (Tree.mem_subtrees_of_mem hu) later).bind fun x hx => ?_
  have hargs : x.1 ∈ t.children := hlater x.1 (by simp [next_eq_ok hx])
  dsimp only
  split
  · refine (pointsInto_withinChildren fun opening vs hchildren => ?_).of_mem hargs
    split
    · exact hbody x.1 opening vs hchildren
    · exact pointsInto_flaw (Tree.mem_subtrees_of_mem (by simp [hchildren])) _
  · exact pointsInto_flaw (Tree.mem_subtrees_of_mem hargs) _

section Arguments
variable {operand : Tree κ → Except Flaw Expr} {fault : Fault}

/-- A tree that must pass a test, and what is read after it. -/
theorem pointsInto_nextTo_bind {test : Option NodeKind → Bool} (hu : u ∈ t.children)
    (hlater : ∀ v ∈ later, v ∈ t.children) {g : Tree κ × List (Tree κ) → Except Flaw α}
    (hg : ∀ v vs, v ∈ t.children → (∀ w ∈ vs, w ∈ t.children) → PointsInto t (g (v, vs))) :
    PointsInto t (nextTo test fault u later >>= g) := by
  have hsub : ∀ v ∈ later, v ∈ t.subtrees := fun v hv => Tree.mem_subtrees_of_mem (hlater v hv)
  refine (pointsInto_nextTo test fault (Tree.mem_subtrees_of_mem hu) hsub).bind fun x hx => ?_
  obtain ⟨rfl, -⟩ := nextTo_eq_ok hx
  rw [List.forall_mem_cons] at hlater
  exact hg x.1 x.2 hlater.1 hlater.2

theorem pointsInto_call (hoperand : ∀ u, PointsInto u (operand u)) :
    PointsInto t (call source operand t) := by
  refine pointsInto_withinChildren fun callee later hchildren => ?_
  have hcallee : callee ∈ t.children := by simp [hchildren]
  have hlater : ∀ v ∈ later, v ∈ t.children := fun v hv => by simp [hchildren, hv]
  dsimp only
  split
  · refine pointsInto_withinArguments hcallee hlater fun args opening vs hargs => ?_
    have hopening : opening ∈ args.children := by simp [hargs]
    have hvs : ∀ v ∈ vs, v ∈ args.children := fun v hv => by simp [hargs, hv]
    refine pointsInto_nextTo_bind hopening hvs fun arg vs harg hvs => ?_
    refine ((hoperand arg).of_mem harg).bind fun e _ => ?_
    exact pointsInto_nextTo_bind harg hvs fun _ _ _ _ => pointsInto_ok args _
  · refine pointsInto_withinArguments hcallee hlater fun args opening vs hargs => ?_
    have hopening : opening ∈ args.children := by simp [hargs]
    have hvs : ∀ v ∈ vs, v ∈ args.children := fun v hv => by simp [hargs, hv]
    refine pointsInto_nextTo_bind hopening hvs fun arg₁ vs harg₁ hvs => ?_
    refine ((hoperand arg₁).of_mem harg₁).bind fun e₁ _ => ?_
    refine pointsInto_nextTo_bind harg₁ hvs fun comma vs hcomma hvs => ?_
    refine pointsInto_nextTo_bind hcomma hvs fun arg₂ vs harg₂ hvs => ?_
    refine ((hoperand arg₂).of_mem harg₂).bind fun e₂ _ => ?_
    exact pointsInto_nextTo_bind harg₂ hvs fun _ _ _ _ => pointsInto_ok args _
  · exact pointsInto_flaw (Tree.mem_subtrees_of_mem hcallee) _

end Arguments

/-- **The flaw of an expression stands at a node of it**, however many levels are left. -/
theorem pointsInto_exprWithin (source : List Char) (levels : Nat) (t : Tree κ) :
    PointsInto t (exprWithin source levels t) := by
  induction levels generalizing t with
  | zero => exact pointsInto_flaw t.mem_subtrees_self _
  | succ levels ih =>
    unfold exprWithin
    split
    · exact pointsInto_literal t _
    · refine (pointsInto_withinChildren fun sign later hchildren => ?_).bind
        fun s _ => pointsInto_literal t s
      exact pointsInto_signedText (by simp [hchildren]) fun v hv => by simp [hchildren, hv]
    · exact pointsInto_ok t _
    · exact pointsInto_binary ih
    · exact pointsInto_call ih
    · exact pointsInto_flaw t.mem_subtrees_self _

/-! ## Statements -/

/-- **The flaw of a statement stands at a node of it.** -/
theorem pointsInto_stmt (source : List Char) (t : Tree κ) : PointsInto t (stmt source t) := by
  unfold stmt
  split
  · refine pointsInto_withinChildren fun target later hchildren => ?_
    have htarget : target ∈ t.children := by simp [hchildren]
    split
    · refine (pointsInto_next _ (Tree.mem_subtrees_of_mem htarget) later).bind fun x hx => ?_
      have hequals : x.1 ∈ t.children := by simp [hchildren, next_eq_ok hx]
      refine (pointsInto_next _ (Tree.mem_subtrees_of_mem hequals) x.2).bind fun y hy => ?_
      have hvalue : y.1 ∈ t.children := by simp [hchildren, next_eq_ok hx, next_eq_ok hy]
      refine ((pointsInto_exprWithin source maxNesting y.1).of_mem hvalue).bind fun e _ => ?_
      exact pointsInto_ok t _
    · exact pointsInto_flaw (Tree.mem_subtrees_of_mem htarget) _
  · refine pointsInto_withinChildren fun value later hchildren => ?_
    have hvalue : value ∈ t.children := by simp [hchildren]
    refine ((pointsInto_exprWithin source maxNesting value).of_mem hvalue).bind fun e _ => ?_
    exact pointsInto_ok t _
  · exact pointsInto_flaw t.mem_subtrees_self _

/-- **A flaw of statements that are read one after another stands at a node of one of them.** -/
theorem exists_subtree_of_mapM_error {source : List Char} {ts : List (Tree κ)} {f : Flaw}
    (h : ts.mapM (stmt source) = .error f) : ∃ u ∈ Tree.forestSubtrees ts, u.span = f.span := by
  induction ts with
  | nil => cases h
  | cons t ts ih =>
    rw [List.mapM_cons] at h
    obtain ht | ⟨s, -, h⟩ := Except.bind_eq_error_iff.mp h
    · obtain ⟨u, hu, hspan⟩ := pointsInto_stmt source t f ht
      exact ⟨u, List.mem_append_left _ hu, hspan⟩
    obtain hts | ⟨ss, -, h⟩ := Except.bind_eq_error_iff.mp h
    · obtain ⟨u, hu, hspan⟩ := ih hts
      exact ⟨u, List.mem_append_right _ hu, hspan⟩
    · cases h

/-- **The flaw of a program stands at a node of it.** -/
theorem pointsInto_program (source : List Char) (t : Tree κ) :
    PointsInto t (program source t) := by
  rw [program]
  split
  · intro f hf
    obtain ⟨u, hu, hspan⟩ := exists_subtree_of_mapM_error hf
    obtain ⟨v, hv, hu⟩ := Tree.mem_forestSubtrees.mp hu
    exact ⟨u, Tree.subtrees_subset hv hu, hspan⟩
  · exact pointsInto_flaw t.mem_subtrees_self _

end Reading

/-! ## Reports -/

/-- **A span cuts a text out of the script**, between what stands before and after it. -/
def Span.CutsOut (source : List Char) (s : Span) (before text after : List Char) : Prop :=
  source = before ++ text ++ after ∧ Text.byteSize before = s.start ∧
    s.start + Text.byteSize text = s.stop

theorem Span.CutsOut.text_eq {source before text after : List Char} {s : Span}
    (h : s.CutsOut source before text after) : s.text source = String.ofList text := by
  have hslice := Text.slice?_eq_some_iff.mpr ⟨before, after, h⟩
  rw [Span.text, hslice]
  rfl

/-- **A report stands at a span.**  It shows the text that the span cuts out of the script, or
none if the span cuts out nothing, and the place of the start of the span. -/
structure ParseError.StandsAt (source : List Char) (s : Span) (e : ParseError) : Prop where
  span_eq : e.span = s
  text_eq : ∀ before text after, s.CutsOut source before text after → e.text = String.ofList text
  text_eq_empty : (¬∃ before text after, s.CutsOut source before text after) → e.text = ""
  place_eq : e.place = Text.placeAt source s.start

theorem Fault.standsAt_report (fault : Fault) (source : List Char) (s : Span) :
    (fault.report source s).StandsAt source s where
  span_eq := rfl
  text_eq _ _ _ hcuts := hcuts.text_eq
  text_eq_empty hnone := by
    change String.ofList ((Text.slice? source s.start s.stop).getD []) = _
    cases hslice : Text.slice? source s.start s.stop with
    | none => rfl
    | some text =>
      obtain ⟨before, after, hcuts⟩ := Text.slice?_eq_some_iff.mp hslice
      exact absurd ⟨before, text, after, hcuts⟩ hnone
  place_eq := rfl

/-- The report of a flaw stands at the node that the flaw points to. -/
theorem Reading.PointsInto.exists_standsAt {κ α : Type} {source : List Char} {t : Tree κ}
    {r : Except Flaw α} (h : PointsInto t r) {e : ParseError}
    (he : r.mapError (·.report source) = .error e) :
    ∃ u ∈ t.subtrees, e.StandsAt source u.span := by
  obtain ⟨f, hf, rfl⟩ := Except.mapError_eq_error_iff.mp he
  obtain ⟨u, hu, hspan⟩ := h f hf
  refine ⟨u, hu, ?_⟩
  rw [hspan]
  exact f.fault.standsAt_report source f.span

namespace Walk
variable {γ κ : Type} [TreeCursor γ] [Tagged κ] {R : γ → Location κ → Prop}

/-- **What a walk reports stands within the node it began on**: at the span of the node or of one
below it, with the text and the place of that span.  This holds for each of the four entrances,
with any cursor that conforms to plain trees, and whatever the tags and the spans of the tree. -/
theorem exists_standsAt_of_error (hR : Conforms R) (source : List Char) {c : γ} {l : Location κ}
    (hc : R c l) {e : ParseError}
    (h : outcome (program source) c = .error e ∨ outcome (stmt source) c = .error e ∨
      outcome (expr source) c = .error e ∨ outcome (operator source) c = .error e) :
    ∃ u ∈ l.focus.subtrees, e.StandsAt source u.span := by
  rcases h with h | h | h | h
  · rw [outcome_program hR hc] at h
    exact (Reading.pointsInto_program source l.focus).exists_standsAt h
  · rw [(ends_stmt hR l).outcome_eq hc] at h
    exact (Reading.pointsInto_stmt source l.focus).exists_standsAt h
  · rw [expr, (ends_exprWithin hR maxNesting l).outcome_eq hc] at h
    exact (Reading.pointsInto_exprWithin source maxNesting l.focus).exists_standsAt h
  · rw [(ends_operator hR l).outcome_eq hc] at h
    exact (Reading.pointsInto_operator source l.focus).exists_standsAt h

/-- A signed number that has a span inside a character, and so no text: the report stands at the
sign and the number together, of which the span is reversed and begins past the end. -/
theorem exists_standsAt_of_error_reversed :
    let source := "é-1".toList
    let l : Location String :=
      ⟨.node "UnaryExpression" ⟨9, 3⟩ [.leaf "ArithOp" ⟨2, 3⟩, .leaf "Number" ⟨1, 4⟩],
        [⟨"Block", ⟨0, 4⟩, [], [.leaf "Comment" ⟨0, 99⟩]⟩]⟩
    let e : ParseError := ⟨.invalidLiteral, ⟨9, 3⟩, ⟨1, 4⟩, "", "could not parse '-' as i32"⟩
    outcome (expr source) l = .error e ∧ ∃ u ∈ l.focus.subtrees, e.StandsAt source u.span := by
  intro source l e
  have hexpr : outcome (expr source) l = .error e := by decide +kernel
  exact ⟨hexpr,
    exists_standsAt_of_error conforms_location source (Eq.refl l) (.inr (.inr (.inl hexpr)))⟩

end Walk

end ArithWat
