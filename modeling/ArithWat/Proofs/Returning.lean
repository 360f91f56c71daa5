import ArithWat.Proofs.Storage

/-!
# A walk ends where it began

A cursor state that conforms to a location conforms to no other location of the same tree
(`Conforms.eq_of_rel`): going up, it meets the root after as many moves, and going right, the
last sibling.  So it makes sense to speak of *the* node a cursor stands on (`StandsOn`).

Each of the four entrances to a tree leaves the cursor on the node it was entered on,
whatever the tree looks like and whatever the walk comes to (`Walk.standsOn_finish`).
-/

theorem Option.Rel.of_common {α β : Type} {R : α → β → Prop} {o : Option α} {x y : Option β}
    (hx : Option.Rel R o x) (hy : Option.Rel R o y) :
    (x = Option.none ∧ y = Option.none) ∨
      ∃ c a b, x = Option.some a ∧ y = Option.some b ∧ R c a ∧ R c b := by
  cases hx with
  | none =>
    cases hy
    exact .inl ⟨rfl, rfl⟩
  | some ha =>
    cases hy with
    | some hb => exact .inr ⟨_, _, _, rfl, rfl, ha, hb⟩

namespace ArithWat
variable {γ κ : Type}

/-! ## Where a location stands in its tree -/

namespace Location

/-- The whole tree around a location. -/
def whole (l : Location κ) : Tree κ := around l.above l.focus

theorem later_of_nextSibling?_none {l : Location κ} (h : l.nextSibling? = none) :
    l.later = [] := by
  rcases hlater : l.later with _ | ⟨t, ts⟩
  · rfl
  · obtain ⟨m, hm, -⟩ := nextSibling?_of_later_cons hlater
    rw [hm] at h
    cases h

theorem later_of_nextSibling? {l m : Location κ} (h : l.nextSibling? = some m) :
    l.later = m.focus :: m.later := by
  rcases hlater : l.later with _ | ⟨t, ts⟩
  · rw [nextSibling?_of_later_nil hlater] at h
    cases h
  · obtain ⟨m', hm', rfl, rfl, -⟩ := nextSibling?_of_later_cons hlater
    rw [hm'] at h
    cases h
    rfl

theorem above_of_parent?_none {l : Location κ} (h : l.parent? = none) : l.above = [] := by
  obtain ⟨focus, above⟩ := l
  rcases above with _ | ⟨c, above⟩
  · rfl
  · cases h

theorem length_above_of_parent? {l m : Location κ} (h : l.parent? = some m) :
    l.above.length = m.above.length + 1 := by
  obtain ⟨focus, above⟩ := l
  rcases above with _ | ⟨c, above⟩
  · cases h
  · cases h
    rfl

/-- Children of one node with as many siblings to their right are the same child. -/
theorem eq_of_parent?_of_later {l l' m : Location κ} (h : l.parent? = some m)
    (h' : l'.parent? = some m) (hlater : l.later.length = l'.later.length) : l = l' := by
  obtain ⟨focus, above⟩ := l
  obtain ⟨focus', above'⟩ := l'
  rcases above with _ | ⟨⟨k, s, before, later⟩, above⟩
  · cases h
  rcases above' with _ | ⟨⟨k', s', before', later'⟩, above'⟩
  · cases h'
  cases h
  have hm := Option.some.inj h'
  simp only [mk.injEq, Tree.node.injEq] at hm
  obtain ⟨⟨rfl, rfl, hchildren⟩, rfl⟩ := hm
  have hlength : later'.length = later.length := hlater.symm
  -- The lists of children agree from the right, so they part at the same child.
  obtain ⟨hbefore, hfocus⟩ :=
    List.append_inj' hchildren (by rw [List.length_cons, List.length_cons, hlength])
  obtain rfl := List.reverse_inj.mp hbefore
  obtain ⟨rfl, rfl⟩ := List.cons.inj hfocus
  rfl

end Location

/-! ## The node under a cursor -/

namespace Conforms
variable [TreeCursor γ] [Tagged κ] {R : γ → Location κ → Prop} (hR : Conforms R)
include hR

/-- A cursor knows how many siblings are to its right. -/
theorem length_later_eq {c : γ} {l l' : Location κ} (h : R c l) (h' : R c l') :
    l.later.length = l'.later.length := by
  rcases (hR.nextSibling? h).of_common (hR.nextSibling? h') with
    ⟨hm, hm'⟩ | ⟨d, m, m', hm, hm', hdm, hdm'⟩
  · rw [Location.later_of_nextSibling?_none hm, Location.later_of_nextSibling?_none hm']
  · rw [Location.later_of_nextSibling? hm, Location.later_of_nextSibling? hm', List.length_cons,
      List.length_cons, length_later_eq hdm hdm']
termination_by l.later.length
decreasing_by
  rw [Location.later_of_nextSibling? hm]
  exact Nat.lt_succ_self _

/-- **A cursor stands on one node of a tree.** -/
theorem eq_of_rel {c : γ} {l l' : Location κ} (h : R c l) (h' : R c l')
    (hwhole : l.whole = l'.whole) : l = l' := by
  rcases (hR.parent? h).of_common (hR.parent? h') with
    ⟨hm, hm'⟩ | ⟨d, m, m', hm, hm', hdm, hdm'⟩
  · obtain ⟨focus, above⟩ := l
    obtain ⟨focus', above'⟩ := l'
    obtain rfl : above = [] := Location.above_of_parent?_none hm
    obtain rfl : above' = [] := Location.above_of_parent?_none hm'
    exact congrArg (Location.mk · []) hwhole
  · -- The parents are the same node, and as many siblings follow.
    have hwhole' : m.whole = m'.whole :=
      (Location.around_of_parent? hm).trans (hwhole.trans (Location.around_of_parent? hm').symm)
    obtain rfl := eq_of_rel hdm hdm' hwhole'
    exact Location.eq_of_parent?_of_later hm hm' (hR.length_later_eq h h')
termination_by l.above.length
decreasing_by
  rw [Location.length_above_of_parent? hm]
  exact Nat.lt_succ_self _

end Conforms

/-- **The cursor stands on this location** of a tree, and on no other location of it. -/
def StandsOn (R : γ → Location κ → Prop) (c : γ) (l : Location κ) : Prop :=
  R c l ∧ ∀ l', R c l' → l'.whole = l.whole → l' = l

theorem Conforms.standsOn [TreeCursor γ] [Tagged κ] {R : γ → Location κ → Prop}
    (hR : Conforms R) {c : γ} {l : Location κ} (hc : R c l) : StandsOn R c l :=
  ⟨hc, fun _ h hwhole => hR.eq_of_rel h hc hwhole⟩

/-! ## Walks -/

namespace Walk
variable {α : Type} {R : γ → Location κ → Prop} {source : List Char} {l : Location κ}

/-- Where the cursor stands after a walk, whether it succeeds or fails. -/
def finish (w : Walk γ α) (c : γ) : γ :=
  match w c with
  | .ok _ c' => c'
  | .error _ c' => c'

/-- A walk that comes back leaves the cursor where it was. -/
theorem Ends.rel_finish {w : Walk γ α} {r : Except Flaw α} (hw : Ends R source (· = l) w l r)
    {c : γ} (hc : R c l) : R (finish w c) l := by
  obtain ⟨c', l', hc', rfl, hend⟩ := hw c hc
  rw [finish, hend]
  rcases r with f | a
  · exact hc'
  · exact hc'

/-- **A walk ends on the node it began on**, for each of the four entrances.  The cursor may
be any that conforms to plain trees; what the nodes are tagged with, which bytes they span
and whether the walk succeeds do not matter. -/
theorem standsOn_finish [TreeCursor γ] [Tagged κ] (hR : Conforms R) (source : List Char) {c : γ}
    (hc : R c l) :
    StandsOn R (finish (program source) c) l ∧ StandsOn R (finish (stmt source) c) l ∧
      StandsOn R (finish (expr source) c) l ∧ StandsOn R (finish (operator source) c) l := by
  refine ⟨hR.standsOn ?_, hR.standsOn ?_, hR.standsOn ?_, hR.standsOn ?_⟩
  · exact (ends_program hR l).rel_finish hc
  · exact (ends_stmt hR l).rel_finish hc
  · exact (ends_exprWithin hR maxNesting l).rel_finish hc
  · exact (ends_operator hR l).rel_finish hc

/-- The second child of a root that no grammar knows: a call of `min` with something other
than a comma after its first argument, and spans that are reversed or past the end. -/
theorem standsOn_finish_foreign :
    let source := "min(1 2)".toList
    let args : Tree String :=
      .node "ArgList" ⟨9, 3⟩ [.leaf "(" ⟨3, 4⟩, .leaf "Number" ⟨4, 5⟩, .leaf "Comment" ⟨5, 7⟩]
    let l : Location String :=
      ⟨.node "CallExpression" ⟨0, 99⟩ [.leaf "VariableName" ⟨0, 3⟩, args],
        [⟨"Block", ⟨0, 8⟩, [.leaf "x" ⟨0, 0⟩], [.leaf "y" ⟨8, 8⟩]⟩]⟩
    outcome (expr source) l = .error
      ⟨.invalidArguments, ⟨5, 7⟩, ⟨1, 6⟩, " 2", "expected ',' between arguments to min"⟩ ∧
    finish (program source) l = l ∧ finish (stmt source) l = l ∧ finish (expr source) l = l ∧
      finish (operator source) l = l := by
  intro source args l
  obtain ⟨hprogram, hstmt, hexpr, hoperator⟩ :=
    standsOn_finish conforms_location source (c := l) (l := l) rfl
  exact ⟨by decide +kernel, hprogram.1, hstmt.1, hexpr.1, hoperator.1⟩

end Walk

end ArithWat
