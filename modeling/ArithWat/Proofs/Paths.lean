import ArithWat.Proofs.Returning

/-!
# A table is walked like its tree

The simplest cursor on a plain tree is a path: for each node on the way from the root, its
position among its siblings (`Tree.Path`).  A table of nodes knows no paths; it finds a sibling
through links to the parent and back, which were set when the parent was added.

A *tour* makes any moves one after the other, and what is seen of it is whether each move could
be made and the node under the cursor after it (`Walk.tour`).  Cursors that conform to the same
location see the same on every tour (`Conforms.exists_tour`).  Paths conform to the locations of
their tree (`Tree.Path.conforms_at`) and so do the cursors of its table, hence nobody can tell
them apart (`NodeTable.exists_tour_eq_path`).
-/

namespace ArithWat

/-! ## Tours -/

/-- The moves of a cursor. -/
inductive Move where
  | firstChild
  | nextSibling
  | parent
  deriving DecidableEq, Repr

/-- Where a move leads, `none` if it cannot be made. -/
def Move.target? {γ : Type} [TreeCursor γ] : Move → γ → Option γ
  | firstChild => TreeCursor.firstChild?
  | nextSibling => TreeCursor.nextSibling?
  | parent => TreeCursor.parent?

/-- What is seen of a move: whether it was made, and the node under the cursor after it. -/
structure Sight where
  moved : Bool
  tag : String
  span : Span
  deriving DecidableEq, Repr

namespace Walk
variable {γ : Type} [TreeCursor γ]

/-- **A tour**: some moves one after the other, and what is seen of each.  A move that cannot
be made leaves the cursor where it is. -/
def tour : List Move → Walk γ (List Sight)
  | [] => pure []
  | m :: ms => do
    let moved ← move m.target?
    let c ← get
    let seen ← tour ms
    pure (⟨moved, TreeCursor.tag c, TreeCursor.span c⟩ :: seen)

omit [TreeCursor γ] in
theorem move_of_some {step : γ → Option γ} {c c' : γ} (h : step c = some c') :
    move step c = .ok true c' := by
  rw [move, h]

omit [TreeCursor γ] in
theorem move_of_none {step : γ → Option γ} {c : γ} (h : step c = none) :
    move step c = .ok false c := by
  rw [move, h]

omit [TreeCursor γ] in
theorem move_eq_ok {step : γ → Option γ} {c c' : γ} {moved : Bool}
    (h : move step c = .ok moved c') :
    (moved = true ∧ step c = some c') ∨ (moved = false ∧ step c = none ∧ c' = c) := by
  unfold move at h
  split at h
  · cases h
    exact .inl ⟨rfl, ‹_›⟩
  · cases h
    exact .inr ⟨rfl, ‹_›, rfl⟩

omit [TreeCursor γ] in
theorem eq_some_of_move {step : γ → Option γ} {c c' : γ} (h : move step c = .ok true c') :
    step c = some c' := by
  rcases move_eq_ok h with ⟨-, hstep⟩ | ⟨hmoved, -⟩
  · exact hstep
  · cases hmoved

theorem tour_cons {m : Move} {ms : List Move} {c c' d : γ} {moved : Bool} {seen : List Sight}
    (hmove : move m.target? c = .ok moved c') (htour : tour ms c' = .ok seen d) :
    tour (m :: ms) c = .ok (⟨moved, TreeCursor.tag c', TreeCursor.span c'⟩ :: seen) d := by
  change EStateM.bind (move m.target?) _ c = _
  rw [EStateM.bind, hmove]
  change EStateM.bind (tour ms) _ c' = _
  rw [EStateM.bind, htour]
  rfl

end Walk

open Walk

/-! ## Conforming cursors see the same -/

namespace Conforms
variable {γ κ : Type} [TreeCursor γ] [Tagged κ] {R : γ → Location κ → Prop} (hR : Conforms R)
include hR

/-- A move is made by a cursor exactly if it is made on the location, and they stay together. -/
theorem exists_move {c : γ} {l : Location κ} (hc : R c l) (m : Move) :
    ∃ moved c' l', move m.target? c = .ok moved c' ∧ move m.target? l = .ok moved l' ∧ R c' l' := by
  have hrel : Option.Rel R (m.target? c) (m.target? l) := by
    cases m with
    | firstChild => exact hR.firstChild? hc
    | nextSibling => exact hR.nextSibling? hc
    | parent => exact hR.parent? hc
  cases hl : m.target? l with
  | none =>
    rw [hl] at hrel
    exact ⟨false, c, l, move_of_none hrel.eq_none, move_of_none hl, hc⟩
  | some l' =>
    rw [hl] at hrel
    obtain ⟨c', hc', hR'⟩ := hrel.exists_eq_some
    exact ⟨true, c', l', move_of_some hc', move_of_some hl, hR'⟩

/-- **A cursor sees on a tour what is seen on the location**, and they stay together. -/
theorem exists_tour {c : γ} {l : Location κ} (hc : R c l) (ms : List Move) :
    ∃ seen c' l', tour ms c = .ok seen c' ∧ tour ms l = .ok seen l' ∧ R c' l' := by
  induction ms generalizing c l with
  | nil => exact ⟨[], c, l, rfl, rfl, hc⟩
  | cons m ms ih =>
    obtain ⟨moved, c', l', hmove, hmove', hR'⟩ := hR.exists_move hc m
    obtain ⟨seen, d, l'', htour, htour', hR''⟩ := ih hR'
    refine ⟨_, d, l'', tour_cons hmove htour, ?_, hR''⟩
    rw [tour_cons hmove' htour', hR.tag hR', hR.span hR']
    rfl

end Conforms

namespace Location
variable {κ : Type} [Tagged κ]

/-- Moves to siblings, made or not, stay below the same parent. -/
theorem parent?_of_tour_nextSibling {n : Nat} {l m : Location κ} {seen : List Sight}
    (h : tour (List.replicate n .nextSibling) l = .ok seen m) : m.parent? = l.parent? := by
  induction n generalizing l seen with
  | zero =>
    cases h
    rfl
  | succ n ih =>
    obtain ⟨moved, l', _, hmove, -, -⟩ := conforms_location.exists_move (Eq.refl l) .nextSibling
    obtain ⟨seen', m', _, htour, -, -⟩ :=
      conforms_location.exists_tour (Eq.refl l') (List.replicate n .nextSibling)
    rw [List.replicate_succ, tour_cons hmove htour] at h
    cases h
    rw [ih htour]
    rcases move_eq_ok hmove with ⟨-, hnext⟩ | ⟨-, -, rfl⟩
    · exact parent?_of_nextSibling? hnext
    · rfl

end Location

/-! ## Paths -/

namespace Tree
variable {κ : Type}

/-- The subtree at the end of some steps down from the root, the last of which is given first.
Each step says which child to go to. -/
def subtreeAt? (t : Tree κ) : List Nat → Option (Tree κ)
  | [] => some t
  | i :: steps => (t.subtreeAt? steps).bind fun u => u.children[i]?

/-- **A path into a tree**: steps that do not leave it, the last one first. -/
structure Path (t : Tree κ) where
  steps : List Nat
  inside : (t.subtreeAt? steps).isSome = true

namespace Path

/-- The path that stays at the root. -/
def root (t : Tree κ) : Path t := ⟨[], rfl⟩

/-- The path of some steps, if they do not leave the tree. -/
def at? (t : Tree κ) (steps : List Nat) : Option (Path t) :=
  if h : (t.subtreeAt? steps).isSome = true then some ⟨steps, h⟩ else none

variable {t : Tree κ}

/-- The subtree at the end of a path. -/
def node (p : Path t) : Tree κ := (t.subtreeAt? p.steps).get p.inside

/-- One step further down, to the first child. -/
def firstChild? (p : Path t) : Option (Path t) := at? t (0 :: p.steps)

/-- The last step goes to the next child. -/
def nextSibling? (p : Path t) : Option (Path t) :=
  match p.steps with
  | [] => none
  | i :: steps => at? t ((i + 1) :: steps)

/-- Without the last step. -/
def parent? (p : Path t) : Option (Path t) :=
  match p.steps with
  | [] => none
  | _ :: steps => at? t steps

end Path

/-- A path as a cursor. -/
instance [Tagged κ] {t : Tree κ} : TreeCursor (Path t) where
  tag p := Tagged.tag p.node.kind
  span p := p.node.span
  childCount p := p.node.children.length
  firstChild? := Path.firstChild?
  nextSibling? := Path.nextSibling?
  parent? := Path.parent?

end Tree

/-- The steps from the root to the focus, the last one first. -/
def Location.steps {κ : Type} (l : Location κ) : List Nat := l.above.map (·.before.length)

namespace Tree.Path
variable {κ : Type} {t : Tree κ}

/-- The child of a node that leads on is found behind those before it. -/
theorem getElem?_fill (c : Crumb κ) (u : Tree κ) (i : Nat) :
    (c.fill u).children[c.before.length + i]? = (u :: c.later)[i]? := by
  have hlength : c.before.length = c.before.reverse.length := List.length_reverse.symm
  change (c.before.reverse ++ u :: c.later)[c.before.length + i]? = _
  rw [hlength, List.getElem?_append_right (Nat.le_add_right _ i), Nat.add_sub_cancel_left]

/-- **The steps to a location lead to its focus.** -/
theorem subtreeAt?_steps (above : List (Crumb κ)) (u : Tree κ) :
    (Location.around above u).subtreeAt? (Location.steps ⟨u, above⟩) = some u := by
  induction above generalizing u with
  | nil => rfl
  | cons c above ih =>
    change (Option.bind ((Location.around above (c.fill u)).subtreeAt?
      (Location.steps ⟨c.fill u, above⟩)) _) = some u
    rw [ih, Option.bind_some]
    exact getElem?_fill c u 0

/-- A path leads to a location of the tree. -/
def At (p : Path t) (l : Location κ) : Prop := p.steps = l.steps ∧ l.whole = t

theorem subtreeAt?_of_whole {l : Location κ} (hl : l.whole = t) :
    t.subtreeAt? l.steps = some l.focus := by
  rw [← hl]
  exact subtreeAt?_steps l.above l.focus

theorem node_of_at {p : Path t} {l : Location κ} (h : At p l) : p.node = l.focus := by
  have hfocus : t.subtreeAt? p.steps = some l.focus := by
    rw [h.1]
    exact subtreeAt?_of_whole h.2
  exact Option.get_of_eq_some p.inside hfocus

theorem at_root : At (root t) t.top := ⟨rfl, rfl⟩

/-- The steps to a location are a path to it. -/
theorem at?_steps {l : Location κ} (hl : l.whole = t) : Option.Rel At (at? t l.steps) (some l) := by
  have hinside : (t.subtreeAt? l.steps).isSome = true := by
    rw [subtreeAt?_of_whole hl]
    rfl
  rw [at?, dif_pos hinside]
  exact .some ⟨rfl, hl⟩

theorem at?_of_none {steps : List Nat} (h : t.subtreeAt? steps = none) : at? t steps = none := by
  rw [at?, dif_neg]
  rw [h]
  exact Bool.false_ne_true

theorem firstChild?_rel {p : Path t} {l : Location κ} (h : At p l) :
    Option.Rel At p.firstChild? l.firstChild? := by
  have hfocus := subtreeAt?_of_whole h.2
  obtain ⟨⟨k, s, us⟩, above⟩ := l
  rw [firstChild?, h.1]
  cases us with
  | nil =>
    have hnone : t.subtreeAt? (0 :: Location.steps ⟨.node k s [], above⟩) = none := by
      rw [subtreeAt?, hfocus]
      rfl
    rw [at?_of_none hnone]
    exact .none
  | cons u us => exact at?_steps (l := ⟨u, ⟨k, s, [], us⟩ :: above⟩) h.2

theorem nextSibling?_rel {p : Path t} {l : Location κ} (h : At p l) :
    Option.Rel At p.nextSibling? l.nextSibling? := by
  obtain ⟨focus, above⟩ := l
  cases above with
  | nil =>
    rw [nextSibling?, h.1]
    exact .none
  | cons c above =>
    obtain ⟨k, s, before, later⟩ := c
    rw [nextSibling?, h.1]
    change Option.Rel At (at? t ((before.length + 1) :: Location.steps ⟨focus, above⟩)) _
    cases later with
    | nil =>
      have hparent : t.subtreeAt? (Location.steps ⟨focus, above⟩) =
          some (Crumb.fill ⟨k, s, before, []⟩ focus) :=
        subtreeAt?_of_whole (l := ⟨Crumb.fill ⟨k, s, before, []⟩ focus, above⟩) h.2
      have hnone : t.subtreeAt? ((before.length + 1) :: Location.steps ⟨focus, above⟩) = none := by
        rw [subtreeAt?, hparent, Option.bind_some]
        exact getElem?_fill ⟨k, s, before, []⟩ focus 1
      rw [at?_of_none hnone]
      exact .none
    | cons u us =>
      have hwhole : Location.whole ⟨u, ⟨k, s, focus :: before, us⟩ :: above⟩ = t := by
        rw [← h.2]
        simp [Location.whole, Location.around, Crumb.fill]
      exact at?_steps hwhole

theorem parent?_rel {p : Path t} {l : Location κ} (h : At p l) :
    Option.Rel At p.parent? l.parent? := by
  obtain ⟨focus, above⟩ := l
  rw [parent?, h.1]
  cases above with
  | nil => exact .none
  | cons c above => exact at?_steps (l := ⟨c.fill focus, above⟩) h.2

/-- **Paths conform to the tree that they lead into.** -/
theorem conforms_at [Tagged κ] : Conforms (At (t := t)) where
  tag h := congrArg (fun u => Tagged.tag u.kind) (node_of_at h)
  span h := congrArg Tree.span (node_of_at h)
  childCount h := congrArg (fun u => u.children.length) (node_of_at h)
  firstChild? := firstChild?_rel
  nextSibling? := nextSibling?_rel
  parent? := parent?_rel

end Tree.Path

/-! ## Tables -/

namespace NodeTable
variable {t : Tree NodeKind}

/-- One cursor of a table stands at a location. -/
theorem eq_of_at {c d : Cursor (ofTree t)} {l : Location NodeKind} (hc : At c l) (hd : At d l) :
    c = d := by
  obtain ⟨row⟩ := c
  obtain ⟨row'⟩ := d
  congr 1
  exact Fin.ext (hc.1.trans hd.1.symm)

/-- A tour from the root of the table and one along paths see the same and end together. -/
theorem exists_tour_top (t : Tree NodeKind) (moves : List Move) :
    ∃ seen c p l, tour moves (ofTree t).top = .ok seen c ∧
      tour moves (Tree.Path.root t) = .ok seen p ∧ At c l ∧ Tree.Path.At p l := by
  obtain ⟨seen, c, l, htable, hplain, hat⟩ := conforms_at.exists_tour (at_top (t := t)) moves
  obtain ⟨seen', p, l', hpath, hplain', hat'⟩ :=
    Tree.Path.conforms_at.exists_tour (Tree.Path.at_root (t := t)) moves
  cases hplain.symm.trans hplain'
  exact ⟨seen, c, p, l, htable, hpath, hat, hat'⟩

/-- The way up undoes the way down to a child, however many siblings are passed in between. -/
theorem move_parent_of_tour {c d e : Cursor (ofTree t)} {l : Location NodeKind} {n : Nat}
    {seen : List Sight} (hc : At c l) (hdown : move TreeCursor.firstChild? c = .ok true d)
    (htour : tour (List.replicate n .nextSibling) d = .ok seen e) :
    move TreeCursor.parent? e = .ok true c := by
  have hchild : c.firstChild? = some d := eq_some_of_move hdown
  have hrel := firstChild?_rel hc
  rw [hchild] at hrel
  cases hfirst : l.firstChild? with
  | none =>
    rw [hfirst] at hrel
    cases hrel
  | some m =>
    rw [hfirst] at hrel
    obtain ⟨d', hd', hm⟩ := hrel.exists_eq_some
    cases hd'
    obtain ⟨seen', e', m', htour', htourm, hat⟩ :=
      conforms_at.exists_tour hm (List.replicate n .nextSibling)
    cases htour.symm.trans htour'
    have hup : m'.parent? = some l :=
      (Location.parent?_of_tour_nextSibling htourm).trans (Location.parent?_of_firstChild? hfirst)
    have hrel' := parent?_rel hat
    rw [hup] at hrel'
    obtain ⟨c', hc', hl⟩ := hrel'.exists_eq_some
    rw [eq_of_at hl hc] at hc'
    exact move_of_some hc'

/-- **A cursor on the table of a tree is a path into the tree.**  On every tour from the root
the two see the same: each move is made by both or by neither, and they show the same tag and
span after it.  Wherever the tour leads, a move that is not made leaves the cursor in place,
and the way up undoes the way down to the first child, whichever siblings are passed in
between.  The root has neither a sibling nor a parent. -/
theorem exists_tour_eq_path (t : Tree NodeKind) :
    (∀ moves, ∃ seen c p, tour moves (ofTree t).top = .ok seen c ∧
      tour moves (Tree.Path.root t) = .ok seen p ∧
      (∀ m d, move (Move.target? m) c = .ok false d → d = c) ∧
      (∀ n d seen' e, move TreeCursor.firstChild? c = .ok true d →
        tour (List.replicate n .nextSibling) d = .ok seen' e →
        move TreeCursor.parent? e = .ok true c)) ∧
    move TreeCursor.nextSibling? (ofTree t).top = .ok false (ofTree t).top ∧
    move TreeCursor.parent? (ofTree t).top = .ok false (ofTree t).top := by
  refine ⟨fun moves => ?_, ?_, ?_⟩
  · obtain ⟨seen, c, p, l, htable, hpath, hat, -⟩ := exists_tour_top t moves
    refine ⟨seen, c, p, htable, hpath, fun m d hmove => ?_, fun _ _ _ _ => move_parent_of_tour hat⟩
    rcases move_eq_ok hmove with ⟨h, -⟩ | ⟨-, -, hd⟩
    · cases h
    · exact hd
  · exact move_of_none (nextSibling?_rel (at_top (t := t))).eq_none
  · exact move_of_none (parent?_rel (at_top (t := t))).eq_none

/-- Two statements, a move up from the root, and a step past the last child of an assignment. -/
theorem exists_tour_eq_path_signed :
    let t : Tree NodeKind :=
      .node .script ⟨0, 9⟩
        [.node .assignStatement ⟨0, 6⟩
          [.leaf .variableName ⟨0, 1⟩, .leaf .assignOp ⟨2, 3⟩,
            .node .unaryExpression ⟨4, 6⟩ [.leaf .arithOp ⟨4, 5⟩, .leaf .number ⟨5, 6⟩]],
         .node .expressionStatement ⟨8, 9⟩ [.leaf .variableName ⟨8, 9⟩]]
    let moves : List Move :=
      [.parent, .firstChild, .firstChild, .nextSibling, .nextSibling, .nextSibling, .parent]
    let seen : List Sight :=
      [⟨false, "Script", ⟨0, 9⟩⟩, ⟨true, "AssignStatement", ⟨0, 6⟩⟩,
       ⟨true, "VariableName", ⟨0, 1⟩⟩, ⟨true, "AssignOp", ⟨2, 3⟩⟩,
       ⟨true, "UnaryExpression", ⟨4, 6⟩⟩, ⟨false, "UnaryExpression", ⟨4, 6⟩⟩,
       ⟨true, "AssignStatement", ⟨0, 6⟩⟩]
    Tree.ofSource "a = -1; a".toList = .ok t ∧
    ∃ c p d, tour moves (ofTree t).top = .ok seen c ∧ tour moves (Tree.Path.root t) = .ok seen p ∧
      move TreeCursor.firstChild? c = .ok true d ∧
      ∀ seen' e, tour (List.replicate 7 .nextSibling) d = .ok seen' e →
        move TreeCursor.parent? e = .ok true c := by
  intro t moves seen
  obtain ⟨htours, -, -⟩ := exists_tour_eq_path t
  obtain ⟨seen₁, c, p, htable, hpath, -, hundo⟩ := htours moves
  have hseen : outcome (tour moves) (ofTree t).top = .ok seen := by decide +kernel
  have hmoved : outcome (move TreeCursor.firstChild?) (finish (tour moves) (ofTree t).top) =
      .ok true := by decide +kernel
  rw [outcome, htable] at hseen
  rw [finish, htable] at hmoved
  cases hseen
  cases hfirst : TreeCursor.firstChild? c with
  | none =>
    rw [outcome, move_of_none hfirst] at hmoved
    cases hmoved
  | some d =>
    have hdown := move_of_some hfirst
    exact ⟨by decide +kernel, c, p, d, htable, hpath, hdown, fun seen' e => hundo 7 d seen' e hdown⟩

end NodeTable

end ArithWat
