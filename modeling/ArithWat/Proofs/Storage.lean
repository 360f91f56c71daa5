import ArithWat.Proofs.Walking
import ArithWat.Script

/-!
# What a table stores

The rows of a tree's table, written down without building the table: those of the
subtrees in order, then that of the root (`Tree.rows`).  So a subtree fills a stretch of
the table, and where the stretch begins says where everything in it stands.

Building the table gives these rows (`NodeTable.toList_rows_ofTree`), and a cursor on it
conforms to the tree (`NodeTable.conforms_at`).  Reading a script by way of its table is
therefore reading its tree (`Script.parseTree_eq`).
-/

theorem List.modify_append_cons {α : Type} (xs ys : List α) (y : α) (f : α → α) :
    (xs ++ y :: ys).modify xs.length f = xs ++ f y :: ys :=
  List.modifyTailIdx_add (List.modifyHead f) 0 xs (y :: ys)

namespace ArithWat

namespace Tree

mutual

/-- The number of nodes of a tree. -/
def size {κ : Type} : Tree κ → Nat
  | node _ _ ts => forestSize ts + 1

/-- The number of nodes of a list of trees. -/
def forestSize {κ : Type} : List (Tree κ) → Nat
  | [] => 0
  | t :: ts => t.size + forestSize ts

end

section
variable {κ : Type}

theorem height_eq (t : Tree κ) : t.height = forestHeight t.children + 1 := by
  cases t
  rfl

@[simp] theorem forestSize_append (ts us : List (Tree κ)) :
    forestSize (ts ++ us) = forestSize ts + forestSize us := by
  induction ts with
  | nil => simp [forestSize]
  | cons t ts ih => simp only [List.cons_append, forestSize, ih, Nat.add_assoc]

@[simp] theorem forestSize_reverse (ts : List (Tree κ)) :
    forestSize ts.reverse = forestSize ts := by
  induction ts with
  | nil => rfl
  | cons t ts ih => simp only [List.reverse_cons, forestSize_append, ih, forestSize]; omega

/-- The rows of the roots of some trees, of which the first begins at `offset`. -/
def roots (offset : Nat) : List (Tree κ) → List Nat
  | [] => []
  | t :: ts => (offset + forestSize t.children) :: roots (offset + t.size) ts

@[simp] theorem length_roots (offset : Nat) (ts : List (Tree κ)) :
    (roots offset ts).length = ts.length := by
  induction ts generalizing offset with
  | nil => rfl
  | cons t ts ih => simp only [roots, List.length_cons, ih]

theorem roots_append (offset : Nat) (ts us : List (Tree κ)) :
    roots offset (ts ++ us) = roots offset ts ++ roots (offset + forestSize ts) us := by
  induction ts generalizing offset with
  | nil => rfl
  | cons t ts ih => simp only [List.cons_append, roots, ih, forestSize, Nat.add_assoc]

end

/-! ## Rows -/

/-- The row of the root of a tree whose rows begin at `offset`. -/
def row (offset : Nat) (parent : Option Nat) (index : Nat) (t : Tree NodeKind) : TableNode where
  kind := t.kind
  span := t.span
  parent
  indexInParent := index
  children := roots offset t.children
  height := t.height

mutual

/-- **The rows of a tree**, of which the first is number `offset`. -/
def rows (offset : Nat) (parent : Option Nat) (index : Nat) : Tree NodeKind → List TableNode
  | node k s ts =>
    forestRows offset (offset + forestSize ts) 0 ts ++ [(node k s ts).row offset parent index]

/-- The rows of the children of row `parent`, from child number `index` on. -/
def forestRows (offset parent index : Nat) : List (Tree NodeKind) → List TableNode
  | [] => []
  | t :: ts =>
    t.rows offset (some parent) index ++ forestRows (offset + t.size) parent (index + 1) ts

end

/-- The rows of trees that no node owns yet. -/
def looseRows (offset : Nat) : List (Tree NodeKind) → List TableNode
  | [] => []
  | t :: ts => t.rows offset none 0 ++ looseRows (offset + t.size) ts

theorem rows_eq (offset : Nat) (parent : Option Nat) (index : Nat) (t : Tree NodeKind) :
    t.rows offset parent index =
      forestRows offset (offset + forestSize t.children) 0 t.children ++
        [t.row offset parent index] := by
  cases t
  rw [rows]
  rfl

mutual

@[simp] theorem length_rows (offset : Nat) (parent : Option Nat) (index : Nat) :
    (t : Tree NodeKind) → (t.rows offset parent index).length = t.size
  | node k s ts => by
    simp only [rows, List.length_append, length_forestRows, List.length_singleton, size]

@[simp] theorem length_forestRows (offset parent index : Nat) :
    (ts : List (Tree NodeKind)) → (forestRows offset parent index ts).length = forestSize ts
  | [] => rfl
  | t :: ts => by
    simp only [forestRows, List.length_append, length_rows, length_forestRows, forestSize]

end

@[simp] theorem length_looseRows (offset : Nat) (ts : List (Tree NodeKind)) :
    (looseRows offset ts).length = forestSize ts := by
  induction ts generalizing offset with
  | nil => rfl
  | cons t ts ih => simp only [looseRows, List.length_append, length_rows, ih, forestSize]

theorem forestRows_append (offset parent index : Nat) (ts us : List (Tree NodeKind)) :
    forestRows offset parent index (ts ++ us) =
      forestRows offset parent index ts ++
        forestRows (offset + forestSize ts) parent (index + ts.length) us := by
  induction ts generalizing offset index with
  | nil => simp [forestRows, forestSize]
  | cons t ts ih =>
    simp only [List.cons_append, forestRows, ih, List.append_assoc, forestSize, List.length_cons,
      Nat.add_assoc, Nat.add_comm 1]

end Tree

/-! ## Building a table -/

namespace TableNode
open ArithWat.Tree

/-- A loose tree becomes a child. -/
theorem modify_below (before later : List TableNode) (parent index : Nat) (t : Tree NodeKind) :
    (before ++ (t.rows before.length none 0 ++ later)).modify
        (before.length + forestSize t.children) (·.below parent index) =
      before ++ (t.rows before.length (some parent) index ++ later) := by
  have hbelow : (t.row before.length none 0).below parent index =
      t.row before.length (some parent) index := rfl
  have hlength : before.length + forestSize t.children =
      (before ++ forestRows before.length (before.length + forestSize t.children) 0
        t.children).length := by
    rw [List.length_append, length_forestRows]
  have hmodify := List.modify_append_cons
    (before ++ forestRows before.length (before.length + forestSize t.children) 0 t.children)
    later (t.row before.length none 0) (·.below parent index)
  rw [← hlength, hbelow] at hmodify
  simpa only [rows_eq, List.append_assoc, List.singleton_append] using hmodify

/-- Loose trees become the children of a node. -/
theorem toList_adopt {before : List TableNode} {parent index : Nat} {ts : List (Tree NodeKind)}
    {table : Array TableNode} (h : table.toList = before ++ looseRows before.length ts) :
    (adopt parent index (roots before.length ts) table).toList =
      before ++ forestRows before.length parent index ts := by
  induction ts generalizing before index table with
  | nil => exact h
  | cons t ts ih =>
    have hlength : before.length + t.size =
        (before ++ t.rows before.length (some parent) index).length := by
      rw [List.length_append, length_rows]
    rw [roots, adopt, forestRows, ← List.append_assoc, hlength]
    apply ih
    rw [Array.toList_modify, h, looseRows, modify_below, List.append_assoc, hlength]

/-- The greatest height among the rows of the roots is that of the trees. -/
theorem maxHeight_roots {before : List TableNode} {ts : List (Tree NodeKind)}
    {table : Array TableNode} (h : table.toList = before ++ looseRows before.length ts) :
    maxHeight table (roots before.length ts) = forestHeight ts := by
  induction ts generalizing before with
  | nil => rfl
  | cons t ts ih =>
    have hlength : before.length + t.size = (before ++ t.rows before.length none 0).length := by
      rw [List.length_append, length_rows]
    have hroot : table[before.length + forestSize t.children]? =
        some (t.row before.length none 0) := by
      rw [← Array.getElem?_toList, h, looseRows, rows_eq]
      simp
    rw [looseRows, ← List.append_assoc, hlength] at h
    rw [roots, maxHeight, hroot, hlength, ih h]
    rfl

mutual

/-- **Adding a tree adds its rows.** -/
theorem addTree_eq (table : Array TableNode) : (t : Tree NodeKind) →
    (addTree table t).1.toList = table.toList ++ t.rows table.size none 0 ∧
      (addTree table t).2 = table.size + forestSize t.children
  | .node k s ts => by
    obtain ⟨hrows, hroots⟩ := addForest_eq table ts
    rw [← Array.length_toList] at hrows hroots
    have hsize : (addForest table ts).1.size = table.toList.length + forestSize ts := by
      rw [← Array.length_toList, hrows, List.length_append, length_looseRows]
    refine ⟨?_, hsize⟩
    change (push (addForest table ts).1 k s (addForest table ts).2).toList = _
    rw [push, Array.toList_push, hroots, toList_adopt hrows, maxHeight_roots hrows, hsize,
      List.append_assoc]
    rfl

theorem addForest_eq (table : Array TableNode) : (ts : List (Tree NodeKind)) →
    (addForest table ts).1.toList = table.toList ++ looseRows table.size ts ∧
      (addForest table ts).2 = roots table.size ts
  | [] => by simp [addForest, looseRows, roots]
  | t :: ts => by
    obtain ⟨hrows, hroot⟩ := addTree_eq table t
    obtain ⟨hrows', hroots⟩ := addForest_eq (addTree table t).1 ts
    have hsize : (addTree table t).1.size = table.size + t.size := by
      rw [← Array.length_toList, hrows, List.length_append, length_rows, Array.length_toList]
    rw [hsize] at hrows' hroots
    rw [addForest, looseRows, roots, ← List.append_assoc, ← hrows, ← hroot]
    exact ⟨hrows', congrArg _ hroots⟩

end

end TableNode

theorem NodeTable.toList_rows_ofTree (t : Tree NodeKind) :
    (ofTree t).rows.toList = t.rows 0 none 0 :=
  (TableNode.addTree_eq #[] t).1

/-! ## Where a location stands in the table -/

/-- A node on the way down, with the child that leads on. -/
def Crumb.fill {κ : Type} (c : Crumb κ) (t : Tree κ) : Tree κ :=
  .node c.kind c.span (c.before.reverse ++ t :: c.later)

namespace Location
open ArithWat.Tree

/-- The tree around a subtree. -/
def around {κ : Type} : List (Crumb κ) → Tree κ → Tree κ
  | [], t => t
  | c :: above, t => around above (c.fill t)

/-- Going up stays in the tree. -/
theorem around_of_parent? {κ : Type} {l m : Location κ} (h : l.parent? = some m) :
    around m.above m.focus = around l.above l.focus := by
  obtain ⟨focus, above⟩ := l
  cases above with
  | nil => cases h
  | cons c above => cases h; rfl

/-- The number of rows before those of the subtree below some nodes. -/
def offset {κ : Type} : List (Crumb κ) → Nat
  | [] => 0
  | c :: above => offset above + forestSize c.before

/-- The row of the focus. -/
def row {κ : Type} (l : Location κ) : Nat := offset l.above + forestSize l.focus.children

/-- The position of the focus among the children of its parent. -/
def index {κ : Type} (l : Location κ) : Nat :=
  match l.above with
  | [] => 0
  | c :: _ => c.before.length

/-- The rows of a node begin with those of the children before a given one, then come
those of that one. -/
theorem exists_rows_fill (n : Nat) (parent : Option Nat) (i : Nat) (c : Crumb NodeKind)
    (t : Tree NodeKind) :
    ∃ later, (c.fill t).rows n parent i =
      forestRows n (n + forestSize (c.fill t).children) 0 c.before.reverse ++
        (t.rows (n + forestSize c.before) (some (n + forestSize (c.fill t).children))
          c.before.length ++ later) := by
  rw [rows_eq]
  generalize n + forestSize (c.fill t).children = p
  rw [show (c.fill t).children = c.before.reverse ++ t :: c.later from rfl, forestRows_append,
    forestRows, forestSize_reverse, List.length_reverse, Nat.zero_add]
  simp only [List.append_assoc]
  exact ⟨_, rfl⟩

/-- **The rows of a subtree are a stretch of the rows of the tree**, and begin at its
offset. -/
theorem exists_rows_around (above : List (Crumb NodeKind)) (t : Tree NodeKind) :
    ∃ before later, (around above t).rows 0 none 0 =
        before ++ (t.rows (offset above) ((parent? ⟨t, above⟩).map row) (index ⟨t, above⟩) ++
          later) ∧
      before.length = offset above := by
  induction above generalizing t with
  | nil => exact ⟨[], [], by simp [around, offset, index, parent?], rfl⟩
  | cons c above ih =>
    obtain ⟨before, later, hrows, hlength⟩ := ih (c.fill t)
    obtain ⟨later', hfill⟩ := exists_rows_fill (offset above) ((parent? ⟨c.fill t, above⟩).map row)
      (index ⟨c.fill t, above⟩) c t
    refine ⟨before ++ forestRows (offset above) (row ⟨c.fill t, above⟩) 0 c.before.reverse,
      later' ++ later, ?_, ?_⟩
    · rw [around, hrows, hfill]
      simp only [List.append_assoc]
      rfl
    · rw [List.length_append, length_forestRows, hlength, forestSize_reverse, offset]

end Location

namespace NodeTable
open ArithWat.Tree Location
variable {t : Tree NodeKind}

/-- **The row of a location** holds its focus, with the rows of its neighbours. -/
theorem getElem?_rows_ofTree {l : Location NodeKind} (hl : around l.above l.focus = t) :
    (ofTree t).rows[l.row]? =
      some (l.focus.row (offset l.above) (l.parent?.map Location.row) l.index) := by
  obtain ⟨before, later, hrows, hlength⟩ := exists_rows_around l.above l.focus
  rw [← Array.getElem?_toList, toList_rows_ofTree, ← hl, hrows, rows_eq, Location.row, ← hlength]
  simp

/-- A cursor stands at a location of the tree. -/
def At (c : Cursor (ofTree t)) (l : Location NodeKind) : Prop :=
  c.row.val = l.row ∧ around l.above l.focus = t

theorem node_of_at {c : Cursor (ofTree t)} {l : Location NodeKind} (h : At c l) :
    c.node = l.focus.row (offset l.above) (l.parent?.map Location.row) l.index := by
  obtain ⟨hlt, hrow⟩ := Array.getElem?_eq_some_iff.mp (getElem?_rows_ofTree h.2)
  rw [← hrow]
  simp only [Cursor.node, ← h.1]
  rfl

theorem at_top : At (ofTree t).top t.top :=
  ⟨(TableNode.addTree_eq #[] t).2, rfl⟩

/-- The cursor on the row of a location stands there. -/
theorem at?_row {l : Location NodeKind} (hl : around l.above l.focus = t) :
    Option.Rel At (Cursor.at? (ofTree t) l.row) (some l) := by
  obtain ⟨hlt, -⟩ := Array.getElem?_eq_some_iff.mp (getElem?_rows_ofTree hl)
  rw [Cursor.at?, dif_pos hlt]
  exact .some ⟨rfl, hl⟩

theorem parent?_rel {c : Cursor (ofTree t)} {l : Location NodeKind} (h : At c l) :
    Option.Rel At c.parent? l.parent? := by
  rw [Cursor.parent?, node_of_at h]
  cases hup : l.parent? with
  | none => exact .none
  | some m =>
    have hm : around m.above m.focus = t := (around_of_parent? hup).trans h.2
    exact at?_row hm

theorem firstChild?_rel {c : Cursor (ofTree t)} {l : Location NodeKind} (h : At c l) :
    Option.Rel At c.firstChild? l.firstChild? := by
  obtain ⟨⟨k, s, ts⟩, above⟩ := l
  rw [Cursor.firstChild?, node_of_at h]
  cases ts with
  | nil => exact .none
  | cons u us =>
    have hm : around (⟨k, s, [], us⟩ :: above) u = t := h.2
    exact at?_row (l := ⟨u, ⟨k, s, [], us⟩ :: above⟩) hm

/-- The row after that of a child is that of the next child. -/
theorem roots_fill (n : Nat) (c : Crumb NodeKind) (u : Tree NodeKind) :
    (roots n (c.fill u).children)[c.before.length + 1]? =
      (roots (n + forestSize c.before + u.size) c.later).head? := by
  have hlength : (roots n c.before.reverse).length = c.before.length := by
    rw [length_roots, List.length_reverse]
  rw [show (c.fill u).children = c.before.reverse ++ u :: c.later from rfl, roots_append,
    forestSize_reverse, roots, ← hlength, List.getElem?_append_right (Nat.le_add_right _ 1),
    Nat.add_sub_cancel_left, List.getElem?_cons_succ, List.head?_eq_getElem?]

theorem nextSibling?_rel {c : Cursor (ofTree t)} {l : Location NodeKind} (h : At c l) :
    Option.Rel At c.nextSibling? l.nextSibling? := by
  obtain ⟨focus, above⟩ := l
  have hparent := parent?_rel h
  rw [Cursor.nextSibling?, node_of_at h]
  cases above with
  | nil =>
    rw [hparent.eq_none]
    exact .none
  | cons crumb above =>
    obtain ⟨k, s, before, later⟩ := crumb
    obtain ⟨p, hp, hat⟩ := hparent.exists_eq_some
    have hsibling := roots_fill (offset above) ⟨k, s, before, later⟩ focus
    have hnext : p.node.children[before.length + 1]? =
        (roots (offset above + forestSize before + focus.size) later).head? := by
      rw [node_of_at hat]
      exact hsibling
    rw [hp, Option.bind_eq_bind, Option.bind_some]
    change Option.Rel At (p.node.children[before.length + 1]?.bind _) _
    rw [hnext]
    cases later with
    | nil => exact .none
    | cons u us =>
      have hm : around (⟨k, s, focus :: before, us⟩ :: above) u = t := by
        rw [← h.2]
        simp [around, Crumb.fill]
      have hrow : Location.row ⟨u, ⟨k, s, focus :: before, us⟩ :: above⟩ =
          offset above + forestSize before + focus.size + forestSize u.children := by
        simp only [Location.row, offset, forestSize]
        omega
      have hrel := at?_row (l := ⟨u, ⟨k, s, focus :: before, us⟩ :: above⟩) hm
      rw [hrow] at hrel
      exact hrel

/-- **A cursor on the table of a tree conforms to the tree.** -/
theorem conforms_at : Conforms (At (t := t)) where
  tag h := by
    change (Cursor.node _).kind.tag = _
    rw [node_of_at h]
    rfl
  span h := by
    change (Cursor.node _).span = _
    rw [node_of_at h]
    rfl
  childCount h := by
    change (Cursor.node _).children.length = _
    rw [node_of_at h]
    exact length_roots _ _
  firstChild? := firstChild?_rel
  nextSibling? := nextSibling?_rel
  parent? := parent?_rel

end NodeTable

/-- **Reading a script by way of its table is reading its tree.** -/
theorem Script.parseTree_eq (source : List Char) :
    parseTree source = (do
      let tree ← Tree.ofSource source
      (Reading.program source tree).mapError (.parse <| ·.report source)) := by
  unfold parseTree
  congr 1
  funext t
  rw [Walk.outcome_program NodeTable.conforms_at NodeTable.at_top]
  change ((Reading.program source t).mapError _).mapError _ = _
  cases Reading.program source t with
  | error f => rfl
  | ok p => rfl

end ArithWat
