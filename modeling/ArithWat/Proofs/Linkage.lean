import ArithWat.Proofs.Descent.Agreement
import ArithWat.Proofs.Paths
import Mathlib.Logic.Relation
import Mathlib.Order.Bounds.Defs

/-!
# The links of a table

A table is *linked* if its rows make up one tree and know it: children stand before their parents
and the root stands last, every other row is a child once, the links of a row lead back to where it
is a child, every row is found from the root, and the heights are those of the subtrees.

Every row of a tree's table is the row of a location (`NodeTable.exists_location`), its children
are the rows of the locations below (`NodeTable.IsChild.exists_location`), and what the row of a
location holds is known from `Storage`.  So the table of a tree is linked
(`NodeTable.linked_ofTree`), and the descent through a script ends with that table
(`NodeTable.linked_of_ofSource`), which is therefore walked like the script's tree
(`NodeTable.walks_as_path_of_ofSource`).
-/

namespace ArithWat

theorem Tree.size_eq {κ : Type} (t : Tree κ) : t.size = forestSize t.children + 1 := by
  cases t
  rfl

theorem Tree.roots_eq_nil_iff {κ : Type} {offset : Nat} {us : List (Tree κ)} :
    roots offset us = [] ↔ us = [] := by
  rw [← List.length_eq_zero_iff, length_roots, List.length_eq_zero_iff]

/-! ## Every row is the row of a location -/

namespace Location
open ArithWat.Tree
variable {κ : Type}

mutual

/-- The rows of a subtree are those of the locations in it. -/
theorem exists_row (above : List (Crumb κ)) : (u : Tree κ) → (i : Nat) → i < u.size →
    ∃ l : Location κ, around l.above l.focus = around above u ∧ l.row = offset above + i
  | node k s us, i, hi => by
    rcases Nat.lt_or_ge i (forestSize us) with hlt | hge
    · simpa [forestSize] using exists_row_forest above k s [] us i hlt
    · have hlast : i = forestSize us := by
        rw [size] at hi
        omega
      exact ⟨⟨node k s us, above⟩, rfl, by rw [hlast]; rfl⟩

/-- The rows of some children of a node, behind those of the children `before` them. -/
theorem exists_row_forest (above : List (Crumb κ)) (k : κ) (s : Span) (before : List (Tree κ)) :
    (us : List (Tree κ)) → (i : Nat) → i < forestSize us →
    ∃ l : Location κ, around l.above l.focus = around above (node k s (before.reverse ++ us)) ∧
      l.row = offset above + (forestSize before + i)
  | [], i, hi => absurd hi (Nat.not_lt_zero i)
  | u :: us, i, hi => by
    rcases Nat.lt_or_ge i u.size with hlt | hge
    · obtain ⟨l, haround, hrow⟩ := exists_row (⟨k, s, before, us⟩ :: above) u i hlt
      exact ⟨l, haround, by rw [hrow, offset, Nat.add_assoc]⟩
    · obtain ⟨l, haround, hrow⟩ := exists_row_forest above k s (u :: before) us (i - u.size) (by
        rw [forestSize] at hi
        omega)
      refine ⟨l, ?_, ?_⟩
      · simpa using haround
      · rw [hrow, forestSize]
        omega

end

/-- The row of a child is found among the roots of the children, in the child's position. -/
theorem getElem?_roots {l m : Location κ} (h : m.parent? = some l) :
    (roots (offset l.above) l.focus.children)[m.index]? = some m.row := by
  obtain ⟨u, above⟩ := m
  cases above with
  | nil => cases h
  | cons c above =>
    cases h
    have hlength : c.before.length = (roots (offset above) c.before.reverse).length := by
      rw [length_roots, List.length_reverse]
    change (roots (offset above) (c.before.reverse ++ u :: c.later))[c.before.length]? = _
    rw [roots_append, hlength, List.getElem?_append_right (Nat.le_refl _), Nat.sub_self,
      forestSize_reverse]
    rfl

/-- The focus is found among the children of its parent. -/
theorem getElem?_children {l m : Location κ} (h : m.parent? = some l) :
    l.focus.children[m.index]? = some m.focus := by
  obtain ⟨u, above⟩ := m
  cases above with
  | nil => cases h
  | cons c above =>
    cases h
    change (c.before.reverse ++ u :: c.later)[c.before.length]? = some u
    rw [← List.length_reverse, List.getElem?_append_right (Nat.le_refl _), Nat.sub_self]
    rfl

/-- A child stands before its parent. -/
theorem row_lt_of_parent? {l m : Location κ} (h : m.parent? = some l) : m.row < l.row := by
  obtain ⟨u, above⟩ := m
  cases above with
  | nil => cases h
  | cons c above =>
    cases h
    change offset above + forestSize c.before + forestSize u.children <
      offset above + forestSize (c.before.reverse ++ u :: c.later)
    rw [forestSize_append, forestSize_reverse, forestSize, size_eq]
    omega

/-- The roots of the children are the rows of the children. -/
theorem exists_of_getElem?_roots {l : Location κ} {k j : Nat}
    (h : (roots (offset l.above) l.focus.children)[k]? = some j) :
    ∃ m : Location κ, m.parent? = some l ∧ m.index = k ∧ m.row = j := by
  obtain ⟨⟨kind, span, us⟩, above⟩ := l
  have hk : k < us.length := by
    have hlt := (List.getElem?_eq_some_iff.mp h).1
    rwa [length_roots] at hlt
  have hcut : us.take k ++ us[k] :: us.drop (k + 1) = us := by
    rw [← List.drop_eq_getElem_cons hk, List.take_append_drop]
  have hparent : parent? ⟨us[k], ⟨kind, span, (us.take k).reverse, us.drop (k + 1)⟩ :: above⟩ =
      some ⟨.node kind span us, above⟩ := by
    simp only [parent?, List.reverse_reverse, hcut]
  have hindex : index ⟨us[k], ⟨kind, span, (us.take k).reverse, us.drop (k + 1)⟩ :: above⟩ = k := by
    simp only [index, List.length_reverse, List.length_take]
    exact Nat.min_eq_left (Nat.le_of_lt hk)
  refine ⟨_, hparent, hindex, Option.some.inj ?_⟩
  rw [← getElem?_roots hparent, hindex, h]

end Location

/-! ## Children -/

namespace NodeTable
open ArithWat.Tree Location Walk

/-- Row `j` is child number `k` of row `i`. -/
def IsChild (table : NodeTable) (i k j : Nat) : Prop :=
  ∃ n, table.rows[i]? = some n ∧ n.children[k]? = some j

/-- **A table is linked.** -/
structure Linked (table : NodeTable) : Prop where
  /-- Children stand before their parent. -/
  child_lt : ∀ i k j, table.IsChild i k j → j < i
  /-- The root stands last. -/
  root_last : table.root.val + 1 = table.rows.size
  /-- Every other row is a child of one row, in one position. -/
  one_parent : ∀ j < table.rows.size, j ≠ table.root.val →
    ∃! p : Nat × Nat, table.IsChild p.1 p.2 j
  /-- The links of a row name the row of which it is a child, and its position there. -/
  links : ∀ (i k j : Nat) (n : TableNode), table.IsChild i k j → table.rows[j]? = some n →
    n.parent = some i ∧ n.indexInParent = k
  /-- The root has no parent. -/
  root_parent : ∀ n : TableNode, table.rows[table.root.val]? = some n → n.parent = none
  /-- Every row is found from the root. -/
  reachable : ∀ j < table.rows.size,
    Relation.ReflTransGen (fun i j => ∃ k, table.IsChild i k j) table.root.val j
  /-- The height of a leaf is one. -/
  leaf_height : ∀ (i : Nat) (n : TableNode), table.rows[i]? = some n → n.children = [] → n.height = 1
  /-- The height of any other row is one more than the greatest among its children. -/
  height : ∀ (i : Nat) (n : TableNode), table.rows[i]? = some n → n.children ≠ [] →
    IsGreatest {h | ∃ j m, j ∈ n.children ∧ table.rows[j]? = some m ∧ h = m.height + 1} n.height

variable {t : Tree NodeKind}

theorem size_rows_ofTree (t : Tree NodeKind) : (ofTree t).rows.size = t.size := by
  rw [← Array.length_toList, toList_rows_ofTree, length_rows]

/-- **Every row of a tree's table is the row of a location.** -/
theorem exists_location {i : Nat} (h : i < (ofTree t).rows.size) :
    ∃ l : Location NodeKind, around l.above l.focus = t ∧ l.row = i := by
  rw [size_rows_ofTree] at h
  obtain ⟨l, hl, hrow⟩ := exists_row [] t i h
  exact ⟨l, hl, by rw [hrow, offset, Nat.zero_add]⟩

theorem root_ofTree (t : Tree NodeKind) : (ofTree t).root.val = t.top.row :=
  at_top.1

/-- A location below another is a child in the table. -/
theorem isChild_of_parent? {l m : Location NodeKind} (hm : around m.above m.focus = t)
    (h : m.parent? = some l) : (ofTree t).IsChild l.row m.index m.row :=
  ⟨_, getElem?_rows_ofTree ((around_of_parent? h).trans hm), getElem?_roots h⟩

/-- **A child in the table is a location below another.** -/
theorem IsChild.exists_location {i k j : Nat} (h : (ofTree t).IsChild i k j) :
    ∃ l m : Location NodeKind, around m.above m.focus = t ∧ m.parent? = some l ∧ l.row = i ∧
      m.index = k ∧ m.row = j := by
  obtain ⟨n, hn, hk⟩ := h
  obtain ⟨l, hl, rfl⟩ := NodeTable.exists_location (Array.getElem?_eq_some_iff.mp hn).1
  rw [getElem?_rows_ofTree hl] at hn
  cases hn
  obtain ⟨m, hparent, hindex, hrow⟩ := exists_of_getElem?_roots hk
  exact ⟨l, m, (around_of_parent? hparent).symm.trans hl, hparent, rfl, hindex, hrow⟩

/-- The links of a child lead to its parent. -/
theorem IsChild.links {i k j : Nat} {n : TableNode} (h : (ofTree t).IsChild i k j)
    (hn : (ofTree t).rows[j]? = some n) : n.parent = some i ∧ n.indexInParent = k := by
  obtain ⟨l, m, hm, hparent, rfl, rfl, rfl⟩ := h.exists_location
  rw [getElem?_rows_ofTree hm, hparent] at hn
  cases hn
  exact ⟨rfl, rfl⟩

/-- Every location is found from the root: going up, the root is met. -/
theorem reachable_row {l : Location NodeKind} (hl : around l.above l.focus = t) :
    Relation.ReflTransGen (fun i j => ∃ k, (ofTree t).IsChild i k j) (ofTree t).root.val l.row := by
  obtain ⟨focus, above⟩ := l
  induction above generalizing focus with
  | nil =>
    cases hl
    rw [root_ofTree]
    exact .refl
  | cons c above ih =>
    refine (ih (c.fill focus) hl).tail ⟨_, isChild_of_parent? hl rfl⟩

/-- A tree that is as high as the highest of some. -/
theorem exists_height_eq_forestHeight {us : List (Tree NodeKind)} (h : us ≠ []) :
    ∃ u ∈ us, u.height = forestHeight us := by
  induction us with
  | nil => exact absurd rfl h
  | cons u us ih =>
    rcases Nat.le_total (forestHeight us) u.height with hle | hle
    · exact ⟨u, List.mem_cons_self, (Nat.max_eq_left hle).symm⟩
    · have hus : us ≠ [] := by
        rintro rfl
        exact absurd hle (Nat.not_le.mpr u.height_pos)
      obtain ⟨v, hv, hheight⟩ := ih hus
      exact ⟨v, List.mem_cons_of_mem u hv, hheight.trans (Nat.max_eq_right hle).symm⟩

/-- The height of a row is one more than the greatest among its children. -/
theorem isGreatest_height {l : Location NodeKind} (hl : around l.above l.focus = t)
    (hchildren : l.focus.children ≠ []) :
    IsGreatest {h | ∃ j m, j ∈ roots (offset l.above) l.focus.children ∧
      (ofTree t).rows[j]? = some m ∧ h = m.height + 1} l.focus.height := by
  rw [height_eq]
  constructor
  · obtain ⟨u, hu, hheight⟩ := exists_height_eq_forestHeight hchildren
    obtain ⟨k, hk, rfl⟩ := List.getElem_of_mem hu
    have hroot : k < (roots (offset l.above) l.focus.children).length := by rwa [length_roots]
    obtain ⟨m, hparent, rfl, hrow⟩ := exists_of_getElem?_roots (List.getElem?_eq_getElem hroot)
    have hfocus : m.focus = l.focus.children[m.index] := by
      rw [← Option.some_inj, ← getElem?_children hparent, List.getElem?_eq_getElem]
    refine ⟨m.row, _, List.mem_of_getElem? (getElem?_roots hparent),
      getElem?_rows_ofTree ((around_of_parent? hparent).symm.trans hl), ?_⟩
    rw [← hheight, ← hfocus]
    rfl
  · rintro h ⟨j, n, hj, hn, rfl⟩
    obtain ⟨k, hk⟩ := List.mem_iff_getElem?.mp hj
    obtain ⟨m, hparent, rfl, rfl⟩ := exists_of_getElem?_roots hk
    rw [getElem?_rows_ofTree ((around_of_parent? hparent).symm.trans hl)] at hn
    cases hn
    have hmem : m.focus ∈ l.focus.children := List.mem_of_getElem? (getElem?_children hparent)
    exact Nat.succ_le_succ (forestHeight_le_iff.mp (Nat.le_refl _) m.focus hmem)

/-- **The table of a tree is linked.** -/
theorem linked_ofTree (t : Tree NodeKind) : (ofTree t).Linked where
  child_lt i k j h := by
    obtain ⟨l, m, hm, hparent, rfl, rfl, rfl⟩ := h.exists_location
    exact row_lt_of_parent? hparent
  root_last := by
    rw [root_ofTree, size_rows_ofTree, size_eq]
    simp [Location.row, Tree.top, offset]
  one_parent j hj hroot := by
    obtain ⟨m, hm, rfl⟩ := exists_location hj
    have hn := getElem?_rows_ofTree hm
    cases hup : m.parent? with
    | none =>
      obtain ⟨focus, above⟩ := m
      cases above with
      | nil =>
        cases hm
        exact absurd (root_ofTree focus).symm hroot
      | cons c above => cases hup
    | some l =>
      have hchild := isChild_of_parent? hm hup
      refine ⟨(l.row, m.index), hchild, fun p hp => ?_⟩
      obtain ⟨hparent, hindex⟩ := hchild.links hn
      obtain ⟨hparent', hindex'⟩ := hp.links hn
      exact Prod.ext (Option.some.inj (hparent'.symm.trans hparent)) (hindex'.symm.trans hindex)
  links i k j n h hn := h.links hn
  root_parent n hn := by
    have htop : around t.top.above t.top.focus = t := rfl
    rw [root_ofTree, getElem?_rows_ofTree htop] at hn
    cases hn
    rfl
  reachable j hj := by
    obtain ⟨l, hl, rfl⟩ := exists_location hj
    exact reachable_row hl
  leaf_height i n hn hleaf := by
    obtain ⟨l, hl, rfl⟩ := exists_location (Array.getElem?_eq_some_iff.mp hn).1
    rw [getElem?_rows_ofTree hl] at hn
    cases hn
    exact (height_eq l.focus).trans (by rw [roots_eq_nil_iff.mp hleaf]; rfl)
  height i n hn hchildren := by
    obtain ⟨l, hl, rfl⟩ := exists_location (Array.getElem?_eq_some_iff.mp hn).1
    rw [getElem?_rows_ofTree hl] at hn
    cases hn
    exact isGreatest_height hl fun hnil => hchildren (roots_eq_nil_iff.mpr hnil)

/-- The descent through the lexemes of a script ends with the table of its tree. -/
theorem exists_descent_of_ofSource {source : List Char} (h : Tree.ofSource source = .ok t) :
    ∃ ls c, Scan.lexemes source = .ok ls ∧
      Descent.Reaches ⟨maxNesting, Lexeme.significant 0 ls, Text.byteSize source⟩ Descent.start c ∧
      c.result? = some (.ok ((ofTree t).rows, (ofTree t).root.val)) := by
  simp only [Tree.ofSource, Except.bind_eq_ok_iff, Except.mapError_eq_ok_iff] at h
  obtain ⟨ls, hls, trees, htrees, h⟩ := h
  cases h
  obtain ⟨c, hpath, -, -, hresult⟩ :=
    Descent.exists_finish ⟨maxNesting, Lexeme.significant 0 ls, Text.byteSize source⟩
  rw [htrees] at hresult
  exact ⟨ls, c, hls, hpath.reaches, hresult⟩

/-- **The table of a script is linked**: children stand before their parents and the root last,
every other row is a child of one row in one position, and its links say which; the root has no
parent, every row is found from it, and the heights are those of the subtrees.  It is the table to
which the descent through the script has added a row for every node on its way. -/
theorem linked_of_ofSource {source : List Char} (h : Tree.ofSource source = .ok t) :
    (ofTree t).Linked ∧
    ∃ ls c, Scan.lexemes source = .ok ls ∧
      Descent.Reaches ⟨maxNesting, Lexeme.significant 0 ls, Text.byteSize source⟩ Descent.start c ∧
      c.result? = some (.ok ((ofTree t).rows, (ofTree t).root.val)) :=
  ⟨linked_ofTree t, exists_descent_of_ofSource h⟩

/-- A call with a signed argument. -/
theorem linked_of_ofSource_call :
    let t : Tree NodeKind :=
      .node .script ⟨0, 5⟩
        [.node .expressionStatement ⟨0, 5⟩
          [.node .callExpression ⟨0, 5⟩
            [.leaf .variableName ⟨0, 1⟩,
             .node .argList ⟨1, 5⟩
              [.leaf .openParen ⟨1, 2⟩,
               .node .unaryExpression ⟨2, 4⟩ [.leaf .arithOp ⟨2, 3⟩, .leaf .number ⟨3, 4⟩],
               .leaf .closeParen ⟨4, 5⟩]]]]
    Tree.ofSource "f(-1)".toList = .ok t ∧ (ofTree t).Linked ∧
      ∃ ls c, Scan.lexemes "f(-1)".toList = .ok ls ∧
        Descent.Reaches ⟨maxNesting, Lexeme.significant 0 ls, 5⟩ Descent.start c ∧
        c.result? = some (.ok ((ofTree t).rows, (ofTree t).root.val)) := by
  intro t
  have ht : Tree.ofSource "f(-1)".toList = .ok t := by decide +kernel
  exact ⟨ht, linked_of_ofSource ht⟩

/-- **The table that the descent ends with is walked like the tree of the script.**  On every
tour from the root a cursor on the table and a path into the tree see the same, and the way up
undoes the way down to the first child, whichever siblings are passed in between. -/
theorem walks_as_path_of_ofSource {source : List Char} (h : Tree.ofSource source = .ok t) :
    ∃ ls c, ∃ table : NodeTable, Scan.lexemes source = .ok ls ∧
      Descent.Reaches ⟨maxNesting, Lexeme.significant 0 ls, Text.byteSize source⟩ Descent.start c ∧
      c.result? = some (.ok (table.rows, table.root.val)) ∧
      ∀ moves, ∃ seen d p, tour moves table.top = .ok seen d ∧
        tour moves (Tree.Path.root t) = .ok seen p ∧
        ∀ n e seen' e', move TreeCursor.firstChild? d = .ok true e →
          tour (List.replicate n .nextSibling) e = .ok seen' e' →
          move TreeCursor.parent? e' = .ok true d := by
  obtain ⟨ls, c, hls, hreaches, hresult⟩ := exists_descent_of_ofSource h
  refine ⟨ls, c, ofTree t, hls, hreaches, hresult, fun moves => ?_⟩
  obtain ⟨seen, d, p, l, htable, hpath, hat, -⟩ := exists_tour_top t moves
  exact ⟨seen, d, p, htable, hpath, fun _ _ _ _ => move_parent_of_tour hat⟩

end NodeTable

end ArithWat
