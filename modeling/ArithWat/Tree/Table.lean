import ArithWat.Tree.Cursor

/-!
# Trees stored as tables

A tree as a table of nodes that refer to each other by index, children before the
node that owns them.  A row knows its parent and its position among the parent's
children, so every move of a cursor is one or two look-ups.
-/

namespace ArithWat

/-- A row of a table: a node with its links. -/
structure TableNode where
  kind : NodeKind
  span : Span
  /-- The index of the parent's row, `none` while the node has no parent. -/
  parent : Option Nat
  /-- The position among the parent's children, zero without a parent. -/
  indexInParent : Nat
  /-- The indices of the children's rows, in order. -/
  children : List Nat
  /-- The number of levels of the subtree; a leaf has one. -/
  height : Nat
  deriving DecidableEq, Repr

namespace TableNode

/-- A row below the row `parent`, as its child number `index`. -/
def below (n : TableNode) (parent index : Nat) : TableNode :=
  { n with parent := some parent, indexInParent := index }

/-- The greatest height among some rows, zero if there is none. -/
def maxHeight (rows : Array TableNode) : List Nat → Nat
  | [] => 0
  | i :: is => max (rows[i]?.elim 0 TableNode.height) (maxHeight rows is)

/-- Rows of which some are put below the row `parent`, in order, the first of
them as child number `index`. -/
def adopt (parent : Nat) : Nat → List Nat → Array TableNode → Array TableNode
  | _, [], rows => rows
  | index, i :: is, rows => adopt parent (index + 1) is (rows.modify i (·.below parent index))

theorem size_adopt (parent index : Nat) (is : List Nat) (rows : Array TableNode) :
    (adopt parent index is rows).size = rows.size := by
  induction is generalizing index rows with
  | nil => rfl
  | cons i is ih => rw [adopt, ih, Array.size_modify]

/-- **Adds a node** over some of the rows, which become its children. -/
def push (rows : Array TableNode) (kind : NodeKind) (span : Span) (children : List Nat) :
    Array TableNode :=
  (adopt rows.size 0 children rows).push
    { kind, span, parent := none, indexInParent := 0, children
      height := maxHeight rows children + 1 }

theorem size_push (rows : Array TableNode) (kind : NodeKind) (span : Span) (children : List Nat) :
    (push rows kind span children).size = rows.size + 1 := by
  rw [push, Array.size_push, size_adopt]

mutual

/-- Adds the nodes of a tree, children first, and gives the index of its root. -/
def addTree (rows : Array TableNode) : Tree NodeKind → Array TableNode × Nat
  | .node k s ts =>
    let (rows, is) := addForest rows ts
    (push rows k s is, rows.size)

/-- Adds the nodes of a list of trees and gives the indices of their roots. -/
def addForest (rows : Array TableNode) : List (Tree NodeKind) → Array TableNode × List Nat
  | [] => (rows, [])
  | t :: ts =>
    let (rows, i) := addTree rows t
    let (rows, is) := addForest rows ts
    (rows, i :: is)

end

theorem addTree_lt (rows : Array TableNode) (t : Tree NodeKind) :
    (addTree rows t).2 < (addTree rows t).1.size := by
  cases t with
  | node k s ts =>
    rw [addTree, size_push]
    exact Nat.lt_succ_self _

end TableNode

/-- **A tree as a table of nodes.** -/
structure NodeTable where
  rows : Array TableNode
  root : Fin rows.size

namespace NodeTable

/-- The table of a tree. -/
def ofTree (t : Tree NodeKind) : NodeTable where
  rows := (TableNode.addTree #[] t).1
  root := ⟨(TableNode.addTree #[] t).2, TableNode.addTree_lt #[] t⟩

/-- A cursor on a table: the row of the node it stands on. -/
structure Cursor (table : NodeTable) where
  row : Fin table.rows.size
  deriving DecidableEq

/-- The cursor on the root. -/
def top (table : NodeTable) : Cursor table := ⟨table.root⟩

variable {table : NodeTable}

namespace Cursor

/-- The node under the cursor. -/
def node (c : Cursor table) : TableNode := table.rows[c.row]

/-- The cursor on the row `i`, if there is such a row. -/
def at? (table : NodeTable) (i : Nat) : Option (Cursor table) :=
  if h : i < table.rows.size then some ⟨⟨i, h⟩⟩ else none

/-- The first child. -/
def firstChild? (c : Cursor table) : Option (Cursor table) :=
  c.node.children.head?.bind (at? table)

/-- The parent. -/
def parent? (c : Cursor table) : Option (Cursor table) :=
  c.node.parent.bind (at? table)

/-- The sibling to the right. -/
def nextSibling? (c : Cursor table) : Option (Cursor table) := do
  let p ← c.parent?
  let i ← p.node.children[c.node.indexInParent + 1]?
  at? table i

end Cursor

instance : TreeCursor (Cursor table) where
  tag c := c.node.kind.tag
  span c := c.node.span
  childCount c := c.node.children.length
  firstChild? := Cursor.firstChild?
  nextSibling? := Cursor.nextSibling?
  parent? := Cursor.parent?

end NodeTable

end ArithWat
