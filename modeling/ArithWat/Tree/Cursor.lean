import ArithWat.Tree

/-!
# Tree cursors

A cursor stands on a node of a tree, shows the node's tag and span, and moves to
a neighbour where there is one.  Whatever reads a tree reads it through a cursor,
so it does not matter how the tree is stored.

`Location` is the cursor on a plain tree: the subtree in focus and, for each node
above it, what stands to its left and right.  The kinds of such a tree need only have
tags: they are those of the grammar, or arbitrary text.
-/

namespace ArithWat

/-- **A cursor on an ordered tree.**  A move is `none` where the tree has no such
neighbour. -/
class TreeCursor (γ : Type) where
  /-- The tag of the node under the cursor. -/
  tag : γ → String
  /-- The span of the node under the cursor. -/
  span : γ → Span
  /-- How many children the node under the cursor has.  To a walk it is a bound, and any
  larger number would do (`Walk.program_eq_programUpTo`). -/
  childCount : γ → Nat
  /-- The first child. -/
  firstChild? : γ → Option γ
  /-- The sibling to the right. -/
  nextSibling? : γ → Option γ
  /-- The parent. -/
  parent? : γ → Option γ

/-- Kinds of nodes that can be shown as a tag. -/
class Tagged (κ : Type) where
  /-- The tag of a kind. -/
  tag : κ → String

instance : Tagged String := ⟨id⟩

instance : Tagged NodeKind := ⟨NodeKind.tag⟩

/-- A node on the way from the root to the focus, without the child that leads
there: the children before that child, nearest first, and those after it. -/
structure Crumb (κ : Type) where
  kind : κ
  span : Span
  before : List (Tree κ)
  later : List (Tree κ)
  deriving DecidableEq, Repr

/-- **A place in a plain tree**: the subtree in focus, and the nodes above it from
the parent up to the root. -/
structure Location (κ : Type) where
  focus : Tree κ
  above : List (Crumb κ)
  deriving DecidableEq, Repr

/-- The location of the root of a tree. -/
def Tree.top {κ : Type} (t : Tree κ) : Location κ := ⟨t, []⟩

namespace Location
variable {κ : Type}

/-- The first child of the focus. -/
def firstChild? : Location κ → Option (Location κ)
  | ⟨.node k s (t :: ts), above⟩ => some ⟨t, ⟨k, s, [], ts⟩ :: above⟩
  | ⟨.node _ _ [], _⟩ => none

/-- The sibling to the right of the focus. -/
def nextSibling? : Location κ → Option (Location κ)
  | ⟨focus, ⟨k, s, before, t :: ts⟩ :: above⟩ => some ⟨t, ⟨k, s, focus :: before, ts⟩ :: above⟩
  | _ => none

/-- The parent of the focus. -/
def parent? : Location κ → Option (Location κ)
  | ⟨focus, c :: above⟩ =>
    some ⟨.node c.kind c.span (c.before.reverse ++ focus :: c.later), above⟩
  | ⟨_, []⟩ => none

/-- The parent of the first child is where the cursor came from. -/
theorem parent?_of_firstChild? {l m : Location κ} (h : l.firstChild? = some m) :
    m.parent? = some l := by
  obtain ⟨⟨k, s, ts⟩, above⟩ := l
  cases ts with
  | nil => cases h
  | cons t ts => cases h; rfl

/-- Siblings have one parent. -/
theorem parent?_of_nextSibling? {l m : Location κ} (h : l.nextSibling? = some m) :
    m.parent? = l.parent? := by
  obtain ⟨focus, above⟩ := l
  cases above with
  | nil => cases h
  | cons c above =>
    obtain ⟨k, s, before, later⟩ := c
    cases later with
    | nil => cases h
    | cons t ts => cases h; simp [parent?]

end Location

instance {κ : Type} [Tagged κ] : TreeCursor (Location κ) where
  tag l := Tagged.tag l.focus.kind
  span l := l.focus.span
  childCount l := l.focus.children.length
  firstChild? := Location.firstChild?
  nextSibling? := Location.nextSibling?
  parent? := Location.parent?

end ArithWat
