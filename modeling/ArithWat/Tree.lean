import ArithWat.Span

/-!
# Trees

An ordered tree whose nodes carry a kind and a span.  Trees that the grammar
builds have kinds from the closed list `NodeKind`; a tree of any other origin has
arbitrary text for kinds, and `NodeKind.ofTag?` recognises those that have a
meaning.
-/

namespace ArithWat

/-- The kinds of nodes that the grammar builds. -/
inductive NodeKind where
  | script
  | assignStatement
  | expressionStatement
  | binaryExpression
  | unaryExpression
  | callExpression
  | argList
  | parenthesizedExpression
  | number
  | variableName
  | arithOp
  | assignOp
  | openParen
  | closeParen
  | comma
  deriving DecidableEq, Repr

namespace NodeKind

/-- The tag of a kind. -/
def tag : NodeKind → String
  | script => "Script"
  | assignStatement => "AssignStatement"
  | expressionStatement => "ExpressionStatement"
  | binaryExpression => "BinaryExpression"
  | unaryExpression => "UnaryExpression"
  | callExpression => "CallExpression"
  | argList => "ArgList"
  | parenthesizedExpression => "ParenthesizedExpression"
  | number => "Number"
  | variableName => "VariableName"
  | arithOp => "ArithOp"
  | assignOp => "AssignOp"
  | openParen => "("
  | closeParen => ")"
  | comma => ","

/-- Every kind. -/
def all : List NodeKind :=
  [script, assignStatement, expressionStatement, binaryExpression, unaryExpression,
   callExpression, argList, parenthesizedExpression, number, variableName, arithOp, assignOp,
   openParen, closeParen, comma]

/-- The kind with a given tag. -/
def ofTag? (tag : String) : Option NodeKind := all.find? (·.tag = tag)

theorem ofTag?_tag (k : NodeKind) : ofTag? k.tag = some k := by
  cases k <;> decide

/-- The kinds whose tag is the text they stand for. -/
def isPunctuation : NodeKind → Bool
  | openParen | closeParen | comma => true
  | _ => false

/-- The kinds of statements. -/
def isStatement : NodeKind → Bool
  | assignStatement | expressionStatement => true
  | _ => false

end NodeKind

/-- **An ordered tree.** -/
inductive Tree (κ : Type) where
  | node (kind : κ) (span : Span) (children : List (Tree κ))
  deriving Repr

namespace Tree
variable {κ : Type}

/-- The kind of the root. -/
def kind : Tree κ → κ
  | node k _ _ => k

/-- The span of the root. -/
def span : Tree κ → Span
  | node _ s _ => s

/-- The subtrees below the root. -/
def children : Tree κ → List (Tree κ)
  | node _ _ ts => ts

mutual

/-- Decides whether two trees are equal. -/
def decEq [DecidableEq κ] : (t u : Tree κ) → Decidable (t = u)
  | node k s ts, node k' s' ts' =>
    if h : k = k' ∧ s = s' then
      match decForestEq ts ts' with
      | isTrue h' => isTrue (by rw [h.1, h.2, h'])
      | isFalse h' => isFalse fun e => h' (by injection e)
    else isFalse fun e => h (by injection e with h₁ h₂; exact ⟨h₁, h₂⟩)

/-- Decides whether two lists of trees are equal. -/
def decForestEq [DecidableEq κ] : (ts us : List (Tree κ)) → Decidable (ts = us)
  | [], [] => isTrue rfl
  | [], _ :: _ => isFalse nofun
  | _ :: _, [] => isFalse nofun
  | t :: ts, u :: us =>
    match decEq t u with
    | isTrue h =>
      match decForestEq ts us with
      | isTrue h' => isTrue (by rw [h, h'])
      | isFalse h' => isFalse fun e => h' (List.cons.inj e).2
    | isFalse h => isFalse fun e => h (List.cons.inj e).1

end

instance [DecidableEq κ] : DecidableEq (Tree κ) := decEq

/-- A tree without children. -/
def leaf (k : κ) (s : Span) : Tree κ := node k s []

mutual

/-- The number of levels of a tree; a leaf has one. -/
def height : Tree κ → Nat
  | node _ _ ts => forestHeight ts + 1

/-- The greatest height in a list of trees, zero if there is none. -/
def forestHeight : List (Tree κ) → Nat
  | [] => 0
  | t :: ts => max t.height (forestHeight ts)

end

theorem height_pos (t : Tree κ) : 0 < t.height := by
  cases t with
  | node k s ts => exact Nat.succ_pos _

/-- A list of trees is as high as the highest of them. -/
theorem forestHeight_le_iff {ts : List (Tree κ)} {n : Nat} :
    forestHeight ts ≤ n ↔ ∀ t ∈ ts, t.height ≤ n := by
  induction ts with
  | nil => simp [forestHeight]
  | cons t ts ih => rw [forestHeight, Nat.max_le, ih, List.forall_mem_cons]

mutual

/-- The nodes of a tree from the top, left to right, with their depths. -/
def preorder (depth : Nat) : Tree κ → List (Nat × κ × Span)
  | node k s ts => (depth, k, s) :: forestPreorder (depth + 1) ts

/-- The nodes of a list of trees, each from the top. -/
def forestPreorder (depth : Nat) : List (Tree κ) → List (Nat × κ × Span)
  | [] => []
  | t :: ts => t.preorder depth ++ forestPreorder depth ts

end

/-- A node over children, with the span from the first to the last of them. -/
def spanning (k : κ) (first : Tree κ) (more : List (Tree κ)) : Tree κ :=
  node k (first.span.cover ((first :: more).getLastD first).span) (first :: more)

@[simp] theorem height_leaf (k : κ) (s : Span) : (leaf k s).height = 1 := rfl

theorem height_spanning (k : κ) (first : Tree κ) (more : List (Tree κ)) :
    (spanning k first more).height = forestHeight (first :: more) + 1 := rfl

/-- The levels of a node are one more than those of its children. -/
theorem height_spanning_le_iff {k : κ} {first : Tree κ} {more : List (Tree κ)} {n : Nat} :
    (spanning k first more).height ≤ n ↔ ∀ t ∈ first :: more, t.height < n := by
  cases n with
  | zero =>
    have := (spanning k first more).height_pos
    constructor
    · omega
    · exact fun h => absurd (h first List.mem_cons_self) (Nat.not_lt_zero _)
  | succ n =>
    simp only [Nat.lt_succ_iff, ← forestHeight_le_iff]
    exact Nat.succ_le_succ_iff

@[simp] theorem kind_leaf (k : κ) (s : Span) : (leaf k s).kind = k := rfl

@[simp] theorem kind_spanning (k : κ) (first : Tree κ) (more : List (Tree κ)) :
    (spanning k first more).kind = k := rfl

@[simp] theorem children_spanning (k : κ) (first : Tree κ) (more : List (Tree κ)) :
    (spanning k first more).children = first :: more := rfl

end Tree

/-! ## The written shape of a tree -/

/-- A kind in the written shape of a tree: its tag, in quotes if it is punctuation. -/
def NodeKind.render (k : NodeKind) : String :=
  if k.isPunctuation then "\"" ++ k.tag ++ "\"" else k.tag

mutual

/-- **The written shape of a tree**: its kind, and its children between
parentheses if it has any.  Spans are left out. -/
def Tree.render : Tree NodeKind → String
  | .node k _ [] => k.render
  | .node k _ (t :: ts) => k.render ++ "(" ++ t.render ++ Tree.renderMore ts ++ ")"

/-- The written shapes of further children, each after a comma. -/
def Tree.renderMore : List (Tree NodeKind) → String
  | [] => ""
  | t :: ts => "," ++ t.render ++ Tree.renderMore ts

end

end ArithWat
