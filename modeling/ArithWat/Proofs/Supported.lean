import ArithWat.Proofs.Expressible
import ArithWat.Proofs.Outline

/-!
# The supported constructs

The grammar derives more than has a meaning.  A tree is *supported* if it has no expression in
parentheses, no operator but `+`, `-` and `*`, no sign before anything but a number, no literal
that cannot be read, and no call but one of a builtin with the arguments that it takes
(`Tree.IsSupported`).  Each of these is a condition on single nodes and literals, wherever they
stand, and nothing is said of how a tree is read.

A reading *decides* a condition if it succeeds where the condition holds, and has a flaw of the
kind that scripts can have where it does not (`Reading.Decides`).  Readings one after another
decide the conjunction (`Decides.bind`).
-/

namespace ArithWat
open Grammar

namespace Tree

section
variable {κ : Type}

mutual

/-- The tree and all trees below its root. -/
def subtrees : Tree κ → List (Tree κ)
  | node k s ts => node k s ts :: forestSubtrees ts

/-- The subtrees of a list of trees. -/
def forestSubtrees : List (Tree κ) → List (Tree κ)
  | [] => []
  | t :: ts => t.subtrees ++ forestSubtrees ts

end

theorem mem_forestSubtrees {u : Tree κ} {ts : List (Tree κ)} :
    u ∈ forestSubtrees ts ↔ ∃ t ∈ ts, u ∈ t.subtrees := by
  induction ts with
  | nil => simp [forestSubtrees]
  | cons t ts ih => simp [forestSubtrees, ih]

theorem mem_subtrees_self (t : Tree κ) : t ∈ t.subtrees := by
  cases t with
  | node k s ts => exact List.mem_cons_self

theorem subtrees_subset {t u : Tree κ} (h : u ∈ t.children) : u.subtrees ⊆ t.subtrees := by
  cases t with
  | node k s ts => exact fun v hv => List.mem_cons_of_mem _ (mem_forestSubtrees.mpr ⟨u, h, hv⟩)

end

mutual

/-- The texts of the literals of a tree that stands after `sign`: those of its numbers, each with
the sign before it if there is one. -/
def literals (source : List Char) (sign : String) : Tree NodeKind → List String
  | node .number s _ => [sign ++ s.text source]
  | node .unaryExpression _ (op :: ts) => forestLiterals source (op.span.text source) ts
  | node _ _ ts => forestLiterals source "" ts

/-- The texts of the literals of trees that each stand after `sign`. -/
def forestLiterals (source : List Char) (sign : String) : List (Tree NodeKind) → List String
  | [] => []
  | t :: ts => t.literals source sign ++ forestLiterals source sign ts

end

/-- **A call of a builtin**: what is called is a name, and between the parentheses stand as many
expressions as the builtin takes, with a comma between two. -/
structure IsBuiltinCall (source : List Char) (callee args : Tree NodeKind) : Prop where
  callee_kind : callee.kind = .variableName
  callee_children : callee.children = []
  args_kind : args.kind = .argList
  arguments :
    ((UnaryBuiltin.ofName? (callee.span.text source)).isSome = true ∧
      ∃ k, isExpression k = true ∧ args.children.map kind = [.openParen, k, .closeParen]) ∨
    ((BinaryBuiltin.ofName? (callee.span.text source)).isSome = true ∧
      ∃ k k', isExpression k = true ∧ isExpression k' = true ∧
        args.children.map kind = [.openParen, k, .comma, k', .closeParen])

/-- **A node that has a meaning**, as far as its kind, its children and their texts go. -/
def IsSupportedNode (source : List Char) : Tree NodeKind → Prop
  | node .parenthesizedExpression _ _ => False
  | node .binaryExpression _ ts =>
    ∀ op ∈ ts, op.kind = .arithOp → op.span.text source ∈ ["+", "-", "*"]
  | node .unaryExpression _ ts => ∃ sign number, ts = [sign, number] ∧ number.kind = .number
  | node .callExpression _ ts =>
    ∃ callee args, ts = [callee, args] ∧ IsBuiltinCall source callee args
  | _ => True

/-- **The trees that have a meaning.** -/
structure IsSupported (source : List Char) (t : Tree NodeKind) : Prop where
  node : ∀ u ∈ t.subtrees, u.IsSupportedNode source
  literal : ∀ s ∈ t.literals source "", ∃ v, Literal.read s = .ok v

/-! ## Supported trees, by their roots -/

section
variable {source : List Char}

theorem mem_forestLiterals {sign s : String} {ts : List (Tree NodeKind)} :
    s ∈ forestLiterals source sign ts ↔ ∃ t ∈ ts, s ∈ t.literals source sign := by
  induction ts with
  | nil => simp [forestLiterals]
  | cons t ts ih => simp [forestLiterals, ih]

theorem literals_node {k : NodeKind} (hnumber : k ≠ .number) (hsign : k ≠ .unaryExpression)
    (sign : String) (s : Span) (ts : List (Tree NodeKind)) :
    literals source sign (.node k s ts) = forestLiterals source "" ts := by
  rw [literals]
  · exact hnumber
  · exact fun _ _ h => absurd h hsign

/-- A node that is neither a number nor signed is supported if it is so by itself and its
children are. -/
theorem isSupported_node {k : NodeKind} (hnumber : k ≠ .number) (hsign : k ≠ .unaryExpression)
    {s : Span} {ts : List (Tree NodeKind)} :
    IsSupported source (.node k s ts) ↔
      IsSupportedNode source (.node k s ts) ∧ ∀ t ∈ ts, IsSupported source t := by
  constructor
  · intro h
    refine ⟨h.node _ (mem_subtrees_self _), fun t ht => ⟨fun u hu => ?_, fun x hx => ?_⟩⟩
    · exact h.node u (subtrees_subset ht hu)
    · apply h.literal
      rw [literals_node hnumber hsign]
      exact mem_forestLiterals.mpr ⟨t, ht, hx⟩
  · rintro ⟨hnode, hts⟩
    refine ⟨fun u hu => ?_, fun x hx => ?_⟩
    · rcases List.mem_cons.mp hu with rfl | hu
      · exact hnode
      · obtain ⟨t, ht, hu⟩ := mem_forestSubtrees.mp hu
        exact (hts t ht).node u hu
    · rw [literals_node hnumber hsign] at hx
      obtain ⟨t, ht, hx⟩ := mem_forestLiterals.mp hx
      exact (hts t ht).literal x hx

/-- A leaf is supported, unless it is a number. -/
theorem isSupported_leaf {k : NodeKind} (hk : isWord k = true) (hnumber : k ≠ .number)
    (l : Lexeme) : IsSupported source (Grammar.leaf k l) := by
  have hsign : k ≠ .unaryExpression := by
    rintro rfl
    cases hk
  refine (isSupported_node hnumber hsign).mpr ⟨?_, List.forall_mem_nil _⟩
  cases k with
  | parenthesizedExpression | binaryExpression | unaryExpression | callExpression => cases hk
  | _ => trivial

/-- A tree with one literal is supported if that can be read, given that its nodes have a
meaning. -/
theorem isSupported_iff_read {t : Tree NodeKind} {s : String}
    (hliterals : t.literals source "" = [s])
    (hnode : ∀ u ∈ t.subtrees, u.IsSupportedNode source) :
    IsSupported source t ↔ ∃ v, Literal.read s = .ok v := by
  constructor
  · intro h
    apply h.literal
    rw [hliterals]
    exact List.mem_singleton_self s
  · intro h
    refine ⟨hnode, fun x hx => ?_⟩
    rw [hliterals] at hx
    obtain rfl := List.mem_singleton.mp hx
    exact h

/-- A number is supported if it is a literal. -/
theorem isSupported_number {l : Lexeme} (hl : l.Genuine source) :
    IsSupported source (Grammar.leaf .number l) ↔ ∃ v, Literal.read l.text = .ok v := by
  apply isSupported_iff_read
  · rw [Grammar.leaf, leaf, literals, hl.text_eq, String.empty_append]
  · intro u hu
    obtain rfl := List.mem_singleton.mp hu
    trivial

/-- A signed number is supported if it is a literal with its sign. -/
theorem isSupported_signed {op l : Lexeme} (hop : op.Genuine source) (hl : l.Genuine source) :
    IsSupported source (spanning .unaryExpression (Grammar.leaf .arithOp op)
        [Grammar.leaf .number l]) ↔
      ∃ v, Literal.read (op.text ++ l.text) = .ok v := by
  apply isSupported_iff_read
  · rw [← hop.text_eq, ← hl.text_eq]
    rfl
  · intro u hu
    simp only [spanning, subtrees, forestSubtrees, Grammar.leaf, leaf, List.mem_cons,
      List.append_nil, List.cons_append, List.nil_append, List.not_mem_nil, or_false] at hu
    rcases hu with rfl | rfl | rfl
    · exact ⟨_, _, rfl, rfl⟩
    · trivial
    · trivial

end

end Tree

/-! ## Readings that decide -/

/-- The faults that the tree of a script can have at a word. -/
def Fault.isOfScript : Fault → Bool
  | unsupportedOperator _ | signWithoutNumber | invalidLiteral _ | literalOutOfRange _
  | unknownBuiltin _ | missingArgument _ | noComma _ | notClosed _ => true
  | _ => false

/-- **A flaw of the tree of a script**: a fault at a word, or an expression in parentheses. -/
def Flaw.IsOfScript (t : Tree NodeKind) (f : Flaw) : Prop :=
  f.fault.isOfScript = true ∨
    (f.fault = .notExpression NodeKind.parenthesizedExpression.tag ∧
      ∃ u ∈ t.subtrees, u.kind = .parenthesizedExpression ∧ f.span = u.span)

namespace Reading
variable {α β : Type} {source : List Char} {P Q : Prop} {t u : Tree NodeKind}
  {r : Except Flaw α}

/-- **A reading decides** whether `P` holds: it succeeds if so, and has a flaw of `t` if not. -/
def Decides (P : Prop) (t : Tree NodeKind) : Except Flaw α → Prop
  | .ok _ => P
  | .error f => ¬P ∧ f.IsOfScript t

theorem Decides.congr (h : Decides P t r) (hPQ : P ↔ Q) : Decides Q t r := by
  rwa [← hPQ]

/-- What decides by flaws of a tree does so by flaws of a tree around it. -/
theorem Decides.of_subset (h : Decides P u r) (hsub : u.subtrees ⊆ t.subtrees) :
    Decides P t r := by
  cases r with
  | ok a => exact h
  | error f =>
    obtain ⟨hP, hscript | ⟨hfault, v, hv, hgroup⟩⟩ := h
    · exact ⟨hP, .inl hscript⟩
    · exact ⟨hP, .inr ⟨hfault, v, hsub hv, hgroup⟩⟩

/-- **Two readings, one after the other, decide two things.** -/
theorem Decides.bind {g : α → Except Flaw β} (h : Decides P t r)
    (hg : ∀ a, r = .ok a → Decides Q t (g a)) : Decides (P ∧ Q) t (r >>= g) := by
  cases r with
  | ok a =>
    have ha : Decides Q t (g a) := hg a rfl
    exact ha.congr (by rw [show P = True from eq_true h, true_and])
  | error f => exact ⟨fun hPQ => h.1 hPQ.1, h.2⟩

/-- What is made of a reading decides as the reading does. -/
theorem Decides.map (h : Decides P t r) (g : α → β) : Decides P t (do .ok (g (← r))) := by
  cases r with
  | ok a => exact h
  | error f => exact h

/-- A fault at a word, where `P` cannot hold. -/
theorem decides_flaw {fault : Fault} (hfault : fault.isOfScript = true) (hP : ¬P)
    (u : Tree NodeKind) : Decides P t (flaw u fault : Except Flaw α) :=
  ⟨hP, .inl hfault⟩

theorem nextTo_pos {test : Option NodeKind → Bool} (h : test (some u.kind) = true) (fault : Fault)
    (us : List (Tree NodeKind)) : nextTo test fault t (u :: us) = .ok (u, us) := by
  rw [nextTo, kind?_eq_kind, if_pos h]

theorem nextTo_neg {test : Option NodeKind → Bool} (h : test (some u.kind) = false)
    (fault : Fault) (us : List (Tree NodeKind)) :
    nextTo test fault t (u :: us) = flaw u fault := by
  rw [nextTo, kind?_eq_kind, if_neg (Bool.eq_false_iff.mp h)]

theorem isOfScript_of_read {s : String} {fault : Fault} (h : Literal.read s = .error fault) :
    fault.isOfScript = true := by
  simp only [Literal.read] at h
  split at h
  · cases h
    rfl
  split at h
  · split at h
    · cases h
    · cases h
      rfl
  · cases h
    rfl

theorem decides_literal (u : Tree NodeKind) (s : String) :
    Decides (∃ v, Literal.read s = .ok v) t (literal u s) := by
  unfold literal
  split
  · rename_i v hv
    exact ⟨v, hv⟩
  · rename_i fault hfault
    refine decides_flaw (isOfScript_of_read hfault) ?_ u
    rintro ⟨v, hv⟩
    rw [hv] at hfault
    cases hfault

theorem mem_of_ofText? {s : String} {op : ArithOp} (h : ArithOp.ofText? s = some op) :
    s ∈ ["+", "-", "*"] := by
  unfold ArithOp.ofText? at h
  split at h
  · exact .head _
  · exact .tail _ (.head _)
  · exact .tail _ (.tail _ (.head _))
  · cases h

theorem decides_operator {op : Lexeme} (hop : op.Genuine source) :
    Decides (op.text ∈ ["+", "-", "*"]) t (operator source (leaf .arithOp op)) := by
  have hkind : kind? (leaf .arithOp op) = some .arithOp := kind?_eq_kind _
  rw [operator, if_pos hkind, hop.text_leaf]
  split
  · rename_i o ho
    exact mem_of_ofText? ho
  · rename_i hnone
    refine decides_flaw rfl (fun hmem => ?_) _
    simp only [List.mem_cons, List.not_mem_nil, or_false] at hmem
    rcases hmem with htext | htext | htext <;> rw [htext] at hnone <;> cases hnone

end Reading

end ArithWat
