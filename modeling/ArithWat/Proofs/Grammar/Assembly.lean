import ArithWat.Proofs.Supported

/-!
# Trees assembled from lexemes

A tree is *assembled* from a list of lexemes if its leaves are the lexemes, one after the other,
and every other node spans its children (`Assembled`).  Whatever the grammar derives is assembled
from the lexemes that it is derived from, and a script from those that are no separators
(`IsScript.allAssembled`).

The rest follows from this alone.  Every subtree is assembled from some of the lexemes
(`Assembled.subtree`) and its span goes from the first of them to the last
(`Assembled.covers`).  The lexemes of a script stand one after the other without touching
(`Scan.inOrder_lexemes`), and so do the spans of the children of a node.
-/

namespace ArithWat

/-! ## Lexemes in order -/

namespace Lexeme

/-- **Lexemes in order**: none is empty, and each ends before the next begins. -/
structure InOrder (ls : List Lexeme) : Prop where
  start_lt_stop : ∀ l ∈ ls, l.span.start < l.span.stop
  pairwise : ls.Pairwise fun l l' => l.span.stop ≤ l'.span.start

theorem InOrder.sublist {ls part : List Lexeme} (h : InOrder ls) (hpart : part.Sublist ls) :
    InOrder part where
  start_lt_stop l hl := h.start_lt_stop l (hpart.subset hl)
  pairwise := h.pairwise.sublist hpart

/-- The span from the first of some lexemes to the last of them. -/
def Covers (ls : List Lexeme) (span : Span) : Prop :=
  ∃ first ∈ ls.head?, ∃ last ∈ ls.getLast?, span = first.span.cover last.span

theorem covers_singleton (l : Lexeme) : Covers [l] l.span :=
  ⟨l, rfl, l, rfl, rfl⟩

/-- What covers the first lexemes and what covers the last lead from the first to the last. -/
theorem Covers.append {ls rs : List Lexeme} {s s' : Span} (h : Covers ls s) (h' : Covers rs s') :
    Covers (ls ++ rs) (s.cover s') := by
  obtain ⟨first, hfirst, _, -, rfl⟩ := h
  obtain ⟨_, -, last, hlast, rfl⟩ := h'
  refine ⟨first, ?_, last, ?_, rfl⟩
  · rw [Option.mem_def] at hfirst ⊢
    rw [List.head?_append, hfirst, Option.some_or]
  · rw [Option.mem_def] at hlast ⊢
    rw [List.getLast?_append, hlast, Option.some_or]

section
variable {ls part : List Lexeme} {s s' : Span}

/-- A covering span begins with a lexeme and ends with one. -/
theorem Covers.exists_mem (h : Covers ls s) :
    ∃ first ∈ ls, ∃ last ∈ ls, s.start = first.span.start ∧ s.stop = last.span.stop := by
  obtain ⟨first, hfirst, last, hlast, rfl⟩ := h
  exact ⟨first, List.mem_of_mem_head? hfirst, last, List.mem_of_mem_getLast? hlast, rfl, rfl⟩

/-- No lexeme begins before the covering span, and none ends after it. -/
theorem Covers.contains (h : Covers ls s) (horder : InOrder ls) :
    ∀ l ∈ ls, s.start ≤ l.span.start ∧ l.span.stop ≤ s.stop := by
  obtain ⟨first, hfirst, last, hlast, rfl⟩ := h
  obtain ⟨rs, rfl⟩ := List.head?_eq_some_iff.mp hfirst
  obtain ⟨fs, hls⟩ := List.getLast?_eq_some_iff.mp hlast
  intro l hl
  constructor
  · rcases List.mem_cons.mp hl with rfl | hl'
    · exact Nat.le_refl _
    · have hstop := (List.pairwise_cons.mp horder.pairwise).1 l hl'
      exact Nat.le_trans (Nat.le_of_lt (horder.start_lt_stop first (.head _))) hstop
  · have hlast := horder.start_lt_stop last (by simp [hls])
    have hpairwise := horder.pairwise
    rw [hls] at hl hpairwise
    rcases List.mem_append.mp hl with hl' | hl'
    · have hstop := (List.pairwise_append.mp hpairwise).2.2 l hl' last (.head _)
      exact Nat.le_trans hstop (Nat.le_of_lt hlast)
    · rw [List.mem_singleton.mp hl']
      exact Nat.le_refl _

theorem Covers.start_lt_stop (h : Covers ls s) (horder : InOrder ls) : s.start < s.stop := by
  obtain ⟨first, hfirst, -, -, hstart, -⟩ := h.exists_mem
  have hlt := horder.start_lt_stop first hfirst
  have hle := (h.contains horder first hfirst).2
  omega

/-- **What covers some of the lexemes lies within what covers them all.** -/
theorem Covers.within (h : Covers part s) (hpart : part.Sublist ls) (h' : Covers ls s')
    (horder : InOrder ls) : s'.start ≤ s.start ∧ s.stop ≤ s'.stop := by
  obtain ⟨first, hfirst, last, hlast, hstart, hstop⟩ := h.exists_mem
  have hcontains := h'.contains horder
  rw [hstart, hstop]
  exact ⟨(hcontains first (hpart.subset hfirst)).1, (hcontains last (hpart.subset hlast)).2⟩

end

end Lexeme

namespace Scan

theorem byteSize_text_pos (p : Piece) : 0 < Text.byteSize p.text := by
  have := p.first.utf8Size_pos
  rw [Piece.text, Text.byteSize]
  omega

theorem offset_le_of_mem_lexemesFrom {offset : Nat} {ps : List Piece} {l : Lexeme}
    (hl : l ∈ lexemesFrom offset ps) : offset ≤ l.span.start := by
  induction ps generalizing offset with
  | nil => cases hl
  | cons p ps ih =>
    have hmore : l ∈ lexemesFrom (offset + Text.byteSize p.text) ps → offset ≤ l.span.start :=
      fun hl => Nat.le_trans (Nat.le_add_right _ _) (ih hl)
    unfold lexemesFrom at hl
    split at hl
    · rcases List.mem_cons.mp hl with rfl | hl
      · exact Nat.le_refl _
      · exact hmore hl
    · exact hmore hl

theorem inOrder_lexemesFrom (offset : Nat) (ps : List Piece) :
    Lexeme.InOrder (lexemesFrom offset ps) := by
  induction ps generalizing offset with
  | nil => exact ⟨List.forall_mem_nil _, .nil⟩
  | cons p ps ih =>
    obtain ⟨hlt, hpairwise⟩ := ih (offset + Text.byteSize p.text)
    unfold lexemesFrom
    split
    · refine ⟨List.forall_mem_cons.mpr ⟨?_, hlt⟩, List.pairwise_cons.mpr ⟨?_, hpairwise⟩⟩
      · exact Nat.lt_add_of_pos_right (byteSize_text_pos p)
      · exact fun l hl => offset_le_of_mem_lexemesFrom hl
    · exact ⟨hlt, hpairwise⟩

/-- **The lexemes of a script stand in order.** -/
theorem inOrder_lexemes {source : List Char} {ls : List Lexeme} (h : lexemes source = .ok ls) :
    Lexeme.InOrder ls := by
  obtain ⟨-, rfl⟩ := lexemes_eq_ok_iff.mp h
  exact inOrder_lexemesFrom 0 _

theorem inOrder_significant {source : List Char} {ls : List Lexeme} (h : lexemes source = .ok ls) :
    Lexeme.InOrder (Lexeme.significant 0 ls) :=
  (inOrder_lexemes h).sublist (Lexeme.significant_sublist 0 ls)

end Scan

/-! ## Leaves -/

/-- **The kind of the leaf that a token becomes.**  Separators become none. -/
def Token.leafKind? : Token → Option NodeKind
  | .name => some .variableName
  | .number => some .number
  | .assign => some .assignOp
  | .plus | .minus | .star | .slash | .doubleSlash | .percent => some .arithOp
  | .openParen => some .openParen
  | .closeParen => some .closeParen
  | .comma => some .comma
  | .semicolon | .newline => none

theorem Token.leafKind?_of_isAdditive {t : Token} (h : t.isAdditive = true) :
    t.leafKind? = some .arithOp := by
  cases t with
  | plus | minus => rfl
  | _ => cases h

theorem Token.leafKind?_of_isMultiplicative {t : Token} (h : t.isMultiplicative = true) :
    t.leafKind? = some .arithOp := by
  cases t with
  | star | slash | doubleSlash | percent => rfl
  | _ => cases h

theorem Token.leafKind?_of_isSeparator {t : Token} (h : t.isSeparator = true) :
    t.leafKind? = none := by
  cases t with
  | semicolon | newline => rfl
  | _ => cases h

theorem Token.isWord_of_leafKind? {t : Token} {k : NodeKind} (h : t.leafKind? = some k) :
    Tree.isWord k = true := by
  cases t <;> cases h <;> rfl

/-- The leaf that a lexeme becomes: its kind, and the span of the lexeme. -/
def Lexeme.leaf? (l : Lexeme) : Option (NodeKind × Span) := l.token.leafKind?.map (·, l.span)

theorem Lexeme.leaf?_eq_some {l : Lexeme} {k : NodeKind} (h : l.token.leafKind? = some k) :
    l.leaf? = some (k, l.span) := by
  rw [leaf?, h, Option.map_some]

namespace Tree
variable {κ : Type}

mutual

/-- **The leaves of a tree**, from the left: the kinds and spans of the nodes without children. -/
def leaves : Tree κ → List (κ × Span)
  | node k s [] => [(k, s)]
  | node _ _ (t :: ts) => t.leaves ++ forestLeaves ts

/-- The leaves of a list of trees. -/
def forestLeaves : List (Tree κ) → List (κ × Span)
  | [] => []
  | t :: ts => t.leaves ++ forestLeaves ts

end

end Tree

/-! ## Assembled trees -/

namespace Grammar

mutual

/-- **The trees assembled from lexemes.** -/
inductive Assembled : List Lexeme → Tree NodeKind → Prop
  | word {l k} : l.token.leafKind? = some k → Assembled [l] (leaf k l)
  | node {ls k first more} : Tree.isWord k = false → AllAssembled ls (first :: more) →
      Assembled ls (.spanning k first more)

/-- The lists of trees assembled from lexemes, each tree from those after the trees before it. -/
inductive AllAssembled : List Lexeme → List (Tree NodeKind) → Prop
  | nil : AllAssembled [] []
  | cons {ls rs t ts} : Assembled ls t → AllAssembled rs ts → AllAssembled (ls ++ rs) (t :: ts)

end

theorem Assembled.singleton {ls t} (h : Assembled ls t) : AllAssembled ls [t] := by
  have hcons := AllAssembled.cons h .nil
  rwa [List.append_nil] at hcons

theorem allAssembled_cons_leaf {l : Lexeme} {k : NodeKind} {ls ts}
    (hl : l.token.leafKind? = some k) (h : AllAssembled ls ts) :
    AllAssembled (l :: ls) (leaf k l :: ts) :=
  .cons (.word hl) h

theorem AllAssembled.append {ls rs ts us} (h : AllAssembled ls ts) (h' : AllAssembled rs us) :
    AllAssembled (ls ++ rs) (ts ++ us) := by
  induction ts generalizing ls with
  | nil =>
    cases h
    exact h'
  | cons t ts ih =>
    cases h with
    | cons ht hts =>
      rw [List.append_assoc]
      exact .cons ht (ih hts)

/-- What stands in parentheses, with the parentheses. -/
theorem AllAssembled.parens {ls ts} {l l' : Lexeme} (h : AllAssembled ls ts)
    (hl : l.token = .openParen) (hl' : l'.token = .closeParen) :
    AllAssembled (l :: (ls ++ [l'])) (leaf .openParen l :: (ts ++ [leaf .closeParen l'])) := by
  have hopen : l.token.leafKind? = some .openParen := by rw [hl]; rfl
  have hclose : l'.token.leafKind? = some .closeParen := by rw [hl']; rfl
  exact allAssembled_cons_leaf hopen (h.append (allAssembled_cons_leaf hclose .nil))

theorem assembled_binary {ls rs left right} {op : Lexeme} (hl : Assembled ls left)
    (hop : op.token.leafKind? = some .arithOp) (hr : Assembled rs right) :
    Assembled (ls ++ op :: rs) (.spanning .binaryExpression left [leaf .arithOp op, right]) :=
  .node rfl (.cons hl (allAssembled_cons_leaf hop hr.singleton))

/-! ## Derivations are assembled -/

mutual

/-- **A derived expression is assembled from its lexemes.** -/
theorem IsSum.assembled {ls t} : IsSum ls t → Assembled ls t
  | .product h => h.assembled
  | .more hl hop hr =>
    assembled_binary hl.assembled (Token.leafKind?_of_isAdditive (Token.isAdditive_iff.mpr hop))
      hr.assembled

theorem IsProduct.assembled {ls t} : IsProduct ls t → Assembled ls t
  | .operand h => h.assembled
  | .more hl hop hr =>
    assembled_binary hl.assembled
      (Token.leafKind?_of_isMultiplicative (Token.isMultiplicative_iff.mpr hop)) hr.assembled

theorem IsOperand.assembled {ls t} : IsOperand ls t → Assembled ls t
  | .signed hop h =>
    .node rfl (allAssembled_cons_leaf (Token.leafKind?_of_isAdditive (Token.isAdditive_iff.mpr hop))
      h.assembled.singleton)
  | .applied h => h.assembled

theorem IsApplied.assembled {ls t} : IsApplied ls t → Assembled ls t
  | .atom h => h.assembled
  | .call h hargs => .node rfl (.cons h.assembled hargs.assembled.singleton)

theorem IsAtom.assembled {ls t} : IsAtom ls t → Assembled ls t
  | .number h => .word (by rw [h]; rfl)
  | .name h => .word (by rw [h]; rfl)
  | .group ho h hc => .node rfl (h.assembled.singleton.parens ho hc)

theorem IsArgList.assembled {ls t} : IsArgList ls t → Assembled ls t
  | .parens ho h hc => .node rfl (h.allAssembled.parens ho hc)

theorem AreArguments.allAssembled {ls ts} : AreArguments ls ts → AllAssembled ls ts
  | .none => .nil
  | .last h => h.assembled.singleton
  | .more h hcomma hs =>
    .cons h.assembled (allAssembled_cons_leaf (by rw [hcomma]; rfl) hs.allAssembled)

end

theorem IsStatement.assembled {ls t} (h : IsStatement ls t) : Assembled ls t := by
  cases h with
  | @assign ls l l' e hl hl' h =>
    have hname : l.token.leafKind? = some .variableName := by rw [hl]; rfl
    have hassign : l'.token.leafKind? = some .assignOp := by rw [hl']; rfl
    exact .node rfl (allAssembled_cons_leaf hname
      (allAssembled_cons_leaf hassign h.assembled.singleton))
  | expression h => exact .node rfl h.assembled.singleton

end Grammar

/-- The lexemes that are no separators. -/
def Lexeme.words (ls : List Lexeme) : List Lexeme := ls.filter (!·.token.isSeparator)

theorem Lexeme.words_append (ls rs : List Lexeme) : words (ls ++ rs) = words ls ++ words rs :=
  List.filter_append ..

namespace Grammar

theorem words_eq_nil {seps : List Lexeme} (h : ∀ l ∈ seps, l.token.isSeparator = true) :
    Lexeme.words seps = [] := by
  refine List.filter_eq_nil_iff.mpr fun l hl => ?_
  rw [h l hl]
  exact Bool.false_ne_true

/-- No lexeme of a statement is a separator. -/
theorem IsStatement.words_eq {ls t} (h : IsStatement ls t) : Lexeme.words ls = ls := by
  have hinner : ∀ {t : Token}, isInner t = true → (!t.isSeparator) = true := by
    intro t ht
    cases t with
    | assign | semicolon | newline => cases ht
    | _ => rfl
  refine List.filter_eq_self.mpr ?_
  cases h with
  | assign hl hl' h =>
    simp only [List.forall_mem_cons]
    exact ⟨by rw [hl]; rfl, by rw [hl']; rfl, fun l hl => hinner (h.isInner l hl)⟩
  | expression h => exact fun l hl => hinner (h.isInner l hl)

/-- **A derived script is assembled from its words.** -/
theorem IsScript.allAssembled {ls ts} (h : IsScript ls ts) :
    AllAssembled (Lexeme.words ls) ts := by
  induction h using IsScript.induction with
  | blank hseps =>
    rw [words_eq_nil hseps]
    exact .nil
  | more hseps hstmt _ _ ih =>
    rw [Lexeme.words_append, Lexeme.words_append, words_eq_nil hseps, hstmt.words_eq,
      List.nil_append]
    exact .cons hstmt.assembled ih

/-! ## What assembled trees are like -/

mutual

/-- **The leaves of an assembled tree are its lexemes.** -/
theorem Assembled.leaves_eq {ls t} : Assembled ls t → t.leaves = ls.filterMap Lexeme.leaf?
  | .word hl => by
    rw [List.filterMap_cons_some (Lexeme.leaf?_eq_some hl)]
    rfl
  | .node _ h => h.leaves_eq

theorem AllAssembled.leaves_eq {ls ts} :
    AllAssembled ls ts → Tree.forestLeaves ts = ls.filterMap Lexeme.leaf?
  | .nil => rfl
  | .cons h hs => by
    rw [List.filterMap_append, Tree.forestLeaves, h.leaves_eq, hs.leaves_eq]

end

mutual

/-- **The span of an assembled tree goes from its first lexeme to its last.** -/
theorem Assembled.covers {ls t} : Assembled ls t → Lexeme.Covers ls t.span
  | .word _ => Lexeme.covers_singleton _
  | .node _ h => h.covers rfl

theorem AllAssembled.covers {ls ts} : AllAssembled ls ts → ∀ {first more}, ts = first :: more →
    Lexeme.Covers ls (first.span.cover ((first :: more).getLastD first).span)
  | .nil, _, _, heq => by cases heq
  | @AllAssembled.cons ls rs t ts h hs, first, more, heq => by
    have hfirst := h.covers
    have hmore := @hs.covers
    cases heq
    rcases ts with _ | ⟨second, ts⟩
    · cases hs
      rw [List.append_nil]
      exact hfirst
    · have hlast := hfirst.append (hmore rfl)
      rw [List.getLastD_cons] at hlast
      rw [List.getLastD_cons, List.getLastD_cons]
      exact hlast

end

mutual

/-- **Every subtree of an assembled tree is assembled from some of the lexemes.** -/
theorem Assembled.subtree {ls t} : Assembled ls t →
    ∀ u ∈ t.subtrees, ∃ part, part.Sublist ls ∧ Assembled part u
  | .word hl, u, hu => by
    obtain rfl := List.mem_singleton.mp hu
    exact ⟨_, .refl _, .word hl⟩
  | .node hk h, u, hu => by
    rcases List.mem_cons.mp hu with rfl | hu
    · exact ⟨_, .refl _, .node hk h⟩
    · exact h.subtree u hu

theorem AllAssembled.subtree {ls ts} : AllAssembled ls ts →
    ∀ u ∈ Tree.forestSubtrees ts, ∃ part, part.Sublist ls ∧ Assembled part u
  | .nil, u, hu => by cases hu
  | .cons h hs, u, hu => by
    rcases List.mem_append.mp hu with hu | hu
    · obtain ⟨part, hpart, hu⟩ := h.subtree u hu
      exact ⟨part, hpart.trans (List.sublist_append_left ..), hu⟩
    · obtain ⟨part, hpart, hu⟩ := hs.subtree u hu
      exact ⟨part, hpart.trans (List.sublist_append_right ..), hu⟩

end

theorem AllAssembled.of_mem {ls ts t} (h : AllAssembled ls ts) (ht : t ∈ ts) :
    ∃ part, part.Sublist ls ∧ Assembled part t :=
  h.subtree t (Tree.mem_forestSubtrees.mpr ⟨t, ht, t.mem_subtrees_self⟩)

/-- **Trees assembled one after another have spans in order.** -/
theorem AllAssembled.pairwise {ls ts} (h : AllAssembled ls ts) (horder : Lexeme.InOrder ls) :
    ts.Pairwise fun t u => t.span.stop ≤ u.span.start := by
  induction ts generalizing ls with
  | nil => exact .nil
  | cons t ts ih =>
    cases h with
    | @cons ls rs _ _ ht hts =>
      have horder' := horder.sublist (List.sublist_append_right ls rs)
      refine List.pairwise_cons.mpr ⟨fun u hu => ?_, ih hts horder'⟩
      obtain ⟨part, hpart, hu⟩ := hts.of_mem hu
      obtain ⟨-, -, last, hlast, -, hstop⟩ := ht.covers.exists_mem
      obtain ⟨first, hfirst, -, -, hstart, -⟩ := hu.covers.exists_mem
      rw [hstop, hstart]
      exact (List.pairwise_append.mp horder.pairwise).2.2 last hlast first (hpart.subset hfirst)

end Grammar

/-! ## The tree of a script -/

namespace Tree

/-- **A node spans its children** if it has any, from the first to the last. -/
def SpansChildren {κ : Type} (t : Tree κ) : Prop :=
  ∃ first ∈ t.children.head?, ∃ last ∈ t.children.getLast?,
    t.span = ⟨first.span.start, last.span.stop⟩

/-- **The children of a node stand in order**: each ends before the next begins, none is empty,
and all lie within the node. -/
structure ChildrenInOrder {κ : Type} (t : Tree κ) : Prop where
  pairwise : t.children.Pairwise fun u u' => u.span.stop ≤ u'.span.start
  start_lt_stop : ∀ u ∈ t.children, u.span.start < u.span.stop
  within : ∀ u ∈ t.children, t.span.start ≤ u.span.start ∧ u.span.stop ≤ t.span.stop

end Tree

namespace Grammar

theorem Assembled.children_eq_nil_or_spansChildren {ls t} (h : Assembled ls t) :
    if Tree.isWord t.kind then t.children = [] else t.SpansChildren := by
  cases h with
  | word hl =>
    rw [kind_leaf, if_pos (Token.isWord_of_leafKind? hl)]
    rfl
  | @node ls k first more hk h =>
    rw [Tree.kind_spanning, if_neg (by simp [hk])]
    refine ⟨first, rfl, (first :: more).getLastD first, ?_, rfl⟩
    rw [Tree.children_spanning, List.getLastD_cons, List.getLastD_eq_getLast?, List.getLast?_cons]
    rfl

theorem Assembled.childrenInOrder {ls t} (h : Assembled ls t) (horder : Lexeme.InOrder ls) :
    t.ChildrenInOrder := by
  have hcovers := h.covers
  cases h with
  | word hl => exact ⟨.nil, List.forall_mem_nil _, List.forall_mem_nil _⟩
  | node hk h =>
    refine ⟨h.pairwise horder, fun u hu => ?_, fun u hu => ?_⟩
    · obtain ⟨part, hpart, hu⟩ := h.of_mem hu
      exact hu.covers.start_lt_stop (horder.sublist hpart)
    · obtain ⟨part, hpart, hu⟩ := h.of_mem hu
      exact hu.covers.within hpart hcovers horder

end Grammar

open Grammar

theorem Lexeme.filterMap_leaf?_words (ls : List Lexeme) :
    (words ls).filterMap leaf? = ls.filterMap leaf? := by
  rw [words, List.filterMap_filter]
  refine List.filterMap_congr fun l _ => ?_
  cases hl : l.token.isSeparator with
  | false => rfl
  | true => rw [leaf?, Token.leafKind?_of_isSeparator hl]; rfl

/-- What a script must be to have a tree, and what the tree is then assembled from. -/
theorem Tree.exists_allAssembled_of_ofSource {source : List Char} {t : Tree NodeKind}
    (h : Tree.ofSource source = .ok t) :
    ∃ ls stmts, Scan.lexemes source = .ok ls ∧
      AllAssembled (Lexeme.words (Lexeme.significant 0 ls)) stmts ∧
      t = .node .script ⟨0, Text.byteSize source⟩ stmts := by
  simp only [Tree.ofSource, Except.bind_eq_ok_iff, Except.mapError_eq_ok_iff, script_eq_ok_iff] at h
  obtain ⟨ls, hscan, stmts, ⟨hscript, -⟩, ht⟩ := h
  exact ⟨ls, stmts, hscan, hscript.allAssembled, (Except.ok.inj ht).symm⟩

/-- **The tree of a script is faithful to its lexemes.**  Its leaves are the significant lexemes
that are no separators, in their order, each with its span and the kind of its token.  The root
spans the script; every other node is a word without children or spans its children; and the
children of any node stand in order within it. -/
theorem Tree.leaves_eq_of_ofSource {source : List Char} {t : Tree NodeKind}
    (h : Tree.ofSource source = .ok t) :
    ∃ ls, Scan.lexemes source = .ok ls ∧
      forestLeaves t.children = (Lexeme.significant 0 ls).filterMap Lexeme.leaf? ∧
      t.kind = .script ∧ t.span = ⟨0, Text.byteSize source⟩ ∧
      (∀ u ∈ forestSubtrees t.children,
        if isWord u.kind then u.children = [] else u.SpansChildren) ∧
      ∀ u ∈ t.subtrees, u.ChildrenInOrder := by
  obtain ⟨ls, stmts, hscan, hstmts, rfl⟩ := exists_allAssembled_of_ofSource h
  have hwords : (Lexeme.words (Lexeme.significant 0 ls)).Sublist (Lexeme.significant 0 ls) :=
    List.filter_sublist
  have horder := (Scan.inOrder_significant hscan).sublist hwords
  refine ⟨ls, hscan, ?_, rfl, rfl, fun u hu => ?_, fun u hu => ?_⟩
  · rw [← Lexeme.filterMap_leaf?_words]
    exact hstmts.leaves_eq
  · obtain ⟨part, -, hu⟩ := hstmts.subtree u hu
    exact hu.children_eq_nil_or_spansChildren
  rcases List.mem_cons.mp hu with rfl | hu
  · -- The root is the one node that is not assembled: it spans what is no lexeme as well.
    refine ⟨hstmts.pairwise horder, fun u hu => ?_, fun u hu => ⟨Nat.zero_le _, ?_⟩⟩
    · obtain ⟨part, hpart, hu⟩ := hstmts.of_mem hu
      exact hu.covers.start_lt_stop (horder.sublist hpart)
    · obtain ⟨part, hpart, hu⟩ := hstmts.of_mem hu
      obtain ⟨-, -, last, hlast, -, hstop⟩ := hu.covers.exists_mem
      rw [hstop]
      exact (Scan.genuine_of_significant hscan last (hwords.subset (hpart.subset hlast))).stop_le
  · obtain ⟨part, hpart, hu⟩ := hstmts.subtree u hu
    exact hu.childrenInOrder (horder.sublist hpart)

/-- A call over two lines, a sum that is grouped to the left, and layout at both ends. -/
theorem Tree.leaves_eq_of_ofSource_call :
    let source := " f(1,\n)\n;a-b*2 #".toList
    let t : Tree NodeKind :=
      .node .script ⟨0, 16⟩
        [.node .expressionStatement ⟨1, 7⟩
          [.node .callExpression ⟨1, 7⟩
            [.leaf .variableName ⟨1, 2⟩,
             .node .argList ⟨2, 7⟩
              [.leaf .openParen ⟨2, 3⟩, .leaf .number ⟨3, 4⟩, .leaf .comma ⟨4, 5⟩,
               .leaf .closeParen ⟨6, 7⟩]]],
         .node .expressionStatement ⟨9, 14⟩
          [.node .binaryExpression ⟨9, 14⟩
            [.leaf .variableName ⟨9, 10⟩, .leaf .arithOp ⟨10, 11⟩,
             .node .binaryExpression ⟨11, 14⟩
              [.leaf .variableName ⟨11, 12⟩, .leaf .arithOp ⟨12, 13⟩, .leaf .number ⟨13, 14⟩]]]]
    Tree.ofSource source = .ok t ∧ ∃ ls, Scan.lexemes source = .ok ls ∧
      forestLeaves t.children = (Lexeme.significant 0 ls).filterMap Lexeme.leaf? ∧
      ∀ u ∈ t.subtrees, u.ChildrenInOrder := by
  intro source t
  have htree : Tree.ofSource source = .ok t := by decide +kernel
  obtain ⟨ls, hscan, hleaves, -, -, -, horder⟩ := leaves_eq_of_ofSource htree
  exact ⟨htree, ls, hscan, hleaves, horder⟩

end ArithWat
