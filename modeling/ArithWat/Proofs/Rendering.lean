import ArithWat.Tree

/-!
# The written shape of a tree can be read back

A written shape has no lengths in it, and its marks `(`, `)` and `,` are kinds of nodes as well.
Still it determines the shape (`Tree.render_eq_iff_sameShape`).  As kinds the marks stand in quotes,
and no kind is written as the beginning of another (`NodeKind.eq_of_render_isPrefix`), so the kind
at the root can be told from what follows it.  If that is an opening parenthesis, there are
children.  Each of them ends before a comma or the closing parenthesis, so it can be told from the
next as well (`Tree.sameShape_of_append`).
-/

namespace ArithWat

/-! ## Kinds -/

namespace NodeKind

theorem mem_all (k : NodeKind) : k ∈ all := by
  cases k <;> decide

/-- No kind is written as the beginning of another. -/
theorem eq_of_render_isPrefix {k k' : NodeKind} (h : k.render.toList <+: k'.render.toList) :
    k = k' := by
  have hall : ∀ k ∈ all, ∀ k' ∈ all, k.render.toList <+: k'.render.toList → k = k' := by
    decide +kernel
  exact hall k k.mem_all k' k'.mem_all h

/-- A kind at the front of a text can be told from what follows it. -/
theorem render_append_inj {k k' : NodeKind} {xs ys : List Char}
    (h : k.render.toList ++ xs = k'.render.toList ++ ys) : k = k' ∧ xs = ys := by
  have hkind : k = k' := by
    rcases List.append_eq_append_iff.mp h with ⟨more, hmore, -⟩ | ⟨more, hmore, -⟩
    · exact eq_of_render_isPrefix ⟨more, hmore.symm⟩
    · exact (eq_of_render_isPrefix ⟨more, hmore.symm⟩).symm
  subst hkind
  exact ⟨rfl, List.append_cancel_left h⟩

end NodeKind

/-! ## Trees -/

namespace Tree

section
variable {κ : Type}

mutual

/-- **Trees of the same shape** have the same kind at the root, and children of the same shapes in
the same order. -/
def SameShape : Tree κ → Tree κ → Prop
  | node k _ ts, node k' _ us => k = k' ∧ SameShapes ts us

/-- Lists of trees of the same shapes, in the same order. -/
def SameShapes : List (Tree κ) → List (Tree κ) → Prop
  | [], [] => True
  | t :: ts, u :: us => t.SameShape u ∧ SameShapes ts us
  | _, _ => False

end

end

@[simp] theorem toList_render_leaf (k : NodeKind) (s : Span) :
    (node k s []).render.toList = k.render.toList := rfl

@[simp] theorem toList_render_node (k : NodeKind) (s : Span) (t : Tree NodeKind)
    (ts : List (Tree NodeKind)) :
    (node k s (t :: ts)).render.toList =
      k.render.toList ++ '(' :: (t.render.toList ++ ((renderMore ts).toList ++ [')'])) := by
  simp [render]

@[simp] theorem toList_renderMore_cons (t : Tree NodeKind) (ts : List (Tree NodeKind)) :
    (renderMore (t :: ts)).toList = ',' :: (t.render.toList ++ (renderMore ts).toList) := by
  simp [renderMore]

/-- What can follow a tree in the written shape of another: a mark that ends it, or nothing. -/
def EndsTree (xs : List Char) : Prop := ∀ c ∈ xs.head?, c = ',' ∨ c = ')'

theorem endsTree_nil : EndsTree [] := by
  intro c hc
  cases hc

theorem EndsTree.ne_open {xs : List Char} (h : EndsTree xs) (ys : List Char) : xs ≠ '(' :: ys := by
  rintro rfl
  rcases h '(' rfl with h | h <;> revert h <;> decide

/-- A tree is followed by its siblings and the parenthesis that closes them. -/
theorem endsTree_renderMore (ts : List (Tree NodeKind)) (xs : List Char) :
    EndsTree ((renderMore ts).toList ++ ')' :: xs) := by
  rcases ts with _ | ⟨t, ts⟩
  · rintro c ⟨⟩
    exact .inr rfl
  · rw [toList_renderMore_cons]
    rintro c ⟨⟩
    exact .inl rfl

mutual

/-- **A tree at the front of a text can be told from what follows it**, up to its shape. -/
theorem sameShape_of_append : (t u : Tree NodeKind) → {xs ys : List Char} → EndsTree xs →
    EndsTree ys → t.render.toList ++ xs = u.render.toList ++ ys → t.SameShape u ∧ xs = ys
  | node k s [], node k' s' [], xs, ys, _, _, h => by
    obtain ⟨hkind, hrest⟩ := NodeKind.render_append_inj h
    exact ⟨⟨hkind, trivial⟩, hrest⟩
  | node k s [], node k' s' (u :: us), xs, ys, hxs, _, h => by
    rw [toList_render_leaf, toList_render_node, List.append_assoc] at h
    exact absurd (NodeKind.render_append_inj h).2 (hxs.ne_open _)
  | node k s (t :: ts), node k' s' [], xs, ys, _, hys, h => by
    rw [toList_render_leaf, toList_render_node, List.append_assoc] at h
    exact absurd (NodeKind.render_append_inj h).2.symm (hys.ne_open _)
  | node k s (t :: ts), node k' s' (u :: us), xs, ys, _, _, h => by
    simp only [toList_render_node, List.append_assoc, List.cons_append, List.nil_append] at h
    obtain ⟨hkind, hbelow⟩ := NodeKind.render_append_inj h
    obtain ⟨hfirst, hmore⟩ := sameShape_of_append t u (endsTree_renderMore ts xs)
      (endsTree_renderMore us ys) (List.cons.inj hbelow).2
    obtain ⟨hmore, hrest⟩ := sameShapes_of_append ts us hmore
    exact ⟨⟨hkind, hfirst, hmore⟩, hrest⟩

/-- Further children can be told from what follows the parenthesis that closes them. -/
theorem sameShapes_of_append : (ts us : List (Tree NodeKind)) → {xs ys : List Char} →
    (renderMore ts).toList ++ ')' :: xs = (renderMore us).toList ++ ')' :: ys →
      SameShapes ts us ∧ xs = ys
  | [], [], xs, ys, h => ⟨trivial, (List.cons.inj h).2⟩
  | [], u :: us, xs, ys, h => by
    rw [toList_renderMore_cons] at h
    exact absurd (List.cons.inj h).1 (by decide)
  | t :: ts, [], xs, ys, h => by
    rw [toList_renderMore_cons] at h
    exact absurd (List.cons.inj h).1 (by decide)
  | t :: ts, u :: us, xs, ys, h => by
    simp only [toList_renderMore_cons, List.cons_append, List.append_assoc] at h
    obtain ⟨hfirst, hmore⟩ := sameShape_of_append t u (endsTree_renderMore ts xs)
      (endsTree_renderMore us ys) (List.cons.inj h).2
    obtain ⟨hmore, hrest⟩ := sameShapes_of_append ts us hmore
    exact ⟨⟨hfirst, hmore⟩, hrest⟩

end

mutual

theorem SameShape.render_eq : (t u : Tree NodeKind) → t.SameShape u → t.render = u.render
  | node k s [], node k' s' [], ⟨hkind, _⟩ => by rw [hkind]; rfl
  | node k s (t :: ts), node k' s' (u :: us), ⟨hkind, hfirst, hmore⟩ => by
    rw [render, render, hkind, SameShape.render_eq t u hfirst, SameShapes.renderMore_eq ts us hmore]

theorem SameShapes.renderMore_eq : (ts us : List (Tree NodeKind)) → SameShapes ts us →
    renderMore ts = renderMore us
  | [], [], _ => rfl
  | t :: ts, u :: us, ⟨hfirst, hmore⟩ => by
    rw [renderMore, renderMore, SameShape.render_eq t u hfirst,
      SameShapes.renderMore_eq ts us hmore]

end

/-- **The written shape of a tree determines its shape**, and says no more. -/
theorem render_eq_iff_sameShape (t u : Tree NodeKind) : t.render = u.render ↔ t.SameShape u := by
  refine ⟨fun h => ?_, SameShape.render_eq t u⟩
  have hchars : t.render.toList ++ [] = u.render.toList ++ [] := by rw [h]
  exact (sameShape_of_append t u endsTree_nil endsTree_nil hchars).1

end Tree

end ArithWat
