import ArithWat.Proofs.Grammar.Assembly
import ArithWat.Proofs.SetBeforeRead
import ArithWat.Proofs.WellFormed

/-!
# References in the order of the text

A program is read off its tree from left to right, so its references stand in the order of the
names in the script (`Grammar.refersInOrder_stmt`), and no two of them begin at the same byte
(`Script.pairwise_refs`).  The check of scopes goes through them in that order.  What it reports
is therefore the leftmost reference that no earlier statement defines
(`Script.leftmost_of_compile_error`).
-/

/-- Two elements of one list: one stands before the other, or they are the same. -/
theorem List.append_cons_eq_cases {α : Type} {xs xs' ys ys' : List α} {a a' : α}
    (h : xs ++ a :: ys = xs' ++ a' :: ys') :
    (∃ mid, xs' = xs ++ a :: mid ∧ ys = mid ++ a' :: ys') ∨ (xs = xs' ∧ a = a') ∨
      ∃ mid, xs = xs' ++ a' :: mid ∧ ys' = mid ++ a :: ys := by
  rcases List.append_eq_append_iff.mp h with ⟨mid, rfl, hmid⟩ | ⟨mid, rfl, hmid⟩
  · rcases List.cons_eq_append_iff.mp hmid with ⟨rfl, heq⟩ | ⟨mid, rfl, rfl⟩
    · exact .inr (.inl ⟨(List.append_nil _).symm, (List.cons.inj heq).1.symm⟩)
    · exact .inl ⟨mid, rfl, rfl⟩
  · rcases List.cons_eq_append_iff.mp hmid with ⟨rfl, heq⟩ | ⟨mid, rfl, rfl⟩
    · exact .inr (.inl ⟨List.append_nil _, (List.cons.inj heq).1⟩)
    · exact .inr (.inr ⟨mid, rfl, rfl⟩)

namespace ArithWat

/-! ## Names among the lexemes -/

theorem Token.Spells.exists_eq_cons {t : Token} {cs : List Char} (h : t.Spells cs) :
    ∃ c rest, cs = c :: rest := by
  cases t with
  | name =>
    cases cs with
    | nil => cases h
    | cons c rest => exact ⟨c, rest, rfl⟩
  | number =>
    obtain ⟨c, rest, hcs, -⟩ := h
    exact ⟨c, rest, hcs⟩
  | _ => exact ⟨_, _, h⟩

/-- **The text of a genuine lexeme is a slice of the script.** -/
theorem Lexeme.Genuine.slice?_text {source : List Char} {l : Lexeme} (hl : l.Genuine source) :
    Text.slice? source l.span.start l.span.stop = some l.text.toList := by
  obtain ⟨c, rest, htext⟩ := hl.spells.exists_eq_cons
  rw [htext]
  exact hl.slice?_eq htext

namespace Lexeme

/-- A lexeme as a reference, if it is a name. -/
def reference? (l : Lexeme) : Option (String × Span) :=
  if l.token = .name then some (l.text, l.span) else none

/-- **The names among lexemes**, as references. -/
def references (ls : List Lexeme) : List (String × Span) := ls.filterMap reference?

theorem references_append (ls rs : List Lexeme) :
    references (ls ++ rs) = references ls ++ references rs :=
  List.filterMap_append

theorem references_name {l : Lexeme} (h : l.token = .name) :
    references [l] = [(l.text, l.span)] := by
  simp [references, reference?, h]

theorem mem_references {ls : List Lexeme} {r : String × Span} :
    r ∈ references ls ↔ ∃ l ∈ ls, l.token = .name ∧ (l.text, l.span) = r := by
  simp [references, reference?, List.mem_filterMap]

theorem span_of_reference? {l : Lexeme} {r : String × Span} (h : l.reference? = some r) :
    r.2 = l.span := by
  unfold reference? at h
  split at h
  · cases h
    rfl
  · cases h

/-- References stand in the order of the text. -/
theorem InOrder.pairwise_references {ls : List Lexeme} (h : InOrder ls) :
    (references ls).Pairwise fun r r' => r.2.start < r'.2.start := by
  have hstart : ls.Pairwise fun l l' => l.span.start < l'.span.start :=
    h.pairwise.imp_of_mem fun hl _ hle => Nat.lt_of_lt_of_le (h.start_lt_stop _ hl) hle
  refine List.pairwise_filterMap.mpr (hstart.imp fun hlt r hr r' hr' => ?_)
  rw [span_of_reference? hr, span_of_reference? hr']
  exact hlt

end Lexeme

/-! ## Reading from left to right -/

namespace Grammar
open Lexeme Reading
variable {source : List Char} {α : Type}

/-- **A reading that refers to names in their order**: the references of what is read off a tree
are among the names that the tree is assembled from. -/
def RefersInOrder (source : List Char) (read : Tree NodeKind → Except Flaw α)
    (refs : α → List (String × Span)) : Prop :=
  ∀ ls t a, (∀ l ∈ ls, l.Genuine source) → Assembled ls t → read t = .ok a →
    (refs a).Sublist (references ls)

/-- Some of the trees of a list, read one after another, refer to names in their order. -/
theorem RefersInOrder.mapM {read : Tree NodeKind → Except Flaw α}
    {refs : α → List (String × Span)} (hread : RefersInOrder source read refs)
    {ls : List Lexeme} {us ts : List (Tree NodeKind)} (hus : us.Sublist ts)
    (h : AllAssembled ls ts) (hls : ∀ l ∈ ls, l.Genuine source) {as : List α}
    (has : us.mapM read = .ok as) : (as.flatMap refs).Sublist (references ls) := by
  induction hus generalizing ls as with
  | slnil =>
    cases has
    exact List.nil_sublist _
  | cons t hus ih =>
    cases h with
    | cons ht hts =>
      rw [List.forall_mem_append] at hls
      rw [references_append]
      exact (ih hts hls.2 has).trans (List.sublist_append_right ..)
  | cons_cons t hus ih =>
    cases h with
    | cons ht hts =>
      rw [List.forall_mem_append] at hls
      simp only [List.mapM_cons, Except.bind_eq_ok_iff] at has
      obtain ⟨a, ha, as, has, heq⟩ := has
      cases heq
      rw [references_append, List.flatMap_cons]
      exact (hread _ _ _ hls.1 ht ha).append (ih hts hls.2 has)

theorem Assembled.allAssembled_children {ls t} (h : Assembled ls t) (hne : t.children ≠ []) :
    AllAssembled ls t.children := by
  cases h with
  | word => exact absurd rfl hne
  | node _ h => exact h

/-- What is read off some of the children of a node refers to names in their order. -/
theorem RefersInOrder.children {read : Tree NodeKind → Except Flaw α}
    {refs : α → List (String × Span)} (hread : RefersInOrder source read refs)
    {ls : List Lexeme} {t : Tree NodeKind} (h : Assembled ls t) (hls : ∀ l ∈ ls, l.Genuine source)
    {us : List (Tree NodeKind)} (hus : us.Sublist t.children) {as : List α}
    (has : us.mapM read = .ok as) : (as.flatMap refs).Sublist (references ls) := by
  by_cases hne : t.children = []
  · rw [hne, List.sublist_nil] at hus
    subst hus
    cases has
    exact List.nil_sublist _
  · exact hread.mapM hus (h.allAssembled_children hne) hls has

/-- A variable is a name. -/
theorem Assembled.exists_name {ls t} (h : Assembled ls t) (hkind : t.kind = .variableName) :
    ∃ l, l.token = .name ∧ ls = [l] ∧ t = leaf .variableName l := by
  cases h with
  | @word l k hl =>
    obtain rfl : k = .variableName := hkind
    refine ⟨l, ?_, rfl, rfl⟩
    cases htoken : l.token with
    | name => rfl
    | _ =>
      rw [htoken] at hl
      cases hl
  | node hword _ =>
    rw [Tree.kind_spanning] at hkind
    rw [hkind] at hword
    cases hword

/-- **Expressions refer to names in their order.** -/
theorem refersInOrder_exprWithin (levels : Nat) :
    RefersInOrder source (exprWithin source levels) Expr.refs := by
  induction levels with
  | zero =>
    intro ls t e _ _ he
    cases he
  | succ levels ih =>
    intro ls t e hls h he
    simp only [exprWithin, kind?_eq_kind] at he
    split at he
    · obtain ⟨v, rfl, -⟩ := literal_eq_ok he
      exact List.nil_sublist _
    · obtain ⟨text, -, hliteral⟩ := Except.bind_eq_ok_iff.mp he
      obtain ⟨v, rfl, -⟩ := literal_eq_ok hliteral
      exact List.nil_sublist _
    · rename_i hkind
      obtain ⟨l, hl, rfl, rfl⟩ := h.exists_name (Option.some.inj hkind)
      cases he
      rw [List.forall_mem_singleton] at hls
      rw [references_name hl, Expr.refs, hls.text_leaf]
      exact .refl _
    · obtain ⟨left, op, right, us, o, l, r, hchildren, hl, -, hr, rfl⟩ := binary_eq_ok he
      have hsub : [left, right].Sublist t.children := by simp [hchildren]
      have hread : [left, right].mapM (exprWithin source levels) = .ok [l, r] := by simp [hl, hr]
      simpa [Expr.refs] using ih.children h hls hsub hread
    · -- The arguments are children of a child.
      obtain ⟨callee, args, us, hchildren, hcall⟩ := call_eq_ok he
      have hne : t.children ≠ [] := by simp [hchildren]
      have hmem : args ∈ t.children := by simp [hchildren]
      obtain ⟨part, hpart, hargs⟩ := (h.allAssembled_children hne).of_mem hmem
      have hgenuine : ∀ l ∈ part, l.Genuine source := fun l hl => hls l (hpart.subset hl)
      have hrefs : (references part).Sublist (references ls) := hpart.filterMap reference?
      rcases hcall with ⟨f, a, u, rfl, hsub, ha⟩ | ⟨f, a, b, u, v, rfl, hsub, ha, hb⟩
      · have hread : [u].mapM (exprWithin source levels) = .ok [a] := by simp [ha]
        simpa [Expr.refs] using (ih.children hargs hgenuine hsub hread).trans hrefs
      · have hread : [u, v].mapM (exprWithin source levels) = .ok [a, b] := by simp [ha, hb]
        simpa [Expr.refs] using (ih.children hargs hgenuine hsub hread).trans hrefs
    · cases he

/-- **Statements refer to names in their order.** -/
theorem refersInOrder_stmt : RefersInOrder source (stmt source) (·.value.refs) := by
  intro ls t s hls h hs
  have hvalue : ∃ value, [value].Sublist t.children ∧
      exprWithin source maxNesting value = .ok s.value := by
    rcases stmt_eq_ok hs with ⟨-, target, equals, value, us, e, hchildren, he, rfl⟩ |
      ⟨-, value, us, e, hchildren, he, rfl⟩
    · exact ⟨value, by simp [hchildren], he⟩
    · exact ⟨value, by simp [hchildren], he⟩
  obtain ⟨value, hsub, hread⟩ := hvalue
  have hread : [value].mapM (exprWithin source maxNesting) = .ok [s.value] := by simp [hread]
  simpa using (refersInOrder_exprWithin maxNesting).children h hls hsub hread

end Grammar

namespace Script
open Grammar Lexeme

/-- The references of a program are names of its script, in their order. -/
theorem refs_sublist_of_parse {source : String} {p : Program} (h : parse source = .ok p) :
    p = [] ∨ ∃ ls, Scan.lexemes source.toList = .ok ls ∧
      p.refs.Sublist (references (significant 0 ls)) := by
  rw [parse] at h
  split at h
  · cases h
    exact .inl rfl
  · obtain ⟨ls, ts, hscan, hscript, -, hread⟩ := parseTree_eq_ok_iff.mp h
    have hwords : (words (significant 0 ls)).Sublist (significant 0 ls) := List.filter_sublist
    have hgenuine : ∀ l ∈ words (significant 0 ls), l.Genuine source.toList :=
      fun l hl => Scan.genuine_of_significant hscan l (hwords.subset hl)
    have hrefs := refersInOrder_stmt.mapM (.refl ts) hscript.allAssembled hgenuine hread
    exact .inr ⟨ls, hscan, hrefs.trans (hwords.filterMap reference?)⟩

/-- **Every reference is a name in the script.** -/
theorem exists_name_of_mem_refs {source : String} {p : Program} (h : parse source = .ok p)
    {r : String × Span} (hr : r ∈ p.refs) :
    ∃ ls, Scan.lexemes source.toList = .ok ls ∧
      ∃ l ∈ significant 0 ls, l.token = .name ∧ l.Genuine source.toList ∧ (l.text, l.span) = r := by
  rcases refs_sublist_of_parse h with rfl | ⟨ls, hscan, hrefs⟩
  · cases hr
  · obtain ⟨l, hl, hname, heq⟩ := mem_references.mp (hrefs.subset hr)
    exact ⟨ls, hscan, l, hl, hname, Scan.genuine_of_significant hscan l hl, heq⟩

/-- **References begin one after another in the script.** -/
theorem pairwise_refs {source : String} {p : Program} (h : parse source = .ok p) :
    p.refs.Pairwise fun r r' => r.2.start < r'.2.start := by
  rcases refs_sublist_of_parse h with rfl | ⟨ls, hscan, hrefs⟩
  · exact .nil
  · exact (Scan.inOrder_significant hscan).pairwise_references.sublist hrefs

end Script

/-! ## The first undefined variable -/

theorem Expr.map_fst_refs (e : Expr) : e.refs.map Prod.fst = e.names := by
  induction e with
  | num v => rfl
  | ref name span => rfl
  | binary op l r ihl ihr => rw [refs, names, List.map_append, ihl, ihr]
  | call1 f a iha => exact iha
  | call2 f a b iha ihb => rw [refs, names, List.map_append, iha, ihb]

theorem Expr.isDefined_refs_of_check {e : Expr} {scope : Scope} (h : e.check scope = .ok ()) :
    ∀ r ∈ e.refs, scope.isDefined r.1 = true := by
  intro r hr
  refine isDefined_of_check h r.1 ?_
  rw [← map_fst_refs]
  exact List.mem_map_of_mem hr

/-- **The first reference of a list to a variable that is not set.** -/
def Scope.FirstUndefined (scope : Scope) (refs : List (String × Span)) (e : ReferenceError) :
    Prop :=
  ∃ front back, refs = front ++ (e.name, e.span) :: back ∧ scope.isDefined e.name = false ∧
    ∀ r ∈ front, scope.isDefined r.1 = true

section
variable {scope : Scope} {refs refs' : List (String × Span)} {err : ReferenceError}

theorem Scope.FirstUndefined.append (h : scope.FirstUndefined refs err)
    (later : List (String × Span)) : scope.FirstUndefined (refs ++ later) err := by
  obtain ⟨front, back, hrefs, hfirst⟩ := h
  exact ⟨front, back ++ later, by rw [hrefs, List.append_assoc]; rfl, hfirst⟩

theorem Scope.FirstUndefined.after (h : scope.FirstUndefined refs err)
    (hbefore : ∀ r ∈ refs', scope.isDefined r.1 = true) :
    scope.FirstUndefined (refs' ++ refs) err := by
  obtain ⟨front, back, hrefs, hundefined, hfront⟩ := h
  refine ⟨refs' ++ front, back, by rw [hrefs, List.append_assoc], hundefined, ?_⟩
  exact List.forall_mem_append.mpr ⟨hbefore, hfront⟩

/-- **What the check of an expression reports** is its first reference to a variable that is not
set. -/
theorem Expr.firstUndefined_of_check {e : Expr} (h : e.check scope = .error err) :
    scope.FirstUndefined e.refs err := by
  induction e with
  | num v => cases h
  | ref name span =>
    by_cases hname : scope.isDefined name = true
    · rw [check, if_pos hname] at h
      cases h
    · rw [check, if_neg hname] at h
      cases h
      exact ⟨[], [], rfl, eq_false_of_ne_true hname, List.forall_mem_nil _⟩
  | binary op l r ihl ihr =>
    obtain hl | ⟨_, hl, hr⟩ := Except.bind_eq_error_iff.mp h
    · exact (ihl hl).append r.refs
    · exact (ihr hr).after (isDefined_refs_of_check hl)
  | call1 f a iha => exact iha h
  | call2 f a b iha ihb =>
    obtain ha | ⟨_, ha, hb⟩ := Except.bind_eq_error_iff.mp h
    · exact (iha ha).append b.refs
    · exact (ihb hb).after (isDefined_refs_of_check ha)

end

namespace Program
variable {p before after : Program} {s : Stmt} {scope : Scope}

theorem checkFrom_cons (s : Stmt) (p : Program) (scope : Scope) :
    checkFrom scope (s :: p) =
      (do s.value.check scope; checkFrom (scopeFrom scope [s]) p) := by
  cases s with
  | define name value => rfl
  | expr value => rfl

theorem scopeFrom_append (p q : Program) (scope : Scope) :
    scopeFrom scope (p ++ q) = scopeFrom (scopeFrom scope p) q := by
  induction p generalizing scope with
  | nil => rfl
  | cons s p ih =>
    cases s with
    | define name value => exact ih (scope.define name)
    | expr value => exact ih scope

theorem refs_append (p q : Program) : refs (p ++ q) = refs p ++ refs q :=
  List.flatMap_append

theorem refs_cons (s : Stmt) (p : Program) : refs (s :: p) = s.value.refs ++ refs p :=
  List.flatMap_cons

theorem defined_append (p q : Program) : defined (p ++ q) = defined p ++ defined q := by
  induction p with
  | nil => rfl
  | cons s p ih =>
    cases s with
    | define name value => exact congrArg (name :: ·) ih
    | expr value => exact ih

/-- The scope after a program knows what its statements define. -/
theorem isDefined_scope_iff (p : Program) (x : String) :
    p.scope.isDefined x = true ↔ x ∈ p.defined := by
  rw [Scope.isDefined, names_scope, List.contains_eq_mem, decide_eq_true_iff, List.mem_eraseDups]

/-- In a program that passes the check every statement does. -/
theorem check_value_of_checkFrom (h : checkFrom scope (before ++ s :: after) = .ok ()) :
    s.value.check (scopeFrom scope before) = .ok () := by
  induction before generalizing scope with
  | nil =>
    rw [List.nil_append, checkFrom_cons] at h
    obtain ⟨_, hs, -⟩ := Except.bind_eq_ok_iff.mp h
    exact hs
  | cons s' before ih =>
    rw [List.cons_append, checkFrom_cons] at h
    obtain ⟨_, -, hrest⟩ := Except.bind_eq_ok_iff.mp h
    rw [← List.singleton_append, scopeFrom_append]
    exact ih hrest

/-- A program that does not pass the check has a first statement that does not. -/
theorem exists_of_checkFrom_error {e : ReferenceError} (h : checkFrom scope p = .error e) :
    ∃ before s after, p = before ++ s :: after ∧ checkFrom scope before = .ok () ∧
      s.value.check (scopeFrom scope before) = .error e := by
  induction p generalizing scope with
  | nil => cases h
  | cons s p ih =>
    rw [checkFrom_cons] at h
    obtain hs | ⟨_, hs, hrest⟩ := Except.bind_eq_error_iff.mp h
    · exact ⟨[], s, p, rfl, rfl, hs⟩
    · obtain ⟨before, s', after, rfl, hbefore, hs'⟩ := ih hrest
      refine ⟨s :: before, s', after, rfl, ?_, ?_⟩
      · rw [checkFrom_cons, hs]
        exact hbefore
      · rw [← List.singleton_append, scopeFrom_append]
        exact hs'

/-- The references of a statement begin before those of a later one. -/
theorem start_lt_of_refs {mid : Program} {s' : Stmt}
    (h : (refs (before ++ s :: (mid ++ s' :: after))).Pairwise fun r r' => r.2.start < r'.2.start) :
    ∀ r ∈ s.value.refs, ∀ r' ∈ s'.value.refs, r.2.start < r'.2.start := by
  rw [refs_append, refs_cons, refs_append, refs_cons] at h
  intro r hr r' hr'
  exact (List.pairwise_append.mp (List.pairwise_append.mp h).2.1).2.2 r hr r' (by simp [hr'])

end Program

/-- **The check reports the leftmost undefined variable** of a program with its references in
order.  No statement before the reference defines the variable, and every reference further left
is to a variable that a statement before its own defines. -/
theorem Program.leftmost_of_check_error {p : Program} {e : ReferenceError}
    (horder : p.refs.Pairwise fun r r' => r.2.start < r'.2.start) (h : p.check = .error e) :
    (e.name, e.span) ∈ p.refs ∧ ∀ before s after, p = before ++ s :: after →
      ((e.name, e.span) ∈ s.value.refs → e.name ∉ defined before) ∧
      ∀ r ∈ s.value.refs, r.2.start < e.span.start → r.1 ∈ defined before := by
  obtain ⟨before, s, after, rfl, hbefore, hs⟩ := exists_of_checkFrom_error h
  obtain ⟨front, back, hrefs, hundefined, hfront⟩ := Expr.firstUndefined_of_check hs
  have hmem : (e.name, e.span) ∈ s.value.refs := by simp [hrefs]
  have hnot : e.name ∉ defined before := by
    intro hdefined
    rw [← isDefined_scope_iff, scope, hundefined] at hdefined
    cases hdefined
  refine ⟨by simp [refs_append, refs_cons, hmem], fun before' s' after' heq => ?_⟩
  rcases List.append_cons_eq_cases heq with ⟨mid, rfl, rfl⟩ | ⟨rfl, rfl⟩ | ⟨mid, rfl, rfl⟩
  · -- A later statement: its references all begin after the one reported.
    have hlt := start_lt_of_refs horder _ hmem
    refine ⟨fun hmem' => ?_, fun r hr hstart => ?_⟩
    · exact absurd (hlt _ hmem') (Nat.lt_irrefl _)
    · exact absurd (hlt r hr) (Nat.lt_asymm hstart)
  · refine ⟨fun _ => hnot, fun r hr hstart => ?_⟩
    rw [refs_append, refs_cons, hrefs] at horder
    have hback := (List.pairwise_append.mp (List.pairwise_append.mp
      (List.pairwise_append.mp horder).2.1).1).2.1
    rw [hrefs] at hr
    rcases List.mem_append.mp hr with hr | hr
    · exact (isDefined_scope_iff _ _).mp (hfront r hr)
    rcases List.mem_cons.mp hr with rfl | hr
    · exact absurd hstart (Nat.lt_irrefl _)
    · exact absurd ((List.pairwise_cons.mp hback).1 r hr) (Nat.lt_asymm hstart)
  · -- An earlier statement: it has passed the check.
    refine ⟨fun _ hdefined => hnot ?_, fun r hr _ => ?_⟩
    · rw [defined_append]
      exact List.mem_append_left _ hdefined
    · have hcheck := check_value_of_checkFrom hbefore
      exact (isDefined_scope_iff _ _).mp (Expr.isDefined_refs_of_check hcheck r hr)

/-- **The reported undefined variable is the leftmost in the text.**  The span of the report is
the place of the name, and the program refers to it there.  No statement before the one with that
reference defines the variable, and every reference that begins further left is to a variable
that a statement before its own defines. -/
theorem Script.leftmost_of_compile_error {source : String} {e : ReferenceError}
    (h : compile source = .error (.reference e)) :
    ∃ p, parse source = .ok p ∧
      Text.slice? source.toList e.span.start e.span.stop = some e.name.toList ∧
      (e.name, e.span) ∈ p.refs ∧ ∀ before s after, p = before ++ s :: after →
        ((e.name, e.span) ∈ s.value.refs → e.name ∉ Program.defined before) ∧
        ∀ r ∈ s.value.refs, r.2.start < e.span.start → r.1 ∈ Program.defined before := by
  cases rejected_of_compile_error h with
  | @scope p _ hparse hcheck =>
    obtain ⟨hmem, hleftmost⟩ := Program.leftmost_of_check_error (pairwise_refs hparse) hcheck
    obtain ⟨-, -, l, -, -, hgenuine, heq⟩ := exists_name_of_mem_refs hparse hmem
    obtain ⟨hname, hspan⟩ := Prod.mk.inj heq
    refine ⟨p, hparse, ?_, hmem, hleftmost⟩
    rw [← hname, ← hspan]
    exact hgenuine.slice?_text

/-- Two variables of one statement that are not set, one of them set later, after one that is. -/
theorem Script.leftmost_of_compile_error_later :
    let source := "a = 1\nb = a + c * d\nc = b\n"
    compile source = .error (.reference ⟨"c", ⟨14, 15⟩⟩) ∧
      ∃ p, parse source = .ok p ∧
        p.refs = [("a", ⟨10, 11⟩), ("c", ⟨14, 15⟩), ("d", ⟨18, 19⟩), ("b", ⟨24, 25⟩)] ∧
        ∀ before s after, p = before ++ s :: after →
          ∀ r ∈ s.value.refs, r.2.start < 14 → r.1 ∈ Program.defined before := by
  intro source
  have hcompile : compile source = .error (.reference ⟨"c", ⟨14, 15⟩⟩) := by decide +kernel
  obtain ⟨p, hparse, -, -, hleftmost⟩ := leftmost_of_compile_error hcompile
  refine ⟨hcompile, p, hparse, ?_, fun before s after hp => (hleftmost before s after hp).2⟩
  have hrefs : (parse source).toOption.map Program.refs =
      some [("a", ⟨10, 11⟩), ("c", ⟨14, 15⟩), ("d", ⟨18, 19⟩), ("b", ⟨24, 25⟩)] := by
    decide +kernel
  rw [hparse] at hrefs
  exact Option.some.inj hrefs

end ArithWat
