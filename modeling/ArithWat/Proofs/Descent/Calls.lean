import ArithWat.Proofs.Descent
import ArithWat.Proofs.Grammar.Soundness
import ArithWat.Proofs.Storage

/-!
# Steps and calls of the descent

The descent is followed from inside one frame.  What the frame has gathered are trees, and the
table and the rows that it holds are those of the trees (`holding`); where it stands is what is
still ahead.  For each task there is a lemma that says where the frame gets to.

`Leads` compares the descent with a computation that may fail: it comes to the state for the
value, or to the failure in the same frame.  Such comparisons are put together as the computations
are (`Leads.bind`).  The states on the way are those of the frame and of the calls that it makes,
and each call made there returns (`Sound`): that is known as soon as the call has been compared with
what it computes (`leads_enter`), so it need not be proved a second time.
-/

namespace ArithWat

/-! ## Trees that are gathered in a table -/

namespace TableNode
open ArithWat.Tree

theorem addForest_cons (base : Array TableNode) (t : Tree NodeKind) (ts : List (Tree NodeKind)) :
    addForest base (t :: ts) =
      ((addForest (addTree base t).1 ts).1,
        (addTree base t).2 :: (addForest (addTree base t).1 ts).2) :=
  rfl

/-- One more tree comes behind those that are there. -/
theorem addForest_concat (base : Array TableNode) (ts : List (Tree NodeKind)) (t : Tree NodeKind) :
    addForest base (ts ++ [t]) =
      ((addTree (addForest base ts).1 t).1,
        (addForest base ts).2 ++ [(addTree (addForest base ts).1 t).2]) := by
  induction ts generalizing base with
  | nil => rfl
  | cons u ts ih => rw [List.cons_append, addForest_cons, ih, addForest_cons, List.cons_append]

/-- The row of the root of a tree that has been added shows the tree. -/
theorem getElem?_addTree (base : Array TableNode) (t : Tree NodeKind) :
    (addTree base t).1[(addTree base t).2]? = some (t.row base.size none 0) := by
  obtain ⟨hrows, hroot⟩ := addTree_eq base t
  rw [hroot, ← Array.getElem?_toList, hrows, rows_eq, ← Array.length_toList]
  simp

/-- Adding more trees leaves the rows that are there. -/
theorem getElem?_addForest_of_lt {base : Array TableNode} {i : Nat} (ts : List (Tree NodeKind))
    (h : i < base.size) : (addForest base ts).1[i]? = base[i]? := by
  rw [← Array.getElem?_toList, (addForest_eq base ts).1,
    List.getElem?_append_left (by simpa using h), Array.getElem?_toList]

theorem spanOver_eq {rows : Array TableNode} {is : List Nat} {i j : Nat} {n m : TableNode}
    (hi : is.head? = some i) (hn : rows[i]? = some n) (hj : is.getLast? = some j)
    (hm : rows[j]? = some m) : spanOver rows is = n.span.cover m.span := by
  rw [spanOver, hi, hj, Option.bind_some, Option.bind_some, hn, hm]
  rfl

/-- The rows of gathered trees span what the trees span. -/
theorem spanOver_addForest (base : Array TableNode) (first : Tree NodeKind)
    (more : List (Tree NodeKind)) :
    spanOver (addForest base (first :: more)).1 (addForest base (first :: more)).2 =
      first.span.cover ((first :: more).getLastD first).span := by
  have hfirst : (addForest base (first :: more)).1[(addTree base first).2]? =
      some (first.row base.size none 0) := by
    rw [addForest_cons, getElem?_addForest_of_lt more (addTree_lt base first), getElem?_addTree]
  have hhead : (addForest base (first :: more)).2.head? = some (addTree base first).2 := rfl
  obtain ⟨front, last, hts⟩ : ∃ front last, first :: more = front ++ [last] :=
    ⟨_, _, (List.dropLast_concat_getLast (List.cons_ne_nil first more)).symm⟩
  rw [hts] at hfirst hhead ⊢
  have hlast := getElem?_addTree (addForest base front).1 last
  rw [addForest_concat] at hfirst hhead ⊢
  rw [spanOver_eq hhead hfirst List.getLast?_concat hlast, List.getLastD_concat]
  rfl

/-- A node over gathered trees is as high as the tree that it makes of them. -/
theorem height_push (base : Array TableNode) (k : NodeKind) (s : Span) (ts : List (Tree NodeKind)) :
    (push (addForest base ts).1 k s (addForest base ts).2)[(addForest base ts).1.size]?.elim 0
      TableNode.height = (Tree.node k s ts).height :=
  congrArg (Option.elim · 0 TableNode.height) (getElem?_addTree base (.node k s ts))

end TableNode

namespace Descent
open TableNode

/-- Where a frame stands: the depth at which its rule works, whether that was one level deeper
than its caller, and the frames below. -/
structure Context where
  depth : Nat
  deeper : Bool
  below : List Frame

variable (D : Descent)

/-- **The state in which the top frame has gathered some trees**, in a table that held `base` when
its rule was called, with the lexemes `ls` ahead. -/
def holding (K : Context) (base : Array TableNode) (ls : List Lexeme) (ts : List (Tree NodeKind))
    (todo : List Task) : Config :=
  ⟨D.lexemes.length - ls.length, K.depth, (addForest base ts).1, none,
    ⟨todo, (addForest base ts).2, K.deeper⟩ :: K.below⟩

/-- A call that is made in a state returns, at the depth at which it was made, and past a lexeme if
it gives a node other than the root. -/
def CallsReturn (c : Config) : Prop :=
  ∀ r, c.callee? = some r →
    ∃ c', D.Returns c c' ∧ c'.depth = c.depth ∧ (c'.failure = none → r ≠ .script → c.pos < c'.pos)

/-- A state with more than a number of frames, of which a call returns. -/
def Sound (n : Nat) (c : Config) : Prop := n < c.height ∧ D.CallsReturn c

/-- **The descent does what a computation says**: it comes to the state for its value, or to its
failure in the same frame. -/
def Leads {α : Type} (K : Context) (c : Config) (x : Except Grammar.Failure α)
    (next : α → Config) : Prop :=
  match x with
  | .ok a => D.Path (D.Sound K.below.length) c (next a)
  | .error f =>
    ∃ pos rows fr, fr.deeper = K.deeper ∧
      D.Path (D.Sound K.below.length) c ⟨pos, K.depth, rows, some f, fr :: K.below⟩

variable {D}

section Leads
variable {α β : Type} {K : Context} {c c' : Config} {x : Except Grammar.Failure α}
  {next : α → Config}

theorem Path.leads (h : D.Path (D.Sound K.below.length) c c') (h' : D.Leads K c' x next) :
    D.Leads K c x next := by
  cases x with
  | ok a => exact h.trans h'
  | error f =>
    obtain ⟨pos, rows, fr, hfr, hpath⟩ := h'
    exact ⟨pos, rows, fr, hfr, h.trans hpath⟩

theorem Leads.bind {k : α → Except Grammar.Failure β} {next' : β → Config}
    (h : D.Leads K c x next) (h' : ∀ a, x = .ok a → D.Leads K (next a) (k a) next') :
    D.Leads K c (x >>= k) next' := by
  cases x with
  | ok a => exact Path.leads h (h' a rfl)
  | error f => exact h

theorem Path.leads_ok {a : α} (h : D.Path (D.Sound K.below.length) c (next a)) :
    D.Leads K c (.ok a) next :=
  h

end Leads

/-! ## Single steps -/

theorem nextIs_cons (p : Token → Bool) (l : Lexeme) (ls : List Lexeme) :
    nextIs p (l :: ls) = p l.token := rfl

section Steps
variable {K : Context} {base : Array TableNode} {ls : List Lexeme} {ts : List (Tree NodeKind)}
  {todo : List Task}

theorem ahead_holding (hls : ls <:+ D.lexemes) : D.ahead (D.holding K base ls ts todo) = ls :=
  (List.suffix_iff_eq_drop.mp hls).symm

theorem step_holding (D : Descent) (K : Context) (base : Array TableNode) (ls : List Lexeme)
    (ts : List (Tree NodeKind)) (task : Task) (todo : List Task) :
    D.step (D.holding K base ls ts (task :: todo)) =
      D.perform (D.holding K base ls ts (task :: todo)) ⟨todo, (addForest base ts).2, K.deeper⟩
        K.below task :=
  rfl

/-- A step that is no call. -/
theorem path_holding {c : Config} (hcallee : (D.holding K base ls ts todo).callee? = none)
    (hstep : D.step (D.holding K base ls ts todo) = some c) :
    D.Path (D.Sound K.below.length) (D.holding K base ls ts todo) c := by
  refine .single ⟨Nat.lt_succ_self _, fun r hr => ?_⟩ hstep
  rw [hcallee] at hr
  cases hr

/-- A step in which a failure comes up. -/
theorem leads_fail {α : Type} {next : α → Config} {f : Grammar.Failure} {pos : Nat}
    {rows : Array TableNode} {todo' : List Task} {children : List Nat}
    (hcallee : (D.holding K base ls ts todo).callee? = none)
    (hstep : D.step (D.holding K base ls ts todo) =
      some ⟨pos, K.depth, rows, some f, ⟨todo', children, K.deeper⟩ :: K.below⟩) :
    D.Leads K (D.holding K base ls ts todo) (.error f) next :=
  ⟨pos, rows, ⟨todo', children, K.deeper⟩, rfl, path_holding hcallee hstep⟩

theorem pos_tail {l : Lexeme} (hls : l :: ls <:+ D.lexemes) :
    D.lexemes.length - (l :: ls).length + 1 = D.lexemes.length - ls.length := by
  have := hls.length_le
  simp only [List.length_cons] at this ⊢
  omega

/-- The lexeme that is next becomes a leaf. -/
theorem path_take {l : Lexeme} (hls : l :: ls <:+ D.lexemes) (k : NodeKind) :
    D.Path (D.Sound K.below.length) (D.holding K base (l :: ls) ts (.take k :: todo))
      (D.holding K base ls (ts ++ [Grammar.leaf k l]) todo) := by
  have hnext : D.lexemes[D.lexemes.length - (l :: ls).length]? = some l := by
    rw [← List.head?_drop, ← List.suffix_iff_eq_drop.mp hls]
    rfl
  refine path_holding rfl ?_
  rw [step_holding]
  simp only [perform, holding, hnext, pos_tail hls, addForest_concat]
  rfl

/-- The descent looks ahead and goes on as planned. -/
theorem path_goto {p : Point} {tasks : List Task} (hls : ls <:+ D.lexemes)
    (hplan : p.plan ls = .ok tasks) :
    D.Path (D.Sound K.below.length) (D.holding K base ls ts (.goto p :: todo))
      (D.holding K base ls ts (tasks ++ todo)) := by
  refine path_holding rfl ?_
  rw [step_holding]
  simp only [perform, ahead_holding hls, hplan]
  rfl

theorem leads_goto_of_error {α : Type} {next : α → Config} {p : Point} {f : Grammar.Failure}
    (hls : ls <:+ D.lexemes) (hplan : p.plan ls = .error f) :
    D.Leads K (D.holding K base ls ts (.goto p :: todo)) (.error f) next := by
  have hstep := step_holding D K base ls ts (.goto p) todo
  simp only [perform, ahead_holding hls, hplan] at hstep
  exact leads_fail rfl hstep

theorem leads_expect (hls : ls <:+ D.lexemes) (t : Token) (k : NodeKind) :
    D.Leads K (D.holding K base ls ts (.expect t k :: todo)) (Grammar.expect t k ls)
      fun p => D.holding K base p.2 (ts ++ [p.1]) todo := by
  have hstep := step_holding D K base ls ts (.expect t k) todo
  simp only [perform, ahead_holding hls] at hstep
  cases ls with
  | nil => exact leads_fail rfl hstep
  | cons l ls =>
    simp only [nextIs_cons, decide_eq_true_eq] at hstep
    simp only [Grammar.expect]
    split
    · rename_i hl
      rw [if_pos hl] at hstep
      exact Path.leads_ok ((path_holding rfl hstep).trans (path_take hls k))
    · rename_i hl
      rw [if_neg hl] at hstep
      exact leads_fail rfl hstep

/-- The separators that are next are passed one by one. -/
theorem path_skip (hls : ls <:+ D.lexemes) :
    D.Path (D.Sound K.below.length) (D.holding K base ls ts (.skip :: todo))
      (D.holding K base (Grammar.skipSeparators ls) ts todo) := by
  induction ls with
  | nil =>
    refine path_holding rfl ?_
    rw [step_holding]
    simp only [perform, ahead_holding hls]
    rfl
  | cons l ls ih =>
    have hstep := step_holding D K base (l :: ls) ts .skip todo
    simp only [perform, ahead_holding hls, nextIs_cons] at hstep
    cases hl : l.token.isSeparator with
    | true =>
      have hpass : Grammar.skipSeparators (l :: ls) = Grammar.skipSeparators ls :=
        List.dropWhile_cons_of_pos hl
      rw [hpass]
      rw [if_pos hl] at hstep
      refine (path_holding rfl hstep).trans ?_
      have htail := ih ((List.suffix_cons l ls).trans hls)
      rwa [holding, ← pos_tail hls] at htail
    | false =>
      have hkeep : Grammar.skipSeparators (l :: ls) = l :: ls :=
        List.dropWhile_cons_of_neg (by simp [hl])
      rw [hkeep]
      rw [hl, if_neg Bool.false_ne_true] at hstep
      exact path_holding rfl hstep

theorem step_node (D : Descent) (K : Context) (base : Array TableNode) (ls : List Lexeme)
    (first : Tree NodeKind) (more : List (Tree NodeKind)) (k : NodeKind) (todo : List Task) :
    D.step (D.holding K base ls (first :: more) (.node k :: todo)) =
      if k.isStatement ∨ (Tree.spanning k first more).height ≤ D.limit then
        some (D.holding K base ls [.spanning k first more] todo)
      else
        some ⟨D.lexemes.length - ls.length, K.depth,
          (addForest base [Tree.spanning k first more]).1,
          some ⟨.tooDeep, some (Tree.spanning k first more).span⟩,
          ⟨todo, (addForest base (first :: more)).2, K.deeper⟩ :: K.below⟩ := by
  rw [step_holding]
  simp only [perform, holding, spanOver_addForest, height_push]
  rfl

/-- A node of an expression is added, and then its levels are looked at. -/
theorem leads_node {k : NodeKind} (hk : k.isStatement = false) (first : Tree NodeKind)
    (more : List (Tree NodeKind)) :
    D.Leads K (D.holding K base ls (first :: more) (.node k :: todo))
      (Grammar.build D.limit k first more) fun t => D.holding K base ls [t] todo := by
  have hstep := step_node D K base ls first more k todo
  simp only [hk, Bool.false_eq_true, false_or] at hstep
  simp only [Grammar.build]
  split
  · rename_i hle
    rw [if_pos hle] at hstep
    exact Path.leads_ok (path_holding rfl hstep)
  · rename_i hgt
    rw [if_neg hgt] at hstep
    exact leads_fail rfl hstep

/-- The node of a statement is added, however many levels it has. -/
theorem path_statement {k : NodeKind} (hk : k.isStatement = true) (first : Tree NodeKind)
    (more : List (Tree NodeKind)) :
    D.Path (D.Sound K.below.length) (D.holding K base ls (first :: more) (.node k :: todo))
      (D.holding K base ls [.spanning k first more] todo) := by
  refine path_holding rfl ?_
  rw [step_node, if_pos (.inl hk)]

end Steps

/-! ## Calls -/

/-- A call that comes back is a way to where it comes back. -/
theorem path_call {c c₁ c' : Config} {r : Rule} {n : Nat} (hcallee : c.callee? = some r)
    (hheight : c.height = n + 1) (hstep : D.step c = some c₁)
    (hdown : D.Path (D.Sound (n + 1)) c₁ c') (hheight' : c'.height = n + 1)
    (hdepth : c'.depth = c.depth) (hpos : c'.failure = none → r ≠ .script → c.pos < c'.pos) :
    D.Path (D.Sound n) c c' := by
  have hreturns : D.Returns c c' :=
    ⟨c₁, hstep, hdown.mono fun e he => by rw [hheight]; exact he.1, hheight'.trans hheight.symm⟩
  refine .head ⟨by omega, fun r' hr' => ?_⟩ hstep (hdown.mono fun e he => ⟨?_, he.2⟩)
  · cases hcallee.symm.trans hr'
    exact ⟨c', hreturns, hdepth, hpos⟩
  · exact Nat.lt_of_succ_lt he.1

/-- A rule that succeeds has taken a lexeme or more off the front. -/
def Advances (ls : List Lexeme) (x : Grammar.Outcome) : Prop :=
  ∀ t rest, x = .ok (t, rest) → rest <:+ ls ∧ rest.length < ls.length

variable (D) in
/-- **A rule that is called comes to an outcome**, in whichever frame it is carried out. -/
def Computes (r : Rule) (depth : Nat) (ls : List Lexeme) (x : Grammar.Outcome) : Prop :=
  ∀ deeper below base,
    D.Leads ⟨depth, deeper, below⟩
      (D.holding ⟨depth, deeper, below⟩ base ls [] [.goto (.rule r)]) x
      fun p => D.holding ⟨depth, deeper, below⟩ base p.2 [p.1] []

section
variable {K : Context} {base : Array TableNode} {ls : List Lexeme} {ts : List (Tree NodeKind)}
  {todo : List Task} {r : Rule} {x : Grammar.Outcome}

/-- A rule that has been called comes back to the frame below, with the level given back. -/
theorem leads_enter {task : Task} (deeper : Bool) {depth : Nat}
    (hstep : D.step (D.holding K base ls ts (task :: todo)) =
      some (D.holding ⟨depth, deeper, ⟨todo, (addForest base ts).2, K.deeper⟩ :: K.below⟩
        (addForest base ts).1 ls [] [.goto (.rule r)]))
    (hcallee : (D.holding K base ls ts (task :: todo)).callee? = some r)
    (hleave : ∀ fr : Frame, fr.deeper = deeper → fr.leave depth = K.depth)
    (hls : ls <:+ D.lexemes) (hr : D.Computes r depth ls x) (hx : r = .script ∨ Advances ls x) :
    D.Leads K (D.holding K base ls ts (task :: todo)) x
      fun p => D.holding K base p.2 (ts ++ [p.1]) todo := by
  have hcalled := hr deeper (⟨todo, (addForest base ts).2, K.deeper⟩ :: K.below)
    (addForest base ts).1
  cases x with
  | ok p =>
    obtain ⟨t, rest⟩ := p
    have hback : D.step (D.holding
        ⟨depth, deeper, ⟨todo, (addForest base ts).2, K.deeper⟩ :: K.below⟩
        (addForest base ts).1 rest [t] []) = some (D.holding K base rest (ts ++ [t]) todo) := by
      rw [holding, holding, addForest_concat,
        ← hleave ⟨[], (addForest (addForest base ts).1 [t]).2, deeper⟩ rfl]
      rfl
    refine Path.leads_ok (path_call hcallee rfl hstep (hcalled.trans (path_holding rfl hback))
      rfl rfl fun _ hscript => ?_)
    obtain ⟨-, hlt⟩ := hx.resolve_left hscript t rest rfl
    have := hls.length_le
    exact Nat.sub_lt_sub_left (Nat.lt_of_lt_of_le hlt this) hlt
  | error f =>
    obtain ⟨pos, rows, fr, hfr, hpath⟩ := hcalled
    have hback : D.step ⟨pos, depth, rows, some f,
        fr :: ⟨todo, (addForest base ts).2, K.deeper⟩ :: K.below⟩ =
        some ⟨pos, K.depth, rows, some f, ⟨todo, (addForest base ts).2, K.deeper⟩ :: K.below⟩ := by
      rw [← hleave fr hfr]
      rfl
    refine ⟨pos, rows, _, rfl,
      path_call hcallee rfl hstep (hpath.trans (.single ?_ hback)) rfl rfl ?_⟩
    · exact ⟨Nat.lt_succ_self _, fun r hr => by cases hr⟩
    · intro hnone
      cases hnone

theorem leads_call (hls : ls <:+ D.lexemes) (hr : D.Computes r K.depth ls x)
    (hx : r = .script ∨ Advances ls x) :
    D.Leads K (D.holding K base ls ts (.call r :: todo)) x
      fun p => D.holding K base p.2 (ts ++ [p.1]) todo := by
  refine leads_enter false rfl rfl (fun fr hfr => ?_) hls hr hx
  rw [Frame.leave, hfr]
  rfl

theorem leads_nest (hdepth : K.depth < D.limit) (hls : ls <:+ D.lexemes)
    (hr : D.Computes r (K.depth + 1) ls x) (hx : Advances ls x) :
    D.Leads K (D.holding K base ls ts (.nest r :: todo)) x
      fun p => D.holding K base p.2 (ts ++ [p.1]) todo := by
  have hstep := step_holding D K base ls ts (.nest r) todo
  have hless : (D.holding K base ls ts (.nest r :: todo)).depth < D.limit := hdepth
  simp only [perform, if_pos hless] at hstep
  refine leads_enter true hstep rfl (fun fr hfr => ?_) hls hr (.inr hx)
  rw [Frame.leave, hfr]
  rfl

/-- A rule is not called beyond the limit. -/
theorem leads_nest_of_le {α : Type} {next : α → Config} (hdepth : D.limit ≤ K.depth)
    (hls : ls <:+ D.lexemes) :
    D.Leads K (D.holding K base ls ts (.nest r :: todo))
      (.error (Grammar.failAt ls .tooDeep)) next := by
  have hstep := step_holding D K base ls ts (.nest r) todo
  have hfull : ¬ (D.holding K base ls ts (.nest r :: todo)).depth < D.limit := Nat.not_lt.mpr hdepth
  simp only [perform, if_neg hfull, ahead_holding hls] at hstep
  refine ⟨_, _, ⟨todo, _, K.deeper⟩, rfl, path_call rfl rfl hstep (.refl _) rfl rfl ?_⟩
  intro hnone
  cases hnone

end

end Descent

end ArithWat
