import ArithWat.Proofs.Descent

/-!
# What every state of a descent keeps to

Three things hold at the start and are kept by every step.  The position is within the lexemes.
The depth is the number of frames that were entered one level deeper, and it keeps to the limit.
And no lexeme is taken that was not seen ahead: of the tasks of a frame only the first ones may
need a lexeme, and no more of them than there are lexemes ahead (`Guarded`), since a plan asks for
no more than it looked at (`Point.guarded_of_plan`).

`Bounded` puts the three together, `Bounded.of_step` is the step and `Bounded.of_reaches` the run.
-/

namespace ArithWat.Descent

/-! ## Tasks that need a lexeme -/

/-- Whether a task takes the next lexeme without looking at it, or calls a rule that does. -/
def Task.asks : Task → Bool
  | .take _ => true
  | .call r | .nest r | .goto (.rule r) => r = .argList
  | _ => false

/-- Whether a task takes the next lexeme. -/
def Task.takes : Task → Bool
  | .take _ => true
  | _ => false

/-- Tasks that look before they take a lexeme. -/
def Calm (todo : List Task) : Prop := ∀ task ∈ todo, task.asks = false

/-- **Tasks for which `n` lexemes ahead are enough.**  Only lexemes that are taken one after the
other are counted: behind any other task nothing is known of what is ahead. -/
inductive Guarded : Nat → List Task → Prop
  | calm {n todo} : Calm todo → Guarded n todo
  | take {n todo k} : Guarded n todo → Guarded (n + 1) (.take k :: todo)
  | first {n todo task} : Calm todo → Guarded (n + 1) (task :: todo)

theorem calm_nil : Calm [] := List.forall_mem_nil _

theorem calm_cons {task : Task} {todo : List Task} :
    Calm (task :: todo) ↔ task.asks = false ∧ Calm todo :=
  List.forall_mem_cons

theorem calm_append (ts : List Task) {todo : List Task} (hts : ∀ task ∈ ts, task.asks = false)
    (htodo : Calm todo) : Calm (ts ++ todo) :=
  List.forall_mem_append.mpr ⟨hts, htodo⟩

namespace Guarded
variable {n : Nat} {todo : List Task}

theorem of_take {k : NodeKind} (h : Guarded n (.take k :: todo)) :
    0 < n ∧ Guarded (n - 1) todo := by
  cases h with
  | calm h => cases (calm_cons.mp h).1
  | take h => exact ⟨Nat.succ_pos _, h⟩
  | first h => exact ⟨Nat.succ_pos _, .calm h⟩

theorem calm_tail {task : Task} (h : Guarded n (task :: todo)) (htask : task.takes = false) :
    Calm todo := by
  cases h with
  | calm h => exact (calm_cons.mp h).2
  | take => cases htask
  | first h => exact h

/-- There is a lexeme ahead where one is needed. -/
theorem pos_of_asks {task : Task} (h : Guarded n (task :: todo)) (htask : task.asks = true) :
    0 < n := by
  cases h with
  | calm h => exact absurd (htask.symm.trans (calm_cons.mp h).1) (by decide)
  | take => exact Nat.succ_pos _
  | first => exact Nat.succ_pos _

/-- A task on its own, with a lexeme ahead if it needs one. -/
theorem singleton {task : Task} (h : task.asks = true → 0 < n) : Guarded n [task] := by
  cases htask : task.asks with
  | false => exact .calm (calm_cons.mpr ⟨htask, calm_nil⟩)
  | true =>
    obtain ⟨m, rfl⟩ := Nat.exists_eq_succ_of_ne_zero (Nat.ne_of_gt (h htask))
    exact .first calm_nil

end Guarded

theorem exists_cons_of_nextIs {p : Token → Bool} {ls : List Lexeme} (h : nextIs p ls = true) :
    ∃ l ls', ls = l :: ls' ∧ p l.token = true := by
  cases ls with
  | nil => cases h
  | cons l ls => exact ⟨l, ls, rfl, h⟩

/-- A rule asks for no more lexemes than it looked at. -/
theorem Rule.guarded_of_plan {r : Rule} {ls : List Lexeme} {tasks todo : List Task}
    (h : r.plan ls = .ok tasks) (hls : r = .argList → ls ≠ []) (htodo : Calm todo) :
    Guarded ls.length (tasks ++ todo) := by
  cases r with
  | script | expression | sum | product | applied =>
    cases h
    exact .calm (calm_append _ (by decide) htodo)
  | statement =>
    simp only [plan] at h
    split at h
    · split at h
      · cases h
        exact .take (.take (.calm (calm_append [_, _] (by decide) htodo)))
      · cases h
        exact .calm (calm_append _ (by decide) htodo)
    · cases h
      exact .calm (calm_append _ (by decide) htodo)
  | operand =>
    simp only [plan] at h
    split at h
    · rename_i hnext
      obtain ⟨l, ls, rfl, -⟩ := exists_cons_of_nextIs hnext
      cases h
      exact .first (calm_append [_, _] (by decide) htodo)
    · cases h
      exact .calm (calm_append _ (by decide) htodo)
  | atom =>
    cases ls with
    | nil => cases h
    | cons l ls =>
      simp only [plan] at h
      split at h
      · cases h
        exact .first htodo
      · cases h
        exact .first htodo
      · cases h
        exact .first (calm_append [_, _, _] (by decide) htodo)
      · cases h
  | argList =>
    cases ls with
    | nil => exact absurd rfl (hls rfl)
    | cons l ls =>
      cases h
      exact .first (calm_append [_, _, _] (by decide) htodo)

/-- **A plan asks for no more lexemes than it looked at.** -/
theorem Point.guarded_of_plan {p : Point} {ls : List Lexeme} {tasks todo : List Task}
    (h : p.plan ls = .ok tasks) (hls : (Task.goto p).asks = true → ls ≠ []) (htodo : Calm todo) :
    Guarded ls.length (tasks ++ todo) := by
  -- A loop that goes on has seen the lexeme that it takes first.
  have hround : ∀ {q : Token → Bool} {first : Task} {ts : List Task},
      (if nextIs q ls then Except.ok (first :: ts) else .ok []) =
        (.ok tasks : Except Grammar.Failure _) →
      (∀ task ∈ ts, task.asks = false) → Guarded ls.length (tasks ++ todo) := by
    intro q first ts hplan hts
    clear h
    split at hplan
    · rename_i hnext
      obtain ⟨l, ls, rfl, -⟩ := exists_cons_of_nextIs hnext
      cases hplan
      exact .first (calm_append _ hts htodo)
    · cases hplan
      exact .calm htodo
  cases p with
  | rule r => exact Rule.guarded_of_plan h (fun hr => hls (decide_eq_true hr)) htodo
  | statements =>
    cases ls with
    | nil | cons _ _ =>
      cases h
      exact .calm (calm_append _ (by decide) htodo)
  | afterStatement =>
    simp only [plan] at h
    split at h
    · cases h
    · cases h
      exact .calm (calm_append _ (by decide) htodo)
  | arguments =>
    simp only [plan] at h
    split at h
    · cases h
      exact .calm htodo
    · cases h
      exact .calm (calm_append _ (by decide) htodo)
  | summands | factors | calls | afterArgument => exact hround h (by decide)

/-! ## Steps and runs -/

/-- The top frame asks for no more lexemes than are ahead, and the others for none. -/
def GuardedStack (n : Nat) : List Frame → Prop
  | [] => True
  | fr :: below => Guarded n fr.todo ∧ ∀ fr' ∈ below, Calm fr'.todo

/-- The number of frames that were entered one level deeper. -/
def levels (stack : List Frame) : Nat := stack.countP (·.deeper)

@[simp] theorem levels_cons (fr : Frame) (stack : List Frame) :
    levels (fr :: stack) = levels stack + if fr.deeper then 1 else 0 :=
  List.countP_cons

theorem levels_congr {fr fr' : Frame} (h : fr'.deeper = fr.deeper) (below : List Frame) :
    levels (fr' :: below) = levels (fr :: below) := by
  rw [levels_cons, levels_cons, h]

/-- Leaving a frame gives back the level that it was entered with. -/
theorem Frame.leave_levels (fr : Frame) (below : List Frame) :
    fr.leave (levels (fr :: below)) = levels below := by
  rw [levels_cons, leave]
  split
  · exact Nat.add_sub_cancel ..
  · rfl

/-- **What every state of a descent keeps to.** -/
structure Bounded (D : Descent) (c : Config) : Prop where
  pos_le : c.pos ≤ D.lexemes.length
  depth_le : c.depth ≤ D.limit
  depth_eq : c.depth = levels c.stack
  guarded : c.failure = none → GuardedStack (D.lexemes.length - c.pos) c.stack

variable {D : Descent}

theorem bounded_start : D.Bounded start where
  pos_le := Nat.zero_le _
  depth_le := Nat.zero_le _
  depth_eq := rfl
  guarded _ := ⟨.calm (calm_cons.mpr ⟨rfl, calm_nil⟩), List.forall_mem_nil _⟩

theorem length_ahead (c : Config) : (D.ahead c).length = D.lexemes.length - c.pos :=
  List.length_drop

namespace Bounded

section Top
variable {pos depth : Nat} {rows : Array TableNode} {fr : Frame} {below : List Frame}
  (h : D.Bounded ⟨pos, depth, rows, none, fr :: below⟩)
include h

/-- The top frame goes on. -/
theorem go_on {pos' : Nat} {rows' : Array TableNode} {fr' : Frame}
    (hdeeper : fr'.deeper = fr.deeper) (hpos : pos' ≤ D.lexemes.length)
    (htodo : Guarded (D.lexemes.length - pos') fr'.todo) :
    D.Bounded ⟨pos', depth, rows', none, fr' :: below⟩ where
  pos_le := hpos
  depth_le := h.depth_le
  depth_eq := h.depth_eq.trans (levels_congr hdeeper below).symm
  guarded _ := ⟨htodo, (h.guarded rfl).2⟩

/-- A failure comes up in the top frame. -/
theorem fail {rows' : Array TableNode} {fr' : Frame} {f : Grammar.Failure}
    (hdeeper : fr'.deeper = fr.deeper) : D.Bounded ⟨pos, depth, rows', some f, fr' :: below⟩ where
  pos_le := h.pos_le
  depth_le := h.depth_le
  depth_eq := h.depth_eq.trans (levels_congr hdeeper below).symm
  guarded h := by cases h

/-- A rule is called, one level deeper or not. -/
theorem enter {r : Rule} {fr' : Frame} (deeper : Bool) (hdeeper : fr'.deeper = fr.deeper)
    (htodo : Calm fr'.todo) (hasks : r = .argList → 0 < D.lexemes.length - pos)
    (hdepth : depth + (if deeper then 1 else 0) ≤ D.limit) :
    D.Bounded ⟨pos, depth + if deeper then 1 else 0, rows, none,
      .enter r deeper :: fr' :: below⟩ where
  pos_le := h.pos_le
  depth_le := hdepth
  depth_eq := by
    rw [levels_cons, levels_congr hdeeper, ← h.depth_eq]
    rfl
  guarded _ := by
    refine ⟨.singleton fun hr => hasks (of_decide_eq_true hr), ?_⟩
    exact List.forall_mem_cons.mpr ⟨htodo, (h.guarded rfl).2⟩

end Top

/-- What a task of the top frame leads to. -/
theorem of_perform {pos depth : Nat} {rows : Array TableNode} {task : Task} {todo : List Task}
    {children : List Nat} {deeper : Bool} {below : List Frame} {c' : Config}
    (h : D.Bounded ⟨pos, depth, rows, none, ⟨task :: todo, children, deeper⟩ :: below⟩)
    (hstep : D.perform ⟨pos, depth, rows, none, ⟨task :: todo, children, deeper⟩ :: below⟩
      ⟨todo, children, deeper⟩ below task = some c') : D.Bounded c' := by
  have hguarded : Guarded (D.lexemes.length - pos) (task :: todo) := (h.guarded rfl).1
  have hahead := length_ahead (D := D)
    ⟨pos, depth, rows, none, ⟨task :: todo, children, deeper⟩ :: below⟩
  cases task with
  | take k =>
    obtain ⟨hpos, htodo⟩ := hguarded.of_take
    simp only [perform] at hstep
    split at hstep
    · cases hstep
      refine h.go_on rfl (by omega) ?_
      rw [Nat.sub_add_eq]
      exact htodo
    · cases hstep
  | expect t k =>
    have htodo := hguarded.calm_tail rfl
    simp only [perform] at hstep
    split at hstep
    · rename_i hnext
      obtain ⟨l, ls, hls, -⟩ := exists_cons_of_nextIs hnext
      cases hstep
      rw [hls] at hahead
      refine h.go_on rfl h.pos_le ?_
      rw [← hahead]
      exact .first htodo
    · cases hstep
      exact h.fail rfl
  | call r =>
    cases hstep
    exact h.enter false rfl
      (hguarded.calm_tail rfl) (fun hr => hguarded.pos_of_asks (decide_eq_true hr)) h.depth_le
  | nest r =>
    simp only [perform] at hstep
    split at hstep
    · rename_i hdepth
      cases hstep
      exact h.enter true rfl
        (hguarded.calm_tail rfl) (fun hr => hguarded.pos_of_asks (decide_eq_true hr)) hdepth
    · cases hstep
      exact h.fail rfl
  | node k =>
    simp only [perform] at hstep
    split at hstep
    · cases hstep
      exact h.go_on rfl h.pos_le (.calm (hguarded.calm_tail rfl))
    · cases hstep
      exact h.fail rfl
  | root =>
    cases hstep
    exact h.go_on rfl h.pos_le (.calm (hguarded.calm_tail rfl))
  | skip =>
    have htodo := hguarded.calm_tail rfl
    simp only [perform] at hstep
    split at hstep
    · rename_i hnext
      obtain ⟨l, ls, hls, -⟩ := exists_cons_of_nextIs hnext
      cases hstep
      rw [hls] at hahead
      have hpos : pos + 1 ≤ D.lexemes.length := by
        simp only [List.length_cons] at hahead
        omega
      exact h.go_on rfl hpos (.calm (calm_cons.mpr ⟨rfl, htodo⟩))
    · cases hstep
      exact h.go_on rfl h.pos_le (.calm htodo)
  | goto p =>
    simp only [perform] at hstep
    split at hstep
    · rename_i tasks hplan
      cases hstep
      refine h.go_on rfl h.pos_le ?_
      rw [← hahead]
      refine Point.guarded_of_plan hplan (fun hasks => ?_) (hguarded.calm_tail rfl)
      have hpos := hguarded.pos_of_asks hasks
      rw [← hahead] at hpos
      exact List.length_pos_iff.mp hpos
    · cases hstep
      exact h.fail rfl

/-- **Every step keeps the bounds.** -/
theorem of_step {c c' : Config} (h : D.Bounded c) (hstep : D.step c = some c') : D.Bounded c' := by
  obtain ⟨pos, depth, rows, failure, stack⟩ := c
  cases stack with
  | nil => cases failure <;> cases hstep
  | cons fr below =>
    have hlevels : depth = levels (fr :: below) := h.depth_eq
    have hleave : fr.leave depth = levels below := hlevels ▸ fr.leave_levels below
    have hle : fr.leave depth ≤ D.limit := by
      have hdepth : depth ≤ D.limit := h.depth_le
      rw [hlevels, levels_cons] at hdepth
      omega
    cases failure with
    | some f =>
      cases hstep
      exact ⟨h.pos_le, hle, hleave, fun hnone => by cases hnone⟩
    | none =>
      obtain ⟨todo, children, deeper⟩ := fr
      cases todo with
      | cons task todo => exact h.of_perform hstep
      | nil =>
        -- Only a frame with one node, above another, can hand it on.
        cases children with
        | nil => cases hstep
        | cons i more =>
          cases more with
          | cons _ _ => cases hstep
          | nil =>
            cases below with
            | nil => cases hstep
            | cons fr' below =>
              cases hstep
              have hcalm := List.forall_mem_cons.mp (h.guarded rfl).2
              exact ⟨h.pos_le, hle, hleave, fun _ => ⟨.calm hcalm.1, hcalm.2⟩⟩

/-- **Every state of a descent keeps to the bounds.** -/
theorem of_reaches {c c' : Config} (h : D.Bounded c) (hreach : D.Reaches c c') : D.Bounded c' := by
  obtain ⟨n, hn⟩ := hreach
  induction n generalizing c with
  | zero =>
    cases hn
    exact h
  | succ n ih =>
    obtain ⟨c₁, hstep, hrun⟩ := Option.bind_eq_some_iff.mp hn
    exact ih (h.of_step hstep) hrun

/-- A lexeme is only taken where there is one. -/
theorem pos_lt_of_take {c : Config} {k : NodeKind} (h : D.Bounded c)
    (hnext : c.next? = some (.take k)) : c.pos < D.lexemes.length := by
  obtain ⟨pos, depth, rows, failure, stack⟩ := c
  cases failure with
  | some f => cases hnext
  | none =>
    cases stack with
    | nil => cases hnext
    | cons fr below =>
      obtain ⟨todo, children, deeper⟩ := fr
      cases todo with
      | nil => cases hnext
      | cons task todo =>
        cases hnext
        exact Nat.lt_of_sub_pos (h.guarded rfl).1.of_take.1

end Bounded

end ArithWat.Descent
