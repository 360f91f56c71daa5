import ArithWat.Meaning.Machine
import ArithWat.Proofs.Outcome

/-!
# Code does what its program means

The stack machine, started on the body of a program whose variables are all set
before they are read, comes to the end of the code without getting stuck, and its
slots then hold the store that the evaluation of the program ends with.

The simulation goes from statement to statement.  Between two of them the machine
*holds* a store (`Body.holding`): the stack is empty, every declared slot has the
value that the store gives it, and the host is in the store's state.  The code of an
expression pushes its value over any stack (`Expr.run_code`), the code of a statement
leads from the store before it to the store after it (`Stmt.run_code`), and
`Program.run_codeFrom` follows a whole program.  Only the check of scopes keeps an
expression from reading a slot that is not declared.
-/

namespace ArithWat
variable {σ : Type}

/-! ## Declared slots -/

namespace Scope

/-- A scope is part of another if every variable of it is set there. -/
def Within (s t : Scope) : Prop := ∀ x, s.isDefined x = true → t.isDefined x = true

theorem within_define (s : Scope) (x : String) : s.Within (s.define x) := by
  intro y hy
  rw [isDefined_define, hy, Bool.true_or]

end Scope

/-- A scope only grows along a program. -/
theorem Program.within_scopeFrom (p : Program) (scope : Scope) :
    scope.Within (p.scopeFrom scope) := by
  induction p generalizing scope with
  | nil => exact fun _ hx => hx
  | cons s p ih =>
    cases s with
    | define name value =>
      exact fun x hx => ih (scope.define name) x (scope.within_define name x hx)
    | expr value => exact ih scope

/-- The named slots of a body are the variables of the program's scope. -/
theorem Program.named_mem_locals_iff (p : Program) (x : String) :
    Slot.named x ∈ p.body.locals ↔ p.scope.isDefined x = true := by
  simp [Program.body, Scope.isDefined]

/-! ## What the machine holds between statements -/

/-- The value that a store gives a slot. -/
def Store.value (st : Store σ) : Slot → Word
  | .scratch => st.last
  | .named x => st.vars x

/-- **A configuration that holds a store**: nothing is on the stack, and every
declared slot has its value in the store. -/
def Body.holding (b : Body) (st : Store σ) : Config σ where
  stack := []
  slots slot := if slot ∈ b.locals then some (st.value slot) else none
  host := st.host

/-- A body is entered holding the store in which everything is zero. -/
theorem Body.entry_eq_holding (b : Body) (s : σ) : b.entry s = b.holding (.initial s) := by
  have hzero : ∀ slot, (Store.initial s).value slot = 0 := by
    intro slot
    cases slot <;> rfl
  simp only [Body.entry, Body.holding, hzero]
  rfl

theorem Body.holding_slots {b : Body} {slot : Slot} (hslot : slot ∈ b.locals) (st : Store σ) :
    (b.holding st).slots slot = some (st.value slot) :=
  if_pos hslot

/-! ## The simulation -/

/-- **The code of an expression pushes its value**, over any stack, and takes the host
where the evaluation takes it.  `vars` need only agree with the slots of variables
that the check has seen set. -/
theorem Expr.run_code {h : Host σ} {e : Expr} {scope : Scope} {vars : String → Word}
    {slots : Slot → Option Word} (hcheck : e.check scope = .ok ())
    (hvars : ∀ x, scope.isDefined x = true → slots (.named x) = some (vars x))
    (stack : List Word) (s : σ) :
    run h e.code ⟨stack, slots, s⟩ =
      some ⟨(e.eval h vars s).1 :: stack, slots, (e.eval h vars s).2⟩ := by
  induction e generalizing stack s with
  | num v => rfl
  | ref name span =>
    have hdef : scope.isDefined name = true := by
      simp only [Expr.check] at hcheck
      split at hcheck
      · assumption
      · cases hcheck
    simp [Expr.code, run, Instr.step, hvars name hdef, Expr.eval]
  | binary op l r ihl ihr =>
    obtain ⟨_, hl, hr⟩ := Except.bind_eq_ok_iff.mp hcheck
    rw [Expr.code, run_append, run_append, ihl hl, Option.bind_some, ihr hr]
    rfl
  | call1 f a iha =>
    rw [Expr.code, run_append, iha hcheck, Option.bind_some]
    simp only [run, Instr.step, Builtin.find?_unary, Option.bind_some, Expr.eval]
  | call2 f a b iha ihb =>
    obtain ⟨_, ha, hb⟩ := Except.bind_eq_ok_iff.mp hcheck
    rw [Expr.code, run_append, run_append, iha ha, Option.bind_some, ihb hb, Option.bind_some]
    simp only [run, Instr.step, Builtin.find?_binary, Option.bind_some, Expr.eval]

/-- The expression of a statement. -/
def Stmt.value : Stmt → Expr
  | define _ value => value
  | expr value => value

/-- The slot that a statement sets. -/
def Stmt.target : Stmt → Slot
  | define name _ => .named name
  | expr _ => .scratch

/-- The code of a statement is that of its expression, and then a store. -/
theorem Stmt.code_eq (s : Stmt) : s.code = s.value.code ++ [.set s.target] := by
  cases s with
  | define name value => exact code_define name value
  | expr value => exact code_expr value

/-- A statement changes the slot that it sets and no other. -/
theorem Stmt.value_eval (h : Host σ) (s : Stmt) (st : Store σ) (slot : Slot) :
    (s.eval h st).value slot =
      if slot = s.target then (s.value.eval h st.vars st.host).1 else st.value slot := by
  cases s <;> cases slot <;> simp [Stmt.eval, Stmt.target, Stmt.value, Store.value]

theorem Stmt.host_eval (h : Host σ) (s : Stmt) (st : Store σ) :
    (s.eval h st).host = (s.value.eval h st.vars st.host).2 := by
  cases s <;> rfl

/-- **The code of a statement** leads from holding one store to holding the next. -/
theorem Stmt.run_code {h : Host σ} {s : Stmt} {scope : Scope} {b : Body} (st : Store σ)
    (hcheck : s.value.check scope = .ok ())
    (hscope : ∀ x, scope.isDefined x = true → Slot.named x ∈ b.locals)
    (htarget : s.target ∈ b.locals) :
    run h s.code (b.holding st) = some (b.holding (s.eval h st)) := by
  have hvars : ∀ x, scope.isDefined x = true →
      (b.holding st).slots (.named x) = some (st.vars x) :=
    fun x hx => Body.holding_slots (hscope x hx) st
  have hvalue := Expr.run_code (h := h) hcheck hvars [] st.host
  rw [s.code_eq, run_append, show b.holding st = ⟨[], (b.holding st).slots, st.host⟩ from rfl,
    hvalue, Option.bind_some]
  simp only [run, Instr.step, Body.holding_slots htarget, Option.bind_some, Option.some.injEq]
  simp only [Body.holding, s.host_eval, Config.mk.injEq, true_and, and_true]
  funext slot
  rw [s.value_eval]
  by_cases hslot : slot = s.target
  · subst hslot
    simp [htarget]
  · simp [hslot]

/-- The code of a program leads from holding one store to holding the next, as long as
the body declares every variable that is set on the way. -/
theorem Program.run_codeFrom {h : Host σ} {p : Program} {scope : Scope} {b : Body}
    (st : Store σ) (hcheck : p.checkFrom scope = .ok ()) (hscratch : Slot.scratch ∈ b.locals)
    (hscope : ∀ x, (p.scopeFrom scope).isDefined x = true → Slot.named x ∈ b.locals) :
    run h p.code (b.holding st) = some (b.holding (p.eval h st)) := by
  -- The scope that the check is in grows along the program; the slots are those of its end.
  induction p generalizing scope st with
  | nil => rfl
  | cons s p ih =>
    have hnow : ∀ x, scope.isDefined x = true → Slot.named x ∈ b.locals :=
      fun x hx => hscope x (Program.within_scopeFrom (s :: p) scope x hx)
    have hstep : ∀ scope', s.value.check scope = .ok () → s.target ∈ b.locals →
        Program.checkFrom scope' p = .ok () →
        (∀ x, (Program.scopeFrom scope' p).isDefined x = true → Slot.named x ∈ b.locals) →
        run h (Program.code (s :: p)) (b.holding st) =
          some (b.holding (Program.eval h (s :: p) st)) := by
      intro scope' hvalue htarget hrest hscope'
      rw [Program.code_cons, run_append, Stmt.run_code st hvalue hnow htarget, Option.bind_some]
      exact ih (s.eval h st) hrest hscope'
    cases s with
    | define name value =>
      obtain ⟨_, hvalue, hrest⟩ := Except.bind_eq_ok_iff.mp hcheck
      have hname : (Program.scopeFrom (scope.define name) p).isDefined name = true :=
        Program.within_scopeFrom p _ name (by simp)
      exact hstep _ hvalue (hscope name hname) hrest hscope
    | expr value =>
      obtain ⟨_, hvalue, hrest⟩ := Except.bind_eq_ok_iff.mp hcheck
      exact hstep _ hvalue hscratch hrest hscope

/-- **The body of a checked program computes what the program means.**  Whatever the
builtins do, the code neither finds too few values on the stack nor meets a slot that
is not declared; it ends with an empty stack and the host where the evaluation leaves
it, each variable's slot holds its last value, and the scratch slot holds the value of
the last expression statement, zero if there is none. -/
theorem Program.run_body (h : Host σ) (p : Program) (s : σ) (hcheck : p.check = .ok ()) :
    ∃ c, run h p.body.instrs (p.body.entry s) = some c ∧
      c.stack = [] ∧
      c.host = (p.eval h (.initial s)).host ∧
      (∀ x, Slot.named x ∈ p.body.locals →
        c.slots (.named x) = some ((p.eval h (.initial s)).vars x)) ∧
      c.slots .scratch = some (p.eval h (.initial s)).last := by
  have hscratch : Slot.scratch ∈ p.body.locals := List.mem_cons_self
  refine ⟨p.body.holding (p.eval h (.initial s)), ?_, rfl, rfl, ?_, ?_⟩
  · rw [Body.entry_eq_holding]
    exact Program.run_codeFrom _ hcheck hscratch fun x hx => (p.named_mem_locals_iff x).mpr hx
  · exact fun x hx => Body.holding_slots hx _
  · exact Body.holding_slots hscratch _

/-- A host that records what is printed; the other builtins do what their names say. -/
def Host.recording : Host (List Word) where
  unary
    | .print, a, trace => (a, trace ++ [a])
    | .abs, a, trace => (if a.msb then -a else a, trace)
  binary
    | .min, a, b, trace => (if a.slt b then a else b, trace)
    | .max, a, b, trace => (if a.slt b then b else a, trace)
    | .pow, a, b, trace => (a.pow b.toNat, trace)

/-- A program that sets a variable twice and prints twice within one statement. -/
theorem Program.run_body_recording :
    let x := Expr.ref "x" ⟨0, 1⟩
    let p : Program :=
      [.define "x" (.num 5),
       .expr (.binary .sub (.call1 .print (.binary .sub x (.num 7))) (.call1 .print x)),
       .define "x" (.binary .mul x (.num (-3)))]
    p.check = .ok () ∧
    ∃ c, run .recording p.body.instrs (p.body.entry []) = some c ∧
      c.stack = [] ∧ c.host = [-2, 5] ∧
      c.slots (.named "x") = some (-15) ∧ c.slots .scratch = some (-7) := by
  intro x p
  have hcheck : p.check = .ok () := rfl
  have hlocal : Slot.named "x" ∈ p.body.locals := by decide
  obtain ⟨c, hrun, hstack, hhost, hnamed, hscratch⟩ := Program.run_body .recording p [] hcheck
  refine ⟨hcheck, c, hrun, hstack, ?_, ?_, ?_⟩
  · rw [hhost]; decide
  · rw [hnamed "x" hlocal]; decide
  · rw [hscratch]; decide

end ArithWat
