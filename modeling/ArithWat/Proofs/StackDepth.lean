import ArithWat.Proofs.CodeMeaning
import ArithWat.Proofs.WellFormed

/-!
# How deep the stack gets

The depth of the stack after some code is the sum of the effects of its instructions
(`stackDepth`).  Code *stays within* two bounds from a given depth on if every instruction finds
the values that it takes and leaves a depth between the bounds (`Instr.StaysWithin`), which is a
condition on every first part of the code and not only on its end.

The code of an expression stays above the depth that it begins with, and never gets higher than
the height of the expression (`Expr.staysWithin_code`).  The code of a statement is that and one
store, so it begins and ends with an empty stack.  The front end limits the height of the
expressions of a script, hence the machine that runs its code never holds more than 256 values
(`Program.depth_of_code_and_compile`).
-/

namespace ArithWat

/-- How many values an instruction takes off the stack. -/
def Instr.pops : Instr → Nat
  | const _ | get _ => 0
  | set _ => 1
  | arith _ => 2
  | call _ arity => arity

/-- **The depth of the stack after some code**, from an empty stack, as the effects of the
instructions say. -/
def stackDepth : List Instr → Int
  | [] => 0
  | i :: is => i.stackEffect + stackDepth is

@[simp] theorem stackDepth_nil : stackDepth [] = 0 := rfl

@[simp] theorem stackDepth_cons (i : Instr) (is : List Instr) :
    stackDepth (i :: is) = i.stackEffect + stackDepth is := rfl

@[simp] theorem stackDepth_append (xs ys : List Instr) :
    stackDepth (xs ++ ys) = stackDepth xs + stackDepth ys := by
  induction xs with
  | nil => simp
  | cons i xs ih => rw [List.cons_append, stackDepth_cons, stackDepth_cons, ih, Int.add_assoc]

/-- **The height of an expression.**  A number and a reference have one level. -/
def Expr.height : Expr → Nat
  | num _ | ref _ _ => 1
  | binary _ l r => 1 + max l.height r.height
  | call1 _ a => 1 + a.height
  | call2 _ a b => 1 + max a.height b.height

/-- Writing an expression takes at least as many levels as it has. -/
theorem Expr.height_le_levels (e : Expr) : e.height ≤ e.levels := by
  induction e with
  | num v =>
    rw [height, levels]
    split <;> omega
  | ref name span => exact Nat.le_refl 1
  | binary op l r ihl ihr =>
    rw [height, levels]
    omega
  | call1 f a iha =>
    rw [height, levels]
    omega
  | call2 f a b iha ihb =>
    rw [height, levels]
    omega

/-! ## Bounds along code -/

namespace Instr

/-- **Code stays within two bounds** from the depth `d` on: every instruction finds the values
that it takes, and leaves a depth between the bounds. -/
def StaysWithin (low high : Int) : Int → List Instr → Prop
  | _, [] => True
  | d, i :: is =>
    i.pops ≤ d ∧ low ≤ d + i.stackEffect ∧ d + i.stackEffect ≤ high ∧
      StaysWithin low high (d + i.stackEffect) is

variable {low high d : Int}

theorem staysWithin_append {xs ys : List Instr} :
    StaysWithin low high d (xs ++ ys) ↔
      StaysWithin low high d xs ∧ StaysWithin low high (d + stackDepth xs) ys := by
  induction xs generalizing d with
  | nil => simp [StaysWithin]
  | cons i xs ih => simp [StaysWithin, ih, and_assoc, Int.add_assoc]

theorem staysWithin_singleton {i : Instr} :
    StaysWithin low high d [i] ↔
      i.pops ≤ d ∧ low ≤ d + i.stackEffect ∧ d + i.stackEffect ≤ high := by
  simp [StaysWithin]

theorem StaysWithin.mono {low' high' : Int} {is : List Instr} (h : StaysWithin low high d is)
    (hlow : low' ≤ low) (hhigh : high ≤ high') : StaysWithin low' high' d is := by
  induction is generalizing d with
  | nil => trivial
  | cons i is ih =>
    obtain ⟨hpops, hge, hle, hrest⟩ := h
    exact ⟨hpops, Int.le_trans hlow hge, Int.le_trans hle hhigh, ih hrest⟩

/-- What code that stays within its bounds does at each of its instructions. -/
theorem StaysWithin.at {before later : List Instr} {i : Instr}
    (h : StaysWithin low high d (before ++ i :: later)) :
    i.pops ≤ d + stackDepth before ∧ low ≤ d + stackDepth (before ++ [i]) ∧
      d + stackDepth (before ++ [i]) ≤ high := by
  obtain ⟨hpops, hge, hle, -⟩ := (staysWithin_append.mp h).2
  simp only [stackDepth_append, stackDepth_cons, stackDepth_nil]
  omega

/-- The depth after a first part of the code is within the bounds, if it was at the start. -/
theorem StaysWithin.depth {before later : List Instr} (h : StaysWithin low high d (before ++ later))
    (hlow : low ≤ d) (hhigh : d ≤ high) :
    low ≤ d + stackDepth before ∧ d + stackDepth before ≤ high := by
  induction before generalizing d with
  | nil => simpa using ⟨hlow, hhigh⟩
  | cons i before ih =>
    obtain ⟨-, hge, hle, hrest⟩ := h
    rw [stackDepth_cons, ← Int.add_assoc]
    exact ih hrest hge hle

end Instr

open Instr

/-! ## The code of programs -/

/-- The code of an expression leaves one value. -/
@[simp] theorem Expr.stackDepth_code (e : Expr) : stackDepth e.code = 1 := by
  induction e with
  | num v => rfl
  | ref name span => rfl
  | binary op l r ihl ihr => simp [code, ihl, ihr, stackEffect]
  | call1 f a iha => simp [code, iha, stackEffect]
  | call2 f a b iha ihb => simp [code, iha, ihb, stackEffect]

/-- Two operands one after the other: the second runs one value higher than the first. -/
theorem Instr.StaysWithin.operands {xs ys : List Instr} {d : Int} {m n : Nat}
    (hxs : StaysWithin (d + 1) (d + m) d xs) (hdepth : stackDepth xs = 1)
    (hys : StaysWithin (d + 1 + 1) (d + 1 + n) (d + 1) ys) :
    StaysWithin (d + 1) (d + (1 + max m n : Nat)) d (xs ++ ys) := by
  rw [staysWithin_append, hdepth]
  refine ⟨hxs.mono (Int.le_refl _) ?_, hys.mono ?_ ?_⟩ <;> omega

/-- **The code of an expression stays above the depth that it begins with**, and above that
needs no more than the height of the expression. -/
theorem Expr.staysWithin_code (e : Expr) {d : Int} (hd : 0 ≤ d) :
    StaysWithin (d + 1) (d + e.height) d e.code := by
  have hone : 0 ≤ d + 1 := Int.add_nonneg hd (by decide)
  induction e generalizing d with
  | num v | ref name span =>
    rw [code, staysWithin_singleton]
    simp only [pops, stackEffect, height]
    omega
  | binary op l r ihl ihr =>
    have hoperands := (ihl hd hone).operands l.stackDepth_code (ihr hone (by omega))
    rw [code, staysWithin_append, staysWithin_singleton]
    refine ⟨hoperands, ?_⟩
    simp only [stackDepth_append, stackDepth_code, pops, stackEffect, height]
    omega
  | call1 f a iha =>
    have harg : StaysWithin (d + 1) (d + (call1 f a).height) d a.code := by
      refine (iha hd hone).mono (Int.le_refl _) ?_
      simp only [height]
      omega
    rw [code, staysWithin_append, staysWithin_singleton]
    refine ⟨harg, ?_⟩
    simp only [stackDepth_code, pops, stackEffect, height]
    omega
  | call2 f a b iha ihb =>
    have hoperands := (iha hd hone).operands a.stackDepth_code (ihb hone (by omega))
    rw [code, staysWithin_append, staysWithin_singleton]
    refine ⟨hoperands, ?_⟩
    simp only [stackDepth_append, stackDepth_code, pops, stackEffect, height]
    omega

/-- The code of a statement leaves the stack as it was. -/
theorem Stmt.stackDepth_code (s : Stmt) : stackDepth s.code = 0 := by
  simp [s.code_eq, stackEffect]

theorem Stmt.staysWithin_code (s : Stmt) : StaysWithin 0 s.value.height 0 s.code := by
  have hvalue : StaysWithin 0 s.value.height 0 s.value.code := by
    refine (s.value.staysWithin_code (Int.le_refl 0)).mono (by decide) ?_
    omega
  rw [s.code_eq, staysWithin_append, staysWithin_singleton]
  refine ⟨hvalue, ?_⟩
  simp only [Expr.stackDepth_code, pops, stackEffect]
  omega

/-- **What each instruction of a statement does to the stack.**  It finds the values that it
takes; the depth after it is at most the height of the expression, and zero after the last
instruction and no other. -/
theorem Stmt.depth_of_code {s : Stmt} {before later : List Instr} {i : Instr}
    (h : s.code = before ++ i :: later) :
    i.pops ≤ stackDepth before ∧ stackDepth (before ++ [i]) ≤ s.value.height ∧
      (later ≠ [] → 1 ≤ stackDepth (before ++ [i])) ∧
      (later = [] → stackDepth (before ++ [i]) = 0) := by
  have hstmt := s.staysWithin_code
  rw [h] at hstmt
  obtain ⟨hpops, -, hle⟩ := hstmt.at
  refine ⟨by simpa using hpops, by simpa using hle, fun hlater => ?_, fun hlater => ?_⟩
  · -- Before its last instruction the code is that of the expression.
    obtain ⟨later', j, rfl⟩ := (List.eq_nil_or_concat later).resolve_left hlater
    rw [s.code_eq, List.concat_eq_append, ← List.cons_append, ← List.append_assoc] at h
    have hvalue := s.value.staysWithin_code (Int.le_refl 0)
    rw [(List.append_inj' h rfl).1] at hvalue
    simpa using hvalue.at.2.1
  · rw [← s.stackDepth_code, h, hlater]

theorem Program.staysWithin_code {p : Program} {high : Nat} (h : ∀ s ∈ p, s.value.height ≤ high) :
    StaysWithin 0 high 0 p.code := by
  induction p with
  | nil => trivial
  | cons s p ih =>
    obtain ⟨hs, hp⟩ := List.forall_mem_cons.mp h
    have hstmt : StaysWithin 0 high 0 s.code := s.staysWithin_code.mono (Int.le_refl 0) (by omega)
    rw [code_cons, staysWithin_append, s.stackDepth_code]
    exact ⟨hstmt, ih hp⟩

/-! ## The machine -/

section
variable {σ : Type} {h : Host σ}

/-- A step changes the depth of the stack as the effect of the instruction says. -/
theorem Instr.length_stack_of_step {i : Instr} {c c' : Config σ} (hstep : i.step h c = some c') :
    (c'.stack.length : Int) = c.stack.length + i.stackEffect := by
  obtain ⟨stack, slots, host⟩ := c
  cases i with
  | const v =>
    cases hstep
    simp [stackEffect]
  | get slot =>
    obtain ⟨w, -, rfl⟩ := Option.map_eq_some_iff.mp hstep
    simp [stackEffect]
  | set slot =>
    rcases stack with _ | ⟨w, stack⟩
    · cases hstep
    · simp only [step] at hstep
      split at hstep
      · cases ‹_ :: _ = _›
        cases hstep
        simp only [stackEffect, List.length_cons]
        omega
      · cases hstep
  | arith op =>
    rcases stack with _ | ⟨b, _ | ⟨a, stack⟩⟩
    · cases hstep
    · cases hstep
    · cases hstep
      simp only [stackEffect, List.length_cons]
      omega
  | call func arity =>
    simp only [step] at hstep
    split at hstep
    · -- A builtin that is found takes as many arguments as the call says.
      rename_i f a rest hfind
      obtain ⟨-, rfl⟩ := Builtin.find?_eq_some hfind
      cases hstep
      simp [stackEffect, Builtin.arity]
    · rename_i f b a rest hfind
      obtain ⟨-, rfl⟩ := Builtin.find?_eq_some hfind
      cases hstep
      simp only [stackEffect, Builtin.arity, List.length_cons]
      omega
    · cases hstep

/-- **A run changes the depth of the stack by the depth of its code.** -/
theorem length_stack_of_run {is : List Instr} {c c' : Config σ} (hrun : run h is c = some c') :
    (c'.stack.length : Int) = c.stack.length + stackDepth is := by
  induction is generalizing c with
  | nil =>
    cases hrun
    simp
  | cons i is ih =>
    obtain ⟨d, hstep, hrest⟩ := Option.bind_eq_some_iff.mp hrun
    rw [ih hrest, length_stack_of_step hstep, stackDepth_cons, Int.add_assoc]

/-- The code of a checked program runs from entry to end, through every first part of it. -/
theorem Program.exists_run_of_check {p : Program} (hcheck : p.check = .ok ()) (s : σ)
    {before later : List Instr} (hcode : p.code = before ++ later) :
    ∃ c, run h before (p.body.entry s) = some c ∧ (c.stack.length : Int) = stackDepth before := by
  have hrun : run h p.code (p.body.entry s) = some (p.body.holding (p.eval h (.initial s))) := by
    rw [Body.entry_eq_holding]
    exact run_codeFrom _ hcheck List.mem_cons_self fun x hx => (p.named_mem_locals_iff x).mpr hx
  rw [hcode, run_append] at hrun
  obtain ⟨c, hbefore, -⟩ := Option.bind_eq_some_iff.mp hrun
  refine ⟨c, hbefore, ?_⟩
  rw [length_stack_of_run hbefore]
  simp [Body.entry]

end

theorem Program.IsExpressible.height_le {p : Program} (hp : p.IsExpressible) :
    ∀ s ∈ p, s.value.height ≤ maxNesting := by
  intro s hs
  have hlevels : s.value.levels ≤ maxNesting := by
    have hexpr := hp s hs
    cases s with
    | define name value => exact hexpr.2.2
    | expr value => exact hexpr.2
  exact Nat.le_trans s.value.height_le_levels hlevels

/-- **The stack discipline of generated code.**  The code of a program is that of its statements
one after the other.  Within the code of a statement, every instruction finds the values that it
takes, the depth is zero after the last instruction and at least one after every other, and it
never exceeds the height of the expression.  So the machine, whatever the builtins do, runs
through the code of a script that compiles with never more than 256 values on its stack. -/
theorem Program.depth_of_code_and_compile :
    (∀ p : Program, p.body.instrs = p.flatMap Stmt.code ∧
      ∀ s ∈ p, ∀ before i later, s.code = before ++ i :: later →
        i.pops ≤ stackDepth before ∧ stackDepth (before ++ [i]) ≤ s.value.height ∧
        (later ≠ [] → 1 ≤ stackDepth (before ++ [i])) ∧
        (later = [] → stackDepth (before ++ [i]) = 0)) ∧
    ∀ source b, Script.compile source = .ok b →
      ∀ (σ : Type) (h : Host σ) (s : σ) (before later : List Instr), b.instrs = before ++ later →
        0 ≤ stackDepth before ∧ stackDepth before ≤ 256 ∧
        ∃ c, run h before (b.entry s) = some c ∧ (c.stack.length : Int) = stackDepth before := by
  refine ⟨fun p => ⟨p.code_eq_flatMap, fun s _ before i later => Stmt.depth_of_code⟩, ?_⟩
  intro source b hcompile σ h s before later hcode
  obtain ⟨p, hparse, hcheck, rfl⟩ := Script.compile_eq_ok hcompile
  have hwithin : StaysWithin 0 maxNesting 0 (before ++ later) := by
    rw [← hcode]
    exact Program.staysWithin_code (isExpressible_of_parse hparse).height_le
  obtain ⟨hge, hle⟩ := hwithin.depth (Int.le_refl 0) (by decide)
  rw [Int.zero_add] at hge hle
  exact ⟨hge, hle, Program.exists_run_of_check hcheck s hcode⟩

/-- A script of which an expression of height four has four values on the stack at a time, and
what the machine holds then. -/
theorem Program.depth_of_code_and_compile_nested :
    let source := "x = 7\nmax(x, min(2, 3 * -4))"
    let before : List Instr :=
      [.const 7, .set (.named "x"), .get (.named "x"), .const 2, .const 3, .const (-4)]
    let later : List Instr :=
      [.arith .mul, .call "min" 2, .call "max" 2, .set .scratch]
    let b : Body := ⟨[.scratch, .named "x"], before ++ later⟩
    let e : Expr := .call2 .max (.ref "x" ⟨10, 11⟩)
      (.call2 .min (.num 2) (.binary .mul (.num 3) (.num (-4))))
    Script.compile source = .ok b ∧ (Stmt.expr e).code = before.drop 2 ++ later ∧ e.height = 4 ∧
      stackDepth (before.drop 2) ≤ 4 ∧
      ∃ c, run .recording before (b.entry []) = some c ∧ c.stack.length = 4 := by
  intro source before later b e
  obtain ⟨hcode, hmachine⟩ := Program.depth_of_code_and_compile
  have hcompile : Script.compile source = .ok b := by decide +kernel
  obtain ⟨-, -, c, hrun, hlength⟩ :=
    hmachine source b hcompile _ .recording [] before later rfl
  have hexpr := ((hcode [.expr e]).2 _ List.mem_cons_self [.get (.named "x"), .const 2, .const 3]
    (.const (-4)) later rfl).2.1
  refine ⟨hcompile, rfl, rfl, hexpr, c, hrun, ?_⟩
  have hdepth : stackDepth before = 4 := rfl
  omega

end ArithWat
