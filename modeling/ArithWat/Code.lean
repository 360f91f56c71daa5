import ArithWat.Program.Scope

/-!
# Code

Code for a stack machine of 32-bit words with named local slots, and the code of
a program.  The code of an expression leaves its value on the stack; the code of
a statement stores that value, so it begins and ends with an empty stack.

Code is emitted instruction by instruction, behind what has been emitted before.
`Expr.code` is what an expression adds (`Expr.toList_emit`), so the code of a
program is that of its statements one after the other (`Program.code_eq_flatMap`).
Every program has a body, whether or not it reads a variable that it does not set.
-/

namespace ArithWat

/-- A local slot: one for each variable, and one for the values of expression
statements. -/
inductive Slot where
  | scratch
  | named (name : String)
  deriving DecidableEq, Repr

/-- The instructions. -/
inductive Instr where
  /-- Pushes a constant. -/
  | const (value : Int)
  /-- Pushes the value of a slot. -/
  | get (slot : Slot)
  /-- Pops a value into a slot. -/
  | set (slot : Slot)
  /-- Pops two values and pushes the result. -/
  | arith (op : ArithOp)
  /-- Pops as many arguments as `arity` says and pushes the result of the function. -/
  | call (func : String) (arity : Nat)
  deriving DecidableEq, Repr

/-- By how much an instruction changes the depth of the stack. -/
def Instr.stackEffect : Instr → Int
  | const _ | get _ => 1
  | set _ | arith _ => -1
  | call _ arity => 1 - arity

/-- **The body of a function**: its slots and its instructions. -/
structure Body where
  locals : List Slot
  instrs : List Instr
  deriving DecidableEq, Repr

/-! ## Emitting code -/

/-- Emits an expression: operands from the left, then the operation. -/
def Expr.emit : Expr → Array Instr → Array Instr
  | num v, out => out.push (.const v)
  | ref name _, out => out.push (.get (.named name))
  | binary op l r, out => (r.emit (l.emit out)).push (.arith op)
  | call1 f a, out => (a.emit out).push (.call f.name 1)
  | call2 f a b, out => (b.emit (a.emit out)).push (.call f.name 2)

/-- Emits a statement. -/
def Stmt.emit : Stmt → Array Instr → Array Instr
  | define name value, out => (value.emit out).push (.set (.named name))
  | expr value, out => (value.emit out).push (.set .scratch)

/-- The code of a statement by itself. -/
def Stmt.code (s : Stmt) : List Instr := (s.emit #[]).toList

/-- The code of a program: its statements are emitted in their order. -/
def Program.code (p : Program) : List Instr := (p.foldl (fun out s => s.emit out) #[]).toList

/-- **The body of a program.**  Its slots are the scratch slot and one for each variable
that the program sets, in the order of their first definition. -/
def Program.body (p : Program) : Body where
  locals := .scratch :: p.scope.names.map .named
  instrs := p.code

/-! ## What is emitted -/

/-- The code of an expression. -/
def Expr.code : Expr → List Instr
  | num v => [.const v]
  | ref name _ => [.get (.named name)]
  | binary op l r => l.code ++ r.code ++ [.arith op]
  | call1 f a => a.code ++ [.call f.name 1]
  | call2 f a b => a.code ++ b.code ++ [.call f.name 2]

/-- An expression adds its code to what has been emitted. -/
theorem Expr.toList_emit (e : Expr) (out : Array Instr) :
    (e.emit out).toList = out.toList ++ e.code := by
  induction e generalizing out with
  | num v => exact Array.toList_push
  | ref name span => exact Array.toList_push
  | binary op l r ihl ihr => simp only [emit, code, Array.toList_push, ihl, ihr, List.append_assoc]
  | call1 f a iha => simp only [emit, code, Array.toList_push, iha, List.append_assoc]
  | call2 f a b iha ihb => simp only [emit, code, Array.toList_push, iha, ihb, List.append_assoc]

/-- A statement adds what it would emit by itself. -/
theorem Stmt.toList_emit (s : Stmt) (out : Array Instr) :
    (s.emit out).toList = out.toList ++ s.code := by
  cases s with
  | define name value => simp [code, emit, Expr.toList_emit]
  | expr value => simp [code, emit, Expr.toList_emit]

@[simp] theorem Stmt.code_define (name : String) (value : Expr) :
    (define name value).code = value.code ++ [.set (.named name)] := by
  simp [code, emit, Expr.toList_emit]

@[simp] theorem Stmt.code_expr (value : Expr) :
    (expr value).code = value.code ++ [.set .scratch] := by
  simp [code, emit, Expr.toList_emit]

namespace Program

theorem toList_foldl_emit (p : Program) (out : Array Instr) :
    (p.foldl (fun out s => s.emit out) out).toList = out.toList ++ p.flatMap Stmt.code := by
  induction p generalizing out with
  | nil => exact (List.append_nil _).symm
  | cons s p ih => rw [List.foldl_cons, ih, s.toList_emit, List.flatMap_cons, List.append_assoc]

/-- **The code of a program is that of its statements**, one after the other. -/
theorem code_eq_flatMap (p : Program) : p.code = p.flatMap Stmt.code :=
  p.toList_foldl_emit #[]

@[simp] theorem code_nil : code [] = [] := rfl

@[simp] theorem code_cons (s : Stmt) (p : Program) : code (s :: p) = s.code ++ code p := by
  rw [code_eq_flatMap, code_eq_flatMap, List.flatMap_cons]

end Program

end ArithWat
