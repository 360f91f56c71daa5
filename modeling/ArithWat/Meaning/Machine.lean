import ArithWat.Code
import ArithWat.Meaning.Eval

/-!
# The stack machine

What code does.  A configuration has a stack, the slots with their values, and the
state of the host.  An instruction that finds too few values on the stack, a slot
that is not declared, or a function that is no builtin with that many arguments, has
no next configuration.
-/

namespace ArithWat

/-- A configuration of the machine.  A slot that is not declared has no value. -/
structure Config (σ : Type) where
  stack : List Word
  slots : Slot → Option Word
  host : σ

variable {σ : Type}

/-- The configuration in which a body is entered: the stack is empty and every
slot is zero. -/
def Body.entry (b : Body) (s : σ) : Config σ where
  stack := []
  slots slot := if slot ∈ b.locals then some 0 else none
  host := s

/-- The configuration after an instruction. -/
def Instr.step (h : Host σ) : Instr → Config σ → Option (Config σ)
  | const v, c => some { c with stack := BitVec.ofInt 32 v :: c.stack }
  | get slot, c => (c.slots slot).map fun w => { c with stack := w :: c.stack }
  | set slot, c =>
    match c.stack, c.slots slot with
    | w :: stack, some _ =>
      some { c with stack, slots := fun x => if x = slot then some w else c.slots x }
    | _, _ => none
  | arith op, c =>
    match c.stack with
    | b :: a :: stack => some { c with stack := op.apply a b :: stack }
    | _ => none
  | call func arity, c =>
    match Builtin.find? func arity, c.stack with
    | some (.unary f), a :: stack =>
      let (r, s) := h.unary f a c.host
      some { c with stack := r :: stack, host := s }
    | some (.binary f), b :: a :: stack =>
      let (r, s) := h.binary f a b c.host
      some { c with stack := r :: stack, host := s }
    | _, _ => none

/-- **The configuration after a list of instructions.** -/
def run (h : Host σ) : List Instr → Config σ → Option (Config σ)
  | [], c => some c
  | i :: is, c => (i.step h c).bind (run h is)

@[simp] theorem run_append (h : Host σ) (xs ys : List Instr) (c : Config σ) :
    run h (xs ++ ys) c = (run h xs c).bind (run h ys) := by
  induction xs generalizing c with
  | nil => rfl
  | cons i xs ih =>
    simp only [List.cons_append, run]
    cases i.step h c with
    | none => rfl
    | some c' => simp [ih]

end ArithWat
