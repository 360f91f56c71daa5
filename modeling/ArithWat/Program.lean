import ArithWat.Span

/-!
# Programs

What a script means: a list of statements over integer expressions.  A reference
to a variable keeps its span, so that it can be reported.

`Stmt.dump` writes a statement out in full on one line, every constructor by name
and every field with its label.  Names are written between quotes as they are: a
name of a script holds letters, digits and underscores only.
-/

namespace ArithWat

/-- The operators. -/
inductive ArithOp where
  | add
  | sub
  | mul
  deriving DecidableEq, Repr

namespace ArithOp

/-- The operator written as `text`. -/
def ofText? : String → Option ArithOp
  | "+" => some add
  | "-" => some sub
  | "*" => some mul
  | _ => none

/-- The name of an operator. -/
def label : ArithOp → String
  | add => "Add"
  | sub => "Sub"
  | mul => "Mul"

end ArithOp

/-- The builtins of one argument. -/
inductive UnaryBuiltin where
  | print
  | abs
  deriving DecidableEq, Repr

namespace UnaryBuiltin

/-- The name in a script. -/
def name : UnaryBuiltin → String
  | print => "print"
  | abs => "abs"

/-- The capitalised name. -/
def label : UnaryBuiltin → String
  | print => "Print"
  | abs => "Abs"

/-- The builtin with a given name. -/
def ofName? (name : String) : Option UnaryBuiltin := [print, abs].find? (·.name = name)

end UnaryBuiltin

/-- The builtins of two arguments. -/
inductive BinaryBuiltin where
  | min
  | max
  | pow
  deriving DecidableEq, Repr

namespace BinaryBuiltin

/-- The name in a script. -/
def name : BinaryBuiltin → String
  | min => "min"
  | max => "max"
  | pow => "pow"

/-- The capitalised name. -/
def label : BinaryBuiltin → String
  | min => "Min"
  | max => "Max"
  | pow => "Pow"

/-- The builtin with a given name. -/
def ofName? (name : String) : Option BinaryBuiltin := [min, max, pow].find? (·.name = name)

end BinaryBuiltin

/-- The builtins of any number of arguments. -/
inductive Builtin where
  | unary (builtin : UnaryBuiltin)
  | binary (builtin : BinaryBuiltin)
  deriving DecidableEq, Repr

namespace Builtin

/-- The name in a script. -/
def name : Builtin → String
  | unary f => f.name
  | binary f => f.name

/-- The number of arguments. -/
def arity : Builtin → Nat
  | unary _ => 1
  | binary _ => 2

/-- Every builtin, those of one argument first. -/
def all : List Builtin :=
  [.unary .print, .unary .abs, .binary .min, .binary .max, .binary .pow]

/-- The builtin with a given name and number of arguments. -/
def find? (name : String) (arity : Nat) : Option Builtin :=
  all.find? fun f => f.name = name && f.arity = arity

theorem find?_eq_some {name : String} {arity : Nat} {f : Builtin} (h : find? name arity = some f) :
    f.name = name ∧ f.arity = arity := by
  simpa using List.find?_some h

@[simp] theorem find?_unary (f : UnaryBuiltin) : find? f.name 1 = some (.unary f) := by
  cases f <;> rfl

@[simp] theorem find?_binary (f : BinaryBuiltin) : find? f.name 2 = some (.binary f) := by
  cases f <;> rfl

end Builtin

/-- Integer expressions. -/
inductive Expr where
  | num (value : Int)
  | ref (name : String) (span : Span)
  | binary (op : ArithOp) (left right : Expr)
  | call1 (builtin : UnaryBuiltin) (arg : Expr)
  | call2 (builtin : BinaryBuiltin) (arg₁ arg₂ : Expr)
  deriving DecidableEq, Repr

/-- Statements: set a variable, or evaluate an expression. -/
inductive Stmt where
  | define (name : String) (value : Expr)
  | expr (value : Expr)
  deriving DecidableEq, Repr

/-- **A program**: its statements, in order. -/
abbrev Program := List Stmt

/-! ## Programs written out -/

/-- A span as a record. -/
def Span.dump (s : Span) : String := s!"Span \x7b start: {s.start}, end: {s.stop} \x7d"

/-- An expression as nested records. -/
def Expr.dump : Expr → String
  | num v => s!"Number({v})"
  | ref name span => s!"Id \x7b name: \"{name}\", span: {span.dump} \x7d"
  | binary op l r => s!"Binary \x7b op: {op.label}, left: {l.dump}, right: {r.dump} \x7d"
  | call1 f a => s!"Builtin1 \x7b name: {f.label}, arg: {a.dump} \x7d"
  | call2 f a b => s!"Builtin2 \x7b name: {f.label}, arg1: {a.dump}, arg2: {b.dump} \x7d"

/-- A statement as a record. -/
def Stmt.dump : Stmt → String
  | define name value => s!"Define \x7b name: \"{name}\", value: {value.dump} \x7d"
  | expr value => s!"ExprStmt \x7b expr: {value.dump} \x7d"

end ArithWat
