import ArithWat.Program

/-!
# The meaning of a program

Values are words of 32 bits and arithmetic wraps.  What the builtins do is left to
a *host*, which has a state of its own, so that a builtin may leave a trace.  An
expression is evaluated from the left; a statement sets a variable, or the last
value.
-/

namespace ArithWat

/-- Words of 32 bits. -/
abbrev Word := BitVec 32

/-- What the builtins do: the result and the new state of the host. -/
structure Host (σ : Type) where
  unary : UnaryBuiltin → Word → σ → Word × σ
  binary : BinaryBuiltin → Word → Word → σ → Word × σ

/-- The result of an operator. -/
def ArithOp.apply : ArithOp → Word → Word → Word
  | add, a, b => a + b
  | sub, a, b => a - b
  | mul, a, b => a * b

variable {σ : Type}

/-- The value of an expression and the state of the host after it. -/
def Expr.eval (h : Host σ) (vars : String → Word) : Expr → σ → Word × σ
  | num v, s => (BitVec.ofInt 32 v, s)
  | ref name _, s => (vars name, s)
  | binary op l r, s =>
    let (a, s) := l.eval h vars s
    let (b, s) := r.eval h vars s
    (op.apply a b, s)
  | call1 f e, s =>
    let (a, s) := e.eval h vars s
    h.unary f a s
  | call2 f e₁ e₂, s =>
    let (a, s) := e₁.eval h vars s
    let (b, s) := e₂.eval h vars s
    h.binary f a b s

/-- What a program works on: its variables, the value of the last expression
statement, and the state of the host. -/
structure Store (σ : Type) where
  vars : String → Word
  last : Word
  host : σ

/-- The store before a program: everything is zero. -/
def Store.initial (s : σ) : Store σ := ⟨fun _ => 0, 0, s⟩

/-- The store after a statement. -/
def Stmt.eval (h : Host σ) : Stmt → Store σ → Store σ
  | define name value, st =>
    let (v, s) := value.eval h st.vars st.host
    ⟨fun x => if x = name then v else st.vars x, st.last, s⟩
  | expr e, st =>
    let (v, s) := e.eval h st.vars st.host
    ⟨st.vars, v, s⟩

/-- **The store after a program.** -/
def Program.eval (h : Host σ) (p : Program) (st : Store σ) : Store σ :=
  p.foldl (fun st s => s.eval h st) st

end ArithWat
