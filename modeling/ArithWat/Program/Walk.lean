import ArithWat.Error
import ArithWat.Number.Literal
import ArithWat.Program
import ArithWat.Tree.Cursor

/-!
# Reading a program off a tree

A *walk* moves a cursor over a tree and reads a part of a program off the nodes
it meets.  The cursor is the state of the walk, and it survives an error.  Each of
the four entrances `operator`, `expr`, `stmt` and `program` begins on the node it
reads.  Going down to children is the business of `withinChildren` alone, which
comes back up whatever happens below.

A walk makes no assumption about its tree.  A node is recognised by its tag; its
parts are found by their position among its children, and a child behind the last
part is not looked at.
-/

namespace ArithWat

/-- A walk with a cursor, which ends with a value or a report. -/
abbrev Walk (γ α : Type) := EStateM ParseError γ α

namespace Walk
variable {γ α : Type} [TreeCursor γ]

/-! ## Looking and moving -/

/-- The kind of the node under the cursor, if its tag is one of the grammar's. -/
def kind? (c : γ) : Option NodeKind := NodeKind.ofTag? (TreeCursor.tag c)

/-- The text of the node under the cursor. -/
def text (source : List Char) (c : γ) : String := (TreeCursor.span c).text source

/-- Ends the walk with a fault of the node under the cursor. -/
def fail (source : List Char) (fault : Fault) : Walk γ α :=
  fun c => .error (fault.report source (TreeCursor.span c)) c

/-- Moves the cursor if it can be moved, and says whether it was. -/
def move (step : γ → Option γ) : Walk γ Bool := fun c =>
  match step c with
  | some c' => .ok true c'
  | none => .ok false c

/-- The parent of a node, the node itself if it has none. -/
def up (c : γ) : γ := (TreeCursor.parent? c).getD c

/-- **Runs `body` from the first child** of the node under the cursor and returns
to that node, whatever `body` comes to. -/
def withinChildren (source : List Char) (body : Walk γ α) : Walk γ α := fun c =>
  match TreeCursor.firstChild? c with
  | none => fail source (.childless (TreeCursor.tag c)) c
  | some child =>
    match body child with
    | .ok a c' => .ok a (up c')
    | .error e c' => .error e (up c')

/-- Moves to the next sibling, where a part of the construct is expected. -/
def advance (source : List Char) (part : Part) : Walk γ Unit := do
  unless ← move TreeCursor.nextSibling? do
    fail source (.lacks part (TreeCursor.tag (← get)))

/-- Moves to the next sibling, which must pass a test. -/
def advanceTo (source : List Char) (test : Option NodeKind → Bool) (fault : Fault) :
    Walk γ Unit := do
  if ← move TreeCursor.nextSibling? then
    unless test (kind? (← get)) do fail source fault
  else fail source fault

/-! ## Expressions -/

/-- Reads the operator of a binary expression. -/
def operator (source : List Char) : Walk γ ArithOp := do
  let c ← get
  if kind? c = some .arithOp then
    match ArithOp.ofText? (text source c) with
    | some op => pure op
    | none => fail source (.unsupportedOperator (text source c))
  else fail source (.notOperator (TreeCursor.tag c))

/-- The number that a literal writes; a fault is reported at `span`. -/
def literal (source : List Char) (span : Span) (literal : String) : Walk γ Expr :=
  match Literal.read literal with
  | .ok v => pure (.num v)
  | .error fault => throw (fault.report source span)

/-- The text of a signed number, from its sign: the sign and the number after it,
without what stands between them. -/
def signedText (source : List Char) : Walk γ String := do
  let c ← get
  let sign := text source c
  unless kind? c = some .arithOp && (sign = "+" || sign = "-") do
    fail source (.notSign sign)
  advance source .signedOperand
  let c ← get
  unless kind? c = some .number do fail source .signWithoutNumber
  pure (sign ++ text source c)

/-- Reads a sign and a number.  A fault of the number is one of the whole. -/
def signedLiteral (source : List Char) : Walk γ Expr := do
  let span := TreeCursor.span (← get)
  literal source span (← withinChildren source (signedText source))

/-- Reads a binary expression, given how to read its operands. -/
def binary (source : List Char) (operand : Walk γ Expr) : Walk γ Expr :=
  withinChildren source do
    let left ← operand
    advance source .operator
    let op ← operator source
    advance source .rightOperand
    let right ← operand
    pure (.binary op left right)

/-- Whether a node can be an argument. -/
def isArgument (k : Option NodeKind) : Bool := !k.any NodeKind.isPunctuation

/-- Runs `body` from the opening parenthesis of the argument list of `callee`. -/
def withinArguments (source : List Char) (callee : String) (body : Walk γ α) : Walk γ α := do
  advance source .argumentList
  unless kind? (← get) = some .argList do fail source (.noArgumentList callee)
  withinChildren source do
    unless kind? (← get) = some .openParen do fail source (.noOpenParen callee)
    body

/-- Reads the argument after the node under the cursor. -/
def argument (source : List Char) (callee : String) (operand : Walk γ Expr) : Walk γ Expr := do
  advanceTo source isArgument (.missingArgument callee)
  operand

/-- Reads a call of a builtin, given how to read its arguments. -/
def call (source : List Char) (operand : Walk γ Expr) : Walk γ Expr :=
  withinChildren source do
    let callee := text source (← get)
    let close := advanceTo source (· = some .closeParen) (.notClosed callee)
    match UnaryBuiltin.ofName? callee, BinaryBuiltin.ofName? callee with
    | some f, _ =>
      withinArguments source callee do
        let arg ← argument source callee operand
        close
        pure (.call1 f arg)
    | none, some f =>
      withinArguments source callee do
        let arg₁ ← argument source callee operand
        advanceTo source (· = some .comma) (.noComma callee)
        let arg₂ ← argument source callee operand
        close
        pure (.call2 f arg₁ arg₂)
    | none, none => fail source (.unknownBuiltin callee)

/-- Reads an expression with a number of levels left. -/
def exprWithin (source : List Char) : Nat → Walk γ Expr
  | 0 => fail source .tooDeep
  | levels + 1 => do
    let c ← get
    match kind? c with
    | some .number => literal source (TreeCursor.span c) (text source c)
    | some .unaryExpression => signedLiteral source
    | some .variableName => pure (.ref (text source c) (TreeCursor.span c))
    | some .binaryExpression => binary source (exprWithin source levels)
    | some .callExpression => call source (exprWithin source levels)
    | _ => fail source (.notExpression (TreeCursor.tag c))

/-- **Reads an expression.** -/
def expr (source : List Char) : Walk γ Expr := exprWithin source maxNesting

/-! ## Statements -/

/-- **Reads a statement.** -/
def stmt (source : List Char) : Walk γ Stmt := do
  let c ← get
  match kind? c with
  | some .assignStatement =>
    withinChildren source do
      let c ← get
      unless kind? c = some .variableName do fail source (.notAssignable (TreeCursor.tag c))
      let name := text source c
      advance source .equals
      advance source .assignedValue
      let value ← expr source
      pure (.define name value)
  | some .expressionStatement => withinChildren source (Stmt.expr <$> expr source)
  | _ => fail source (.notStatement (TreeCursor.tag c))

/-- Reads the statement under the cursor and those after it, of which there are
at most `later`. -/
def stmts (source : List Char) : Nat → Walk γ Program
  | 0 => do
    let s ← stmt source
    pure [s]
  | later + 1 => do
    let s ← stmt source
    if ← move TreeCursor.nextSibling? then
      let p ← stmts source later
      pure (s :: p)
    else pure [s]

/-- Reads a program of at most `later + 1` statements. -/
def programUpTo (source : List Char) (later : Nat) : Walk γ Program := do
  let c ← get
  if kind? c = some .script then
    match TreeCursor.firstChild? c with
    | none => pure []
    | some _ => withinChildren source (stmts source later)
  else fail source (.notProgram (TreeCursor.tag c))

/-- **Reads a program**, which may have no statement. -/
def program (source : List Char) : Walk γ Program := do
  programUpTo source (TreeCursor.childCount (← get) - 1)

/-- The outcome of a walk, without where it ends. -/
def outcome (walk : Walk γ α) (c : γ) : Except ParseError α :=
  match walk c with
  | .ok a _ => .ok a
  | .error e _ => .error e

end Walk

end ArithWat
