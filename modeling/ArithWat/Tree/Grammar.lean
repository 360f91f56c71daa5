import ArithWat.Token.Scan
import ArithWat.Tree

/-!
# The grammar

The tree of a list of lexemes, by recursive descent:

* a script is a list of statements with line feeds and semicolons between them;
* a statement is `name = expression` or an expression;
* an expression is a sum of products of operands, both grouped to the left;
* an operand is a sign before an operand, or an atom followed by argument lists;
* an atom is a number, a name, or an expression in parentheses;
* an argument list is a list of expressions with commas between them, in
  parentheses; a comma may follow the last.

A `Rule` reads a tree off the front of a list of lexemes.  The rules that come
back to themselves do so through a sign or a parenthesis, and `operand` counts
down the levels that are left, from a limit: recursion is on that number.  Nodes of
an expression are built by `build`, which refuses a tree with more levels than the
limit.  The limit is `maxNesting` for a script; the rules are stated for any.  A
repetition recurs on its *room*, a list that is at least as long as the lexemes
left: to begin with it is those lexemes, and each round takes one lexeme or more.
-/

namespace ArithWat.Grammar

/-- Why a rule fails: the fault, and the span at fault, `none` for the end of the
script. -/
structure Failure where
  fault : Fault
  span : Option Span
  deriving DecidableEq, Repr

/-- A failure at the next lexeme. -/
def failAt (ls : List Lexeme) (fault : Fault) : Failure :=
  ⟨fault, ls.head?.map Lexeme.span⟩

/-- What a rule gives: a tree, and the lexemes after it. -/
abbrev Outcome := Except Failure (Tree NodeKind × List Lexeme)

/-- A rule of the grammar reads a tree off the front of a list of lexemes. -/
abbrev Rule := List Lexeme → Outcome

/-! ## Building nodes -/

/-- A lexeme as a leaf. -/
def leaf (k : NodeKind) (l : Lexeme) : Tree NodeKind := .leaf k l.span

@[simp] theorem kind_leaf (k : NodeKind) (l : Lexeme) : (leaf k l).kind = k := rfl

@[simp] theorem height_leaf (k : NodeKind) (l : Lexeme) : (leaf k l).height = 1 := rfl

/-- The next lexeme as a leaf of kind `k`, if it is the token `t`. -/
def expect (t : Token) (k : NodeKind) : Rule
  | l :: ls =>
    if l.token = t then .ok (leaf k l, ls)
    else .error (failAt (l :: ls) (.expectedToken t (.ofLexemes (l :: ls))))
  | [] => .error (failAt [] (.expectedToken t (.ofLexemes [])))

variable (limit : Nat)

/-- A node of an expression, refused if it has more levels than the limit. -/
def build (k : NodeKind) (first : Tree NodeKind) (more : List (Tree NodeKind)) :
    Except Failure (Tree NodeKind) :=
  let tree := Tree.spanning k first more
  if tree.height ≤ limit then .ok tree else .error ⟨.tooDeep, some tree.span⟩

/-! ## Repetitions -/

/-- `left`, then operators of the class `isOp` and trees read by `rule` for as
long as they follow, grouped to the left. -/
def chainFrom (isOp : Token → Bool) (rule : Rule) : List Lexeme → Tree NodeKind → Rule
  | _ :: room, left, op :: ls =>
    if isOp op.token then do
      let (right, ls) ← rule ls
      let tree ← build limit .binaryExpression left [leaf .arithOp op, right]
      chainFrom isOp rule room tree ls
    else .ok (left, op :: ls)
  | _, left, ls => .ok (left, ls)

/-- Trees read by `rule` with operators of the class `isOp` between them, grouped
to the left. -/
def chain (isOp : Token → Bool) (rule : Rule) : Rule := fun ls => do
  let (left, ls) ← rule ls
  chainFrom limit isOp rule ls left ls

/-- A sum of products of what `operand` reads. -/
def sum (operand : Rule) : Rule :=
  chain limit Token.isAdditive (chain limit Token.isMultiplicative operand)

/-- Expressions with commas between them, and perhaps one after the last, up to
the closing parenthesis or the first thing that is no comma.  The commas are
kept. -/
def arguments (expression : Rule) : List Lexeme → List Lexeme →
    Except Failure (List (Tree NodeKind) × List Lexeme)
  | [], ls => .ok ([], ls)
  | _ :: room, ls =>
    if ls.head?.map Lexeme.token = some .closeParen then .ok ([], ls)
    else do
      let (tree, ls) ← expression ls
      match ls with
      | l :: ls' =>
        if l.token = .comma then do
          let (trees, ls) ← arguments expression room ls'
          .ok (tree :: leaf .comma l :: trees, ls)
        else .ok ([tree], ls)
      | [] => .ok ([tree], ls)

/-- An argument list, after its opening parenthesis `l`. -/
def argList (expression : Rule) (l : Lexeme) : Rule := fun ls => do
  let (trees, ls) ← arguments expression (l :: ls) ls
  let (close, ls) ← expect .closeParen .closeParen ls
  let tree ← build limit .argList (leaf .openParen l) (trees ++ [close])
  .ok (tree, ls)

/-- `callee`, then argument lists for as long as they follow. -/
def calls (expression : Rule) : List Lexeme → Tree NodeKind → Rule
  | _ :: room, callee, l :: ls =>
    if l.token = .openParen then do
      let (args, ls) ← argList limit expression l ls
      let tree ← build limit .callExpression callee [args]
      calls expression room tree ls
    else .ok (callee, l :: ls)
  | _, callee, ls => .ok (callee, ls)

/-! ## Expressions -/

/-- A number, a name, or an expression in parentheses. -/
def atom (expression : Rule) : Rule
  | l :: ls =>
    match l.token with
    | .number => .ok (leaf .number l, ls)
    | .name => .ok (leaf .variableName l, ls)
    | .openParen => do
      let (inner, ls) ← expression ls
      let (close, ls) ← expect .closeParen .closeParen ls
      let tree ← build limit .parenthesizedExpression (leaf .openParen l) [inner, close]
      .ok (tree, ls)
    | _ => .error (failAt (l :: ls) (.expectedExpression (.ofLexemes (l :: ls))))
  | [] => .error (failAt [] (.expectedExpression (.ofLexemes [])))

/-- An atom followed by argument lists. -/
def applied (expression : Rule) : Rule := fun ls => do
  let (callee, ls) ← atom limit expression ls
  calls limit expression ls callee ls

/-- A sign before what `operand` reads, or an atom followed by argument lists. -/
def signed (operand expression : Rule) : Rule
  | l :: ls =>
    if l.token.isAdditive then do
      let (inner, ls) ← operand ls
      let tree ← build limit .unaryExpression (leaf .arithOp l) [inner]
      .ok (tree, ls)
    else applied limit expression (l :: ls)
  | [] => applied limit expression []

/-- **An operand** with a number of levels left.  With none left it is refused
where it would begin. -/
def operand : Nat → Rule
  | 0 => fun ls => .error (failAt ls .tooDeep)
  | levels + 1 => signed limit (operand levels) (sum limit (operand levels))

/-- **An expression** with a number of levels left. -/
def expression (levels : Nat) : Rule := sum limit (operand limit levels)

/-! ## Statements -/

/-- A statement: `name = expression`, or an expression. -/
def statement : Rule := fun ls =>
  match ls with
  | l :: l' :: rest =>
    if l.token = .name ∧ l'.token = .assign then do
      let (value, ls) ← expression limit limit rest
      .ok (.spanning .assignStatement (leaf .variableName l) [leaf .assignOp l', value], ls)
    else plain ls
  | _ => plain ls
where
  /-- A statement that is an expression. -/
  plain : Rule := fun ls => do
    let (tree, ls) ← expression limit limit ls
    .ok (.spanning .expressionStatement tree [], ls)

/-- A list of lexemes without the separators at its front. -/
def skipSeparators (ls : List Lexeme) : List Lexeme := ls.dropWhile (·.token.isSeparator)

/-- The statements of a list of lexemes. -/
def statements : List Lexeme → List Lexeme → Except Failure (List (Tree NodeKind))
  | [], _ => .ok []
  | _ :: room, ls =>
    match skipSeparators ls with
    | [] => .ok []
    | l :: ls => do
      let (tree, ls) ← statement limit (l :: ls)
      if ls.head?.any (!·.token.isSeparator) then
        .error (failAt ls (.afterStatement (.ofLexemes ls)))
      else do
        let trees ← statements room ls
        .ok (tree :: trees)

/-- **The statements of a script**, from its significant lexemes. -/
def script (ls : List Lexeme) : Except Failure (List (Tree NodeKind)) :=
  statements limit ls ls

/-- A failure as a report. -/
def Failure.report (f : Failure) (source : List Char) : ParseError :=
  let stop := Text.byteSize source
  f.fault.report source (f.span.getD ⟨stop, stop⟩)

end ArithWat.Grammar

namespace ArithWat

/-- **The tree of a script.**  Its root spans the whole script. -/
def Tree.ofSource (source : List Char) : Except CompileError (Tree NodeKind) := do
  let ls ← (Scan.lexemes source).mapError .lexical
  let trees ←
    (Grammar.script maxNesting (Lexeme.significant 0 ls)).mapError (.parse <| ·.report source)
  .ok (.node .script ⟨0, Text.byteSize source⟩ trees)

end ArithWat
