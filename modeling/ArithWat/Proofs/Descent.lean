import ArithWat.Tree.Grammar
import ArithWat.Tree.Table

/-!
# The descent as a machine

A rule of the grammar is a function of the lexemes ahead and of the levels that are left, and the
table of a tree is filled once the tree is finished.  The same descent can be made with one state
that all rules share: a position among the lexemes, a count of the nestings that have been entered
and not yet left, and a table to which every node is added as soon as its children are there.  What
a rule leaves behind in that state is then no longer obvious, and neither is that it ever returns.

This module is that descent, one step at a time (`Descent.step`).  The rules that are being carried
out are a stack of frames: what each still has to do, and the nodes that it has gathered.  A rule
chooses by what is ahead, on entry and at each round of its loops (`Point.plan`).  A failure takes
the frames off the stack one by one; a frame that was entered one level deeper gives the level back
when it is left, in whichever way.

`Descent.Reaches` is what a run comes to, and `Descent.Returns` where a call comes back.
-/

namespace ArithWat

/-- The span from the first to the last of some rows. -/
def TableNode.spanOver (rows : Array TableNode) (is : List Nat) : Span :=
  let start := (is.head?.bind (rows[·]?)).elim 0 (·.span.start)
  let stop := (is.getLast?.bind (rows[·]?)).elim start (·.span.stop)
  ⟨start, stop⟩

/-- **What is to be parsed**: some lexemes, under a limit for the levels of expressions. -/
structure Descent where
  /-- The most levels of an expression, `maxNesting` for a script. -/
  limit : Nat
  lexemes : List Lexeme
  /-- The number of bytes of the script, which its root spans. -/
  size : Nat

namespace Descent

/-! ## What the rules do -/

/-- The rules of the grammar. -/
inductive Rule where
  | script
  | statement
  | expression
  | sum
  | product
  | operand
  | applied
  | atom
  | argList
  deriving DecidableEq, Repr

/-- The points at which the descent looks ahead to choose what to do: the beginnings of the
rules, and the rounds of their loops. -/
inductive Point where
  | rule (r : Rule)
  | statements
  | afterStatement
  | summands
  | factors
  | calls
  | arguments
  | afterArgument
  deriving DecidableEq, Repr

/-- What a rule has to do. -/
inductive Task where
  /-- Take the next lexeme as a leaf, whatever it is. -/
  | take (k : NodeKind)
  /-- Take the next lexeme as a leaf if it is the token, and fail otherwise. -/
  | expect (t : Token) (k : NodeKind)
  | call (r : Rule)
  /-- Call a rule one level deeper. -/
  | nest (r : Rule)
  /-- Add a node over all that has been gathered. -/
  | node (k : NodeKind)
  /-- Add the root. -/
  | root
  /-- Go past the separators that are next. -/
  | skip
  | goto (p : Point)
  deriving DecidableEq, Repr

/-- Whether a lexeme is next whose token is of the class `p`. -/
def nextIs (p : Token → Bool) (ls : List Lexeme) : Bool := ls.head?.any (p ·.token)

/-- What a rule does, by what is ahead. -/
def Rule.plan : Rule → List Lexeme → Except Grammar.Failure (List Task)
  | script, _ => .ok [.skip, .goto .statements]
  | statement, ls =>
    match ls with
    | l :: l' :: _ =>
      if l.token = .name ∧ l'.token = .assign then
        .ok [.take .variableName, .take .assignOp, .call .expression, .node .assignStatement]
      else .ok [.call .expression, .node .expressionStatement]
    | _ => .ok [.call .expression, .node .expressionStatement]
  | expression, _ => .ok [.nest .sum]
  | sum, _ => .ok [.call .product, .goto .summands]
  | product, _ => .ok [.call .operand, .goto .factors]
  | operand, ls =>
    if nextIs Token.isAdditive ls then .ok [.take .arithOp, .nest .operand, .node .unaryExpression]
    else .ok [.call .applied]
  | applied, _ => .ok [.call .atom, .goto .calls]
  | atom, ls =>
    match ls.head?.map Lexeme.token with
    | some .number => .ok [.take .number]
    | some .name => .ok [.take .variableName]
    | some .openParen =>
      .ok [.take .openParen, .call .expression, .expect .closeParen .closeParen,
        .node .parenthesizedExpression]
    | _ => .error (Grammar.failAt ls (.expectedExpression (.ofLexemes ls)))
  | argList, _ =>
    .ok [.take .openParen, .goto .arguments, .expect .closeParen .closeParen, .node .argList]

/-- **What the descent does at a point**, by what is ahead. -/
def Point.plan : Point → List Lexeme → Except Grammar.Failure (List Task)
  | rule r, ls => r.plan ls
  | statements, [] => .ok [.root]
  | statements, _ :: _ => .ok [.call .statement, .goto .afterStatement]
  | afterStatement, ls =>
    if nextIs (!·.isSeparator) ls then .error (Grammar.failAt ls (.afterStatement (.ofLexemes ls)))
    else .ok [.skip, .goto .statements]
  | summands, ls =>
    if nextIs Token.isAdditive ls then
      .ok [.take .arithOp, .call .product, .node .binaryExpression, .goto .summands]
    else .ok []
  | factors, ls =>
    if nextIs Token.isMultiplicative ls then
      .ok [.take .arithOp, .call .operand, .node .binaryExpression, .goto .factors]
    else .ok []
  | calls, ls =>
    if nextIs (· = .openParen) ls then .ok [.call .argList, .node .callExpression, .goto .calls]
    else .ok []
  | arguments, ls =>
    if nextIs (· = .closeParen) ls then .ok []
    else .ok [.call .expression, .goto .afterArgument]
  | afterArgument, ls =>
    if nextIs (· = .comma) ls then .ok [.take .comma, .goto .arguments] else .ok []

/-! ## Steps -/

/-- A rule that is being carried out. -/
structure Frame where
  todo : List Task
  /-- The rows of the nodes that have been gathered. -/
  children : List Nat
  /-- Whether the rule was called one level deeper. -/
  deeper : Bool
  deriving DecidableEq, Repr

/-- A frame with one more node. -/
def Frame.gain (fr : Frame) (i : Nat) : Frame := { fr with children := fr.children ++ [i] }

/-- The depth after a frame has been left. -/
def Frame.leave (fr : Frame) (depth : Nat) : Nat := if fr.deeper then depth - 1 else depth

/-- The frame of a rule that has just been called. -/
def Frame.enter (r : Rule) (deeper : Bool) : Frame := ⟨[.goto (.rule r)], [], deeper⟩

/-- **A state of the descent.**  While a failure is on its way out, the frames are left. -/
structure Config where
  /-- The number of lexemes that have been passed. -/
  pos : Nat
  /-- The number of levels that have been entered and not left. -/
  depth : Nat
  rows : Array TableNode
  failure : Option Grammar.Failure
  stack : List Frame
  deriving DecidableEq, Repr

variable (D : Descent)

/-- The lexemes ahead. -/
def ahead (c : Config) : List Lexeme := D.lexemes.drop c.pos

/-- A state in which a failure has come up in a frame. -/
def Config.fail (c : Config) (f : Grammar.Failure) (fr : Frame) (below : List Frame) : Config :=
  { c with failure := some f, stack := fr :: below }

/-- Carries out a task of the top frame `fr`, which no longer lists it.  Where there is no lexeme
to take, there is no next state. -/
def perform (c : Config) (fr : Frame) (below : List Frame) : Task → Option Config
  | .take k =>
    match D.lexemes[c.pos]? with
    | some l =>
      some { c with
        pos := c.pos + 1
        rows := TableNode.push c.rows k l.span []
        stack := fr.gain c.rows.size :: below }
    | none => none
  | .expect t k =>
    if nextIs (· = t) (D.ahead c) then
      some { c with stack := { fr with todo := .take k :: fr.todo } :: below }
    else
      some (c.fail (Grammar.failAt (D.ahead c) (.expectedToken t (.ofLexemes (D.ahead c))))
        fr below)
  | .call r => some { c with stack := .enter r false :: fr :: below }
  | .nest r =>
    if c.depth < D.limit then
      some { c with depth := c.depth + 1, stack := .enter r true :: fr :: below }
    else some (c.fail (Grammar.failAt (D.ahead c) .tooDeep) fr below)
  | .node k =>
    let span := TableNode.spanOver c.rows fr.children
    let rows := TableNode.push c.rows k span fr.children
    if k.isStatement ∨ rows[c.rows.size]?.elim 0 TableNode.height ≤ D.limit then
      some { c with rows, stack := { fr with children := [c.rows.size] } :: below }
    else some ({ c with rows }.fail ⟨.tooDeep, some span⟩ fr below)
  | .root =>
    some { c with
      rows := TableNode.push c.rows .script ⟨0, D.size⟩ fr.children
      stack := { fr with children := [c.rows.size] } :: below }
  | .skip =>
    if nextIs Token.isSeparator (D.ahead c) then
      some { c with pos := c.pos + 1, stack := { fr with todo := .skip :: fr.todo } :: below }
    else some { c with stack := fr :: below }
  | .goto p =>
    match p.plan (D.ahead c) with
    | .ok tasks => some { c with stack := { fr with todo := tasks ++ fr.todo } :: below }
    | .error f => some (c.fail f fr below)

/-- **One step of the descent.**  A frame with nothing left to do hands its node to the frame
below. -/
def step (c : Config) : Option Config :=
  match c.failure, c.stack with
  | some _, fr :: below => some { c with depth := fr.leave c.depth, stack := below }
  | none, ⟨task :: todo, children, deeper⟩ :: below =>
    D.perform c ⟨todo, children, deeper⟩ below task
  | none, ⟨[], [i], deeper⟩ :: fr :: below =>
    some { c with depth := Frame.leave ⟨[], [i], deeper⟩ c.depth, stack := fr.gain i :: below }
  | _, _ => none

/-- The descent begins with a call of the rule for scripts. -/
def start : Config := ⟨0, 0, #[], none, [⟨[.call .script], [], false⟩]⟩

/-! ## Runs -/

/-- The state after a number of steps, if so many can be made. -/
def run : Nat → Config → Option Config
  | 0, c => some c
  | n + 1, c => (D.step c).bind (run n)

/-- A run from one state comes to another. -/
def Reaches (c c' : Config) : Prop := ∃ n, D.run n c = some c'

/-- A run from one state to another in which every state before the last has a property. -/
inductive Path (P : Config → Prop) : Config → Config → Prop
  | refl (c : Config) : Path P c c
  | head {c c' c'' : Config} : P c → D.step c = some c' → Path P c' c'' → Path P c c''

namespace Config

/-- The number of frames. -/
def height (c : Config) : Nat := c.stack.length

/-- What is done next, if no failure is on its way out. -/
def next? : Config → Option Task
  | ⟨_, _, _, none, ⟨task :: _, _, _⟩ :: _⟩ => some task
  | _ => none

/-- The rule that is called next. -/
def callee? (c : Config) : Option Rule :=
  match c.next? with
  | some (.call r) => some r
  | some (.nest r) => some r
  | _ => none

/-- **What a finished descent has come to**: a table and the row of its root, or a failure. -/
def result? : Config → Option (Except Grammar.Failure (Array TableNode × Nat))
  | ⟨_, _, _, some f, []⟩ => some (.error f)
  | ⟨_, _, rows, none, [⟨[], [i], _⟩]⟩ => some (.ok (rows, i))
  | _ => none

end Config

/-- **A call that is made in one state comes back in another**: the first one after it that has
no more frames. -/
def Returns (c c' : Config) : Prop :=
  ∃ c₁, D.step c = some c₁ ∧ D.Path (c.height < ·.height) c₁ c' ∧ c'.height = c.height

variable {D}

theorem Path.single {P : Config → Prop} {c c' : Config} (hc : P c) (h : D.step c = some c') :
    D.Path P c c' :=
  .head hc h (.refl c')

theorem Path.trans {P : Config → Prop} {c c' c'' : Config} (h : D.Path P c c')
    (h' : D.Path P c' c'') : D.Path P c c'' := by
  induction h with
  | refl => exact h'
  | head hc hstep _ ih => exact .head hc hstep (ih h')

theorem Path.mono {P Q : Config → Prop} {c c' : Config} (h : D.Path P c c')
    (hPQ : ∀ e, P e → Q e) : D.Path Q c c' := by
  induction h with
  | refl c => exact .refl c
  | head hc hstep _ ih => exact .head (hPQ _ hc) hstep ih

theorem Path.reaches {P : Config → Prop} {c c' : Config} (h : D.Path P c c') : D.Reaches c c' := by
  induction h with
  | refl c => exact ⟨0, rfl⟩
  | head _ hstep _ ih =>
    obtain ⟨n, hn⟩ := ih
    exact ⟨n + 1, by rw [run, hstep]; exact hn⟩

/-- A run that has nowhere to go at its end passes through every state that is reached. -/
theorem Path.of_reaches {P : Config → Prop} {c c' e : Config} (h : D.Path P c c')
    (hlast : D.step c' = none) (hreach : D.Reaches c e) : D.Path P e c' := by
  obtain ⟨n, hn⟩ := hreach
  induction h generalizing n with
  | refl c =>
    cases n with
    | zero =>
      cases hn
      exact .refl _
    | succ n =>
      rw [run, hlast] at hn
      cases hn
  | head hc hstep hpath ih =>
    cases n with
    | zero =>
      cases hn
      exact .head hc hstep hpath
    | succ n =>
      rw [run, hstep] at hn
      exact ih hlast n hn

end Descent

end ArithWat
