import ArithWat.Code
import ArithWat.Program.Walk
import ArithWat.Tree.Grammar
import ArithWat.Tree.Table

/-!
# Scripts

From the text of a script to its program and its code.  A script of blanks alone
is the empty program; any other is scanned, its tree is built and stored as a
table, and the program is read off that table.
-/

namespace ArithWat.Script

/-- The program of a script, by way of its tree. -/
def parseTree (source : List Char) : Except CompileError Program := do
  let tree ← Tree.ofSource source
  (Walk.outcome (Walk.program source) (NodeTable.ofTree tree).top).mapError .parse

/-- **The program of a script.** -/
def parse (source : String) : Except CompileError Program :=
  if (Text.trim source.toList).isEmpty then .ok [] else parseTree source.toList

/-- **The code of a script**, of which every variable must be set before it is
read. -/
def compile (source : String) : Except CompileError Body := do
  let p ← parse source
  p.check.mapError .reference
  .ok p.body

end ArithWat.Script
