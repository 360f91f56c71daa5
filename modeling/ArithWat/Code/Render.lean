import ArithWat.Code
import ArithWat.Json

/-!
# Code as text

A body as WebAssembly text is written one form per line, first its slots and then
its instructions.  A module wraps a body into a function that returns the scratch
slot, and imports every builtin.

A body as JSON is a record of its slots and its instructions, each instruction a
record that begins with its kind.
-/

namespace ArithWat

/-! ## WebAssembly -/

/-- The name of a slot.  That of the scratch slot begins like no variable. -/
def Slot.wat : Slot → String
  | scratch => "$$last"
  | named name => "$" ++ name

/-- The instruction of an operator. -/
def ArithOp.mnemonic : ArithOp → String
  | add => "i32.add"
  | sub => "i32.sub"
  | mul => "i32.mul"

/-- An instruction as a line. -/
def Instr.wat : Instr → String
  | const v => s!"(i32.const {v})"
  | get slot => s!"(local.get {slot.wat})"
  | set slot => s!"(local.set {slot.wat})"
  | arith op => s!"({op.mnemonic})"
  | call func _ => s!"(call ${func})"

/-- The declaration of a slot as a line. -/
def Slot.declaration (slot : Slot) : String := s!"(local {slot.wat} i32)"

namespace Body

/-- The lines of a body. -/
def lines (b : Body) : List String := b.locals.map Slot.declaration ++ b.instrs.map Instr.wat

/-- **The text of a body.** -/
def wat (b : Body) : String := "\n".intercalate b.lines

end Body

/-- The names that a module shows to the outside.  They are written as they are. -/
structure ModuleNames where
  /-- The module that the builtins are imported from. -/
  imports : String
  /-- The name that the function is exported under. -/
  entry : String
  deriving DecidableEq, Repr

/-- The names of a module that nobody has chosen others for. -/
def ModuleNames.standard : ModuleNames := ⟨"imports", "exported_func"⟩

/-- The import of a builtin. -/
def Builtin.importLine (f : Builtin) (imports : String) : String :=
  let params := " ".intercalate (List.replicate f.arity "i32")
  s!"  (func ${f.name} (import \"{imports}\" \"{f.name}\") (param {params}) (result i32))\n"

/-- **The text of a module** around a body. -/
def Body.moduleText (b : Body) (names : ModuleNames) : String :=
  "(module\n" ++
  String.join (Builtin.all.map (·.importLine names.imports)) ++
  s!"  (func (export \"{names.entry}\") (result i32)\n" ++
  String.join (b.lines.map fun line => s!"    {line}\n") ++
  s!"    {(Instr.get .scratch).wat}\n" ++
  "  )\n)\n"

/-! ## JSON -/

/-- An instruction as a record. -/
def Instr.json : Instr → Json
  | const v => .obj [("kind", .str "const"), ("value", .int v)]
  | get slot => .obj [("kind", .str "local_get"), ("slot", .str slot.wat)]
  | set slot => .obj [("kind", .str "local_set"), ("slot", .str slot.wat)]
  | arith op => .obj [("kind", .str "arith"), ("op", .str op.mnemonic)]
  | call func arity =>
    .obj [("kind", .str "call"), ("func", .str func), ("arity", .int arity)]

/-- A slot as a record. -/
def Slot.json (slot : Slot) : Json := .obj [("slot", .str slot.wat)]

/-- **A body as a record.** -/
def Body.json (b : Body) : Json :=
  .obj [("locals", .arr (b.locals.map Slot.json)), ("instrs", .arr (b.instrs.map Instr.json))]

end ArithWat
