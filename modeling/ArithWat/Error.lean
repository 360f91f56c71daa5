import ArithWat.Fault

/-!
# Error reports

Three things stop a script: a character that begins no token, a fault of its
tree, and a variable that is read before it is set.  A report of each carries
where it happened in a form that does not need the script any more.
-/

namespace ArithWat

/-- A character that begins no token. -/
structure LexicalError where
  /-- The byte at which the character begins. -/
  location : Nat
  place : Text.Place
  char : Char
  /-- The line around the character. -/
  context : String
  deriving DecidableEq, Repr

namespace LexicalError

/-- The report of the character that stands at byte `location` of a script, `missing` if
none begins there. -/
def report (source : List Char) (location : Nat) (missing : Char := '\x00') : LexicalError where
  location
  place := Text.placeAt source location
  char := ((Text.dropBytes? source location).bind List.head?).getD missing
  context := String.ofList (Text.lineAround source location)

/-- The wording of the report. -/
def message (e : LexicalError) : String :=
  s!"Unexpected character '{e.char}' at line {e.place.line}, column {e.place.col} " ++
    s!"(position {e.location})\n  Context: {e.context}"

end LexicalError

/-- A fault of a script's tree, where it stands. -/
structure ParseError where
  kind : FaultKind
  span : Span
  /-- The place of the start of the span. -/
  place : Text.Place
  /-- The text of the span. -/
  text : String
  detail : String
  deriving DecidableEq, Repr

namespace ParseError

/-- The report of a fault of the sort `kind`, worded `detail`, at `span`. -/
def report (source : List Char) (span : Span) (kind : FaultKind) (detail : String) :
    ParseError where
  kind
  span
  place := Text.placeAt source span.start
  text := span.text source
  detail

/-- The wording of the report. -/
def message (e : ParseError) : String :=
  s!"ParseError:{e.kind.label} ({e.place.line}:{e.place.col}) - {e.detail} " ++
    s!"at {e.span.describe}: '{e.text}'"

end ParseError

/-- The report of a fault at `span`. -/
def Fault.report (fault : Fault) (source : List Char) (span : Span) : ParseError :=
  ParseError.report source span fault.kind (fault.detail (span.text source))

/-- A variable that is read before it is set. -/
structure ReferenceError where
  name : String
  span : Span
  deriving DecidableEq, Repr

namespace ReferenceError

/-- The wording of the report. -/
def message (e : ReferenceError) : String :=
  s!"ReferenceError: undefined variable '{e.name}' at {e.span.describe}"

end ReferenceError

/-- **What stops a script.** -/
inductive CompileError where
  | lexical (error : LexicalError)
  | parse (error : ParseError)
  | reference (error : ReferenceError)
  deriving DecidableEq, Repr

namespace CompileError

/-- The wording of the report. -/
def message : CompileError → String
  | lexical e => "Lexical error: " ++ e.message
  | parse e => e.message
  | reference e => e.message

end CompileError

end ArithWat
