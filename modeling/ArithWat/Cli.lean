import ArithWat.Code.Render
import ArithWat.Script

/-!
# The command line

What the command prints for its arguments and the contents of its input, as a
pure function: `Options.read` reads the arguments, `decode` the input, and `run`
does the rest.
-/

namespace ArithWat.Cli

/-- What to print. -/
inductive Emit where
  | body
  | moduleText
  | program
  | json
  deriving DecidableEq, Repr

/-- The values of the option that says what to print. -/
def Emit.ofText? : String → Option Emit
  | "body" => some body
  | "module" => some moduleText
  | "ast" => some program
  | "json" => some json
  | _ => none

/-- Where a script comes from. -/
inductive Input where
  /-- The script that comes with the command. -/
  | sample
  | stdin
  | file (path : String)
  deriving DecidableEq, Repr

/-- What the arguments ask for; `none` where they leave a choice open. -/
structure Options where
  path : Option String := none
  emit : Option Emit := none
  imports : Option String := none
  entry : Option String := none
  deriving DecidableEq, Repr

/-- Why the arguments ask for no compilation. -/
inductive Refusal where
  | help
  | usage (reason : String)
  deriving DecidableEq, Repr

namespace Options

/-- Takes an argument that is no option.  There is at most one, and it is not
empty. -/
def withPath (o : Options) (path : String) : Except Refusal Options :=
  if path = "" then .error (.usage "the file name is empty")
  else if o.path.isSome then .error (.usage s!"unexpected argument '{path}'")
  else .ok { o with path := some path }

/-- Takes an option with its value.  Each is given at most once. -/
def withValue (o : Options) (key value : String) : Except Refusal Options :=
  match key with
  | "--emit" =>
    match o.emit, Emit.ofText? value with
    | none, some e => .ok { o with emit := some e }
    | _, _ => .error (.usage s!"'{value}' cannot be used with '{key}'")
  | "--namespace" =>
    if o.imports.isSome then .error (.usage s!"'{key}' is given twice")
    else .ok { o with imports := some value }
  | "--entry" =>
    if o.entry.isSome then .error (.usage s!"'{key}' is given twice")
    else .ok { o with entry := some value }
  | _ => .error (.usage s!"unexpected argument '{key}'")

/-- Whether an option takes a value. -/
def takesValue (key : String) : Bool := key = "--emit" || key = "--namespace" || key = "--entry"

/-- Whether an argument can be the value of the option before it. -/
def isValue (arg : String) : Bool := arg = "-" || arg.toList.head? ≠ some '-'

/-- Takes a cluster of one-letter options, of which there is one, besides the one
for help. -/
def cluster : List Char → Except Refusal Unit
  | [] => .ok ()
  | 'v' :: cs => cluster cs
  | 'h' :: _ => .error .help
  | c :: _ => .error (.usage s!"unexpected argument '-{c}'")

/-- Takes arguments none of which is an option. -/
def readPaths : Options → List String → Except Refusal Options
  | o, [] => .ok o
  | o, arg :: args => do
    let o ← o.withPath arg
    readPaths o args

/-- Takes the arguments from the left. -/
def readFrom : Options → List String → Except Refusal Options
  | o, [] => .ok o
  | o, arg :: args =>
    match arg.toList with
    | ['-', '-'] => readPaths o args
    | '-' :: '-' :: cs =>
      let key := String.ofList ('-' :: '-' :: cs.takeWhile (· ≠ '='))
      match cs.dropWhile (· ≠ '=') with
      | _ :: value => do
        let o ← o.withValue key (String.ofList value)
        readFrom o args
      | [] =>
        if takesValue key then
          match args with
          | value :: args =>
            if isValue value then do
              let o ← o.withValue key value
              readFrom o args
            else .error (.usage s!"a value is required for '{key}'")
          | [] => .error (.usage s!"a value is required for '{key}'")
        else if key = "--verbose" then readFrom o args
        else if key = "--help" then .error .help
        else .error (.usage s!"unexpected argument '{key}'")
    | '-' :: c :: cs => do
      cluster (c :: cs)
      readFrom o args
    | _ => do
      let o ← o.withPath arg
      readFrom o args

/-- **Reads the arguments.** -/
def read (args : List String) : Except Refusal Options := readFrom {} args

/-- Where the script comes from. -/
def input (o : Options) : Input :=
  match o.path with
  | none => .sample
  | some path => if path = "-" then .stdin else .file path

/-- The names in a module. -/
def names (o : Options) : ModuleNames where
  imports := o.imports.getD ModuleNames.standard.imports
  entry := o.entry.getD ModuleNames.standard.entry

end Options

/-! ## Input -/

/-- The script that comes with the command. -/
def sample : String :=
  "x = 3\ny = x + 4 * 2\nz = pow(y, 2) - abs(-7)\nprint(max(z, min(x, y)))"

/-- Why an input cannot be read. -/
inductive ReadFault where
  | noSuchFile
  | notText
  | system (reason : String)
  deriving DecidableEq, Repr

/-- The wording of a fault. -/
def ReadFault.message : ReadFault → String
  | noSuchFile => "No such file or directory (os error 2)"
  | notText => "stream did not contain valid UTF-8"
  | system reason => reason

/-- The text of an input from its bytes. -/
def decode (bytes : ByteArray) : Except ReadFault String :=
  match String.fromUTF8? bytes with
  | some s => .ok s
  | none => .error .notText

/-- The wording of what went wrong with an input. -/
def Input.failure (fault : ReadFault) : Input → String
  | sample => fault.message
  | stdin => s!"failed to read source from stdin: {fault.message}"
  | file path => s!"failed to read file '{path}': {fault.message}"

/-! ## Output -/

/-- What the command comes to. -/
structure Outcome where
  status : Nat
  stdout : String
  stderr : String
  deriving DecidableEq, Repr

namespace Outcome

/-- A run that prints `text`. -/
def success (text : String) : Outcome := ⟨0, text, ""⟩

/-- A run that fails with `message`. -/
def failure (message : String) : Outcome := ⟨1, "", s!"Error: {message}\n"⟩

/-- How the command is used. -/
def usage : String :=
  "Usage: arithwat [--emit body|module|ast|json] [--namespace NAME] [--entry NAME] [-v] [FILE]\n"

/-- The outcome of arguments that ask for no compilation. -/
def refusal : Refusal → Outcome
  | .help => success usage
  | .usage reason => ⟨2, "", s!"error: {reason}\n\n{usage}"⟩

end Outcome

/-- What is printed for a script that stops.  A stray character is reported as the
cause of itself, so its wording stands twice. -/
def describe : CompileError → String
  | .lexical e => s!"{(CompileError.lexical e).message}: {e.message}"
  | e => e.message

/-- **What is printed for a script.** -/
def output (o : Options) (source : String) : Except CompileError String :=
  match o.emit.getD .body with
  | .program => do
    let p ← Script.parse source
    .ok (String.join (p.map fun s => s.dump ++ "\n"))
  | .body => do
    let b ← Script.compile source
    .ok (b.wat ++ "\n")
  | .moduleText => do
    let b ← Script.compile source
    .ok (b.moduleText o.names)
  | .json => do
    let b ← Script.compile source
    .ok (b.json.pretty 0 ++ "\n")

/-- The outcome for given options and the contents of the input they name. -/
def finish (o : Options) (contents : Except ReadFault ByteArray) : Outcome :=
  match contents >>= decode with
  | .error fault => .failure (o.input.failure fault)
  | .ok source =>
    match output o source with
    | .ok text => .success text
    | .error e => .failure (describe e)

/-- **The outcome of the command** for its arguments, given what each input holds.
The sample is at hand and is not asked for. -/
def run (args : List String) (contents : Input → Except ReadFault ByteArray) : Outcome :=
  match Options.read args with
  | .error r => .refusal r
  | .ok o =>
    match o.input with
    | .sample => finish o (.ok sample.toUTF8)
    | input => finish o (contents input)

end ArithWat.Cli
