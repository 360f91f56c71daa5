import ArithWat.Token

/-!
# Faults

What can be wrong with the tree of a script, as causes.  `Fault.kind` sorts the
causes and `Fault.detail` words them; nothing else in the library words a fault.
-/

namespace ArithWat

/-- The sorts of faults. -/
inductive FaultKind where
  | grammar
  | invalidLiteral
  | literalOutOfRange
  | invalidUnary
  | unknownOperator
  | unknownBuiltin
  | invalidArguments
  | unsupportedConstruct
  | nestingTooDeep
  deriving DecidableEq, Repr

namespace FaultKind

/-- The name a sort of fault is reported under. -/
def label : FaultKind → String
  | grammar => "Syntax"
  | invalidLiteral => "InvalidLiteral"
  | literalOutOfRange => "LiteralOutOfRange"
  | invalidUnary => "InvalidUnary"
  | unknownOperator => "UnknownOperator"
  | unknownBuiltin => "UnknownBuiltin"
  | invalidArguments => "InvalidArguments"
  | unsupportedConstruct => "UnsupportedConstruct"
  | nestingTooDeep => "NestingTooDeep"

/-- Every sort of fault. -/
def all : List FaultKind :=
  [grammar, invalidLiteral, literalOutOfRange, invalidUnary, unknownOperator, unknownBuiltin,
   invalidArguments, unsupportedConstruct, nestingTooDeep]

/-- The sort of fault with a given label. -/
def ofLabel? (label : String) : Option FaultKind := all.find? (·.label = label)

end FaultKind

/-- **The nesting limit**: the most levels an expression may have. -/
def maxNesting : Nat := 256

/-- What stands where the grammar wants something else. -/
inductive Found where
  | endOfInput
  | endOfLine
  /-- Any other lexeme.  It is the one that the fault is reported at. -/
  | lexeme
  deriving DecidableEq, Repr

namespace Found

/-- What the next lexeme is. -/
def ofLexemes : List Lexeme → Found
  | [] => endOfInput
  | l :: _ => if l.token = .newline then endOfLine else lexeme

/-- How it is called in a report at a span with the given text. -/
def describe (text : String) : Found → String
  | endOfInput => "end of input"
  | endOfLine => "end of line"
  | lexeme => s!"'{text}'"

end Found

/-- The parts of a construct that are found by their position among its children. -/
inductive Part where
  | equals
  | assignedValue
  | operator
  | rightOperand
  | signedOperand
  | argumentList
  deriving DecidableEq, Repr

namespace Part

/-- How a part is called in a report. -/
def describe : Part → String
  | equals => "'='"
  | assignedValue => "assigned value"
  | operator => "operator"
  | rightOperand => "right operand"
  | signedOperand => "operand"
  | argumentList => "argument list"

/-- The sort of fault it is to lack a part. -/
def lackKind : Part → FaultKind
  | signedOperand => .invalidUnary
  | argumentList => .invalidArguments
  | _ => .unsupportedConstruct

end Part

/-- **A fault of a script's tree.**  A `tag` is the tag of the node at fault, a
`callee` the name of the builtin whose arguments are at fault. -/
inductive Fault where
  /-- An expression is missing. -/
  | expectedExpression (found : Found)
  /-- A certain token is missing. -/
  | expectedToken (wanted : Token) (found : Found)
  /-- A statement is followed by something other than a separator. -/
  | afterStatement (found : Found)
  /-- An expression has more than `maxNesting` levels. -/
  | tooDeep
  /-- The root is no script. -/
  | notProgram (tag : String)
  /-- A child of the script is no statement. -/
  | notStatement (tag : String)
  /-- Something other than a variable is assigned to. -/
  | notAssignable (tag : String)
  /-- A node is no expression that has a meaning. -/
  | notExpression (tag : String)
  /-- A node that should have children has none. -/
  | childless (tag : String)
  /-- A part of a construct is missing after the node with this tag. -/
  | lacks (part : Part) (tag : String)
  /-- The operator of a binary expression is no operator. -/
  | notOperator (tag : String)
  /-- An operator without a meaning. -/
  | unsupportedOperator (text : String)
  /-- Something other than a sign stands before a signed operand. -/
  | notSign (text : String)
  /-- A sign stands before something other than a number. -/
  | signWithoutNumber
  /-- A number that is not written as an integer. -/
  | invalidLiteral (text : String)
  /-- An integer that does not fit. -/
  | literalOutOfRange (text : String)
  /-- A call of something that is no builtin. -/
  | unknownBuiltin (callee : String)
  /-- A call without an argument list. -/
  | noArgumentList (callee : String)
  /-- An argument list that does not open. -/
  | noOpenParen (callee : String)
  /-- An argument is missing. -/
  | missingArgument (callee : String)
  /-- Two arguments are not separated by a comma. -/
  | noComma (callee : String)
  /-- The argument list does not close after the last argument. -/
  | notClosed (callee : String)
  deriving DecidableEq, Repr

namespace Fault

/-- The sort of a fault. -/
def kind : Fault → FaultKind
  | expectedExpression _ | expectedToken _ _ | afterStatement _ => .grammar
  | tooDeep => .nestingTooDeep
  | notProgram _ | notStatement _ | notAssignable _ | notExpression _ | childless _ =>
    .unsupportedConstruct
  | lacks part _ => part.lackKind
  | notOperator _ | unsupportedOperator _ => .unknownOperator
  | notSign _ | signWithoutNumber => .invalidUnary
  | invalidLiteral _ => .invalidLiteral
  | literalOutOfRange _ => .literalOutOfRange
  | unknownBuiltin _ => .unknownBuiltin
  | noArgumentList _ | noOpenParen _ | missingArgument _ | noComma _ | notClosed _ =>
    .invalidArguments

/-- The wording of a fault that is reported at a span with the text `here`. -/
def detail (here : String) : Fault → String
  | expectedExpression found => s!"expected expression, found {found.describe here}"
  | expectedToken wanted found => s!"expected {wanted.describe}, found {found.describe here}"
  | afterStatement found => s!"unexpected {found.describe here} after statement"
  | tooDeep => s!"expression nested more than {maxNesting} levels deep"
  | notProgram tag => s!"could not parse {tag} as a program"
  | notStatement tag => s!"could not parse {tag} as a statement"
  | notAssignable tag => s!"cannot assign to {tag}"
  | notExpression tag => s!"could not parse {tag} as an expression"
  | childless tag => s!"{tag} has no children"
  | lacks part tag => s!"expected {part.describe} after {tag}"
  | notOperator tag => s!"could not parse {tag} as a binary operator"
  | unsupportedOperator text => s!"unsupported arithmetic operator '{text}'"
  | notSign text => s!"could not parse '{text}' as the sign of an i32 literal"
  | signWithoutNumber => "a sign can only be applied to an integer literal"
  | invalidLiteral text => s!"could not parse '{text}' as i32"
  | literalOutOfRange text => s!"'{text}' is out of range for i32"
  | unknownBuiltin callee => s!"unknown builtin '{callee}'"
  | noArgumentList callee => s!"expected an argument list for {callee}"
  | noOpenParen callee => s!"expected '(' after {callee}"
  | missingArgument callee => s!"missing argument to {callee}"
  | noComma callee => s!"expected ',' between arguments to {callee}"
  | notClosed callee => s!"invalid arguments to {callee}"

end Fault

end ArithWat
