import ArithWat.Span

/-!
# Tokens

The words of a script.  A `Lexeme` is a token together with the text it was read
from and where that text stands.
-/

namespace ArithWat

/-- The kinds of words. -/
inductive Token where
  | name
  | number
  | assign
  | plus
  | minus
  | star
  | slash
  | doubleSlash
  | percent
  | openParen
  | closeParen
  | comma
  | semicolon
  | newline
  deriving DecidableEq, Repr

namespace Token

/-- How a token is called in a report. -/
def describe : Token → String
  | name => "name"
  | number => "number"
  | assign => "'='"
  | plus => "'+'"
  | minus => "'-'"
  | star => "'*'"
  | slash => "'/'"
  | doubleSlash => "'//'"
  | percent => "'%'"
  | openParen => "'('"
  | closeParen => "')'"
  | comma => "','"
  | semicolon => "';'"
  | newline => "newline"

/-- The tokens that end a statement. -/
def isSeparator : Token → Bool
  | newline | semicolon => true
  | _ => false

theorem isSeparator_iff {t : Token} : t.isSeparator = true ↔ t = newline ∨ t = semicolon := by
  cases t <;> decide

/-- The operators of a sum, which are also the signs. -/
def isAdditive : Token → Bool
  | plus | minus => true
  | _ => false

theorem isAdditive_iff {t : Token} : t.isAdditive = true ↔ t = plus ∨ t = minus := by
  cases t <;> decide

/-- The operators of a product. -/
def isMultiplicative : Token → Bool
  | star | slash | doubleSlash | percent => true
  | _ => false

theorem isMultiplicative_iff {t : Token} :
    t.isMultiplicative = true ↔ t = star ∨ t = slash ∨ t = doubleSlash ∨ t = percent := by
  cases t <;> decide

end Token

/-- A token where it stands in a script. -/
structure Lexeme where
  token : Token
  text : String
  span : Span
  deriving DecidableEq, Repr

namespace Lexeme

/-- The lexemes that matter for the grammar: a line feed inside `depth` open
parentheses is layout.  A closing parenthesis without a partner leaves the count
at zero. -/
def significant (depth : Nat) : List Lexeme → List Lexeme
  | [] => []
  | l :: ls =>
    match l.token with
    | .openParen => l :: significant (depth + 1) ls
    | .closeParen => l :: significant (depth - 1) ls
    | .newline => if depth = 0 then l :: significant depth ls else significant depth ls
    | _ => l :: significant depth ls

end Lexeme

end ArithWat
