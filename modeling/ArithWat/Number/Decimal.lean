/-!
# Decimal numbers

A decimal number is a whole number of digits and a power of ten.  `Decimal.read?`
reads the written form: digits, then perhaps a point and more digits, then
perhaps an exponent.
-/

namespace ArithWat

/-- The decimal number `digits · 10 ^ exponent`. -/
structure Decimal where
  digits : Nat
  exponent : Int
  deriving DecidableEq, Repr

namespace Decimal

/-- The value of a digit. -/
def digitValue (c : Char) : Nat := c.toNat - '0'.toNat

/-- The number that a run of digits writes, most significant first. -/
def natOfDigits (cs : List Char) : Nat := cs.foldl (fun n c => 10 * n + digitValue c) 0

/-- A run of at least one digit and nothing else, as a number. -/
def wholeNat? (cs : List Char) : Option Nat :=
  if cs ≠ [] ∧ cs.all Char.isDigit then some (natOfDigits cs) else none

/-- An exponent, or nothing: `e` or `E`, perhaps a sign, and digits. -/
def exponent? : List Char → Option Int
  | [] => some 0
  | m :: cs =>
    if m = 'e' ∨ m = 'E' then
      match cs with
      | '-' :: ds => (wholeNat? ds).map fun n => -(n : Int)
      | '+' :: ds => (wholeNat? ds).map fun n => (n : Int)
      | _ => (wholeNat? cs).map fun n => (n : Int)
    else none

/-- The digits of a fraction, and what follows them.  The fraction may be
missing, and it may be a point alone. -/
def fraction : List Char → List Char × List Char
  | '.' :: cs => (cs.takeWhile Char.isDigit, cs.dropWhile Char.isDigit)
  | cs => ([], cs)

/-- **Reads a decimal number** without a sign.  It begins with a digit. -/
def read? (cs : List Char) : Option Decimal :=
  let whole := cs.takeWhile Char.isDigit
  if whole = [] then none
  else
    let (frac, rest) := fraction (cs.dropWhile Char.isDigit)
    (exponent? rest).map fun e => ⟨natOfDigits (whole ++ frac), e - frac.length⟩

/-- A whole number as a decimal number. -/
def ofNat (n : Nat) : Decimal := ⟨n, 0⟩

end Decimal

end ArithWat
