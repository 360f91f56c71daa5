import ArithWat.Fault
import ArithWat.Number.Binary64

/-!
# Integer literals

A literal is a decimal number that writes an integer: its value as a binary64
number is that of its leading digits.  So `3.0` is a literal and `3.5`, `1e3` and
`0x1f` are none.  It must fit a 32-bit word, read with or without a sign.
-/

namespace ArithWat.Literal

/-- The least literal, the least signed word. -/
def least : Int := -2147483648

/-- The greatest literal, the greatest unsigned word. -/
def greatest : Int := 4294967295

/-- Whether a literal has a minus sign, and what follows its sign. -/
def splitSign : List Char → Bool × List Char
  | '-' :: cs => (true, cs)
  | '+' :: cs => (false, cs)
  | cs => (false, cs)

/-- The value of an unsigned literal, if it writes an integer. -/
def unsigned? (cs : List Char) : Option Binary64 :=
  match Decimal.read? cs with
  | some x =>
    let lead := Decimal.ofNat (Decimal.natOfDigits (cs.takeWhile Char.isDigit))
    let value := Binary64.ofDecimal x
    if value = Binary64.ofDecimal lead then some value else none
  | none => none

/-- The integer of a value and a sign. -/
def toInt? (negative : Bool) : Binary64 → Option Int
  | .finite units =>
    let n : Int := units / Binary64.one
    some (if negative then -n else n)
  | .infinite => none

/-- **The integer that a literal writes.** -/
def read (text : String) : Except Fault Int :=
  let (negative, cs) := splitSign text.toList
  match unsigned? cs with
  | none => .error (.invalidLiteral text)
  | some value =>
    match toInt? negative value with
    | some v =>
      if least ≤ v ∧ v ≤ greatest then .ok v else .error (.literalOutOfRange text)
    | none => .error (.literalOutOfRange text)

end ArithWat.Literal
