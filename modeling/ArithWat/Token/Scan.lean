import ArithWat.Error

/-!
# Scanning a script

A script is cut into *pieces*: tokens, layout to be skipped, and stray characters
that begin neither.  At each point the longest possible piece is taken (`munch`),
a stray character being a piece of its own, and the cut goes on right after it
(`pieces`).  No character is lost: the pieces concatenate to the script
(`flatten_pieces`).

`scan` gives each token and each stray character its position, and `lexemes` is
the list of lexemes of a script without stray characters.
-/

namespace ArithWat.Scan

/-! ## Character classes

All of them are classes of ASCII characters. -/

/-- Blanks within a line. -/
def isSpace (c : Char) : Bool := c = ' ' || c = '\t' || c = '\r' || c = '\x0c'

/-- The characters that begin a name. -/
def isNameStart (c : Char) : Bool := c.isAlpha || c = '_'

/-- The characters of a name after its first. -/
def isNamePart (c : Char) : Bool := c.isAlphanum || c = '_'

/-- The characters of a run of digits after its first. -/
def isDigitPart (c : Char) : Bool := c.isDigit || c = '_'

/-- The letters that mark a radix after a leading zero. -/
def isRadixMark (c : Char) : Bool :=
  c = 'x' || c = 'X' || c = 'o' || c = 'O' || c = 'b' || c = 'B'

/-- The characters after a radix mark, whatever the radix. -/
def isRadixPart (c : Char) : Bool :=
  isDigitPart c || ('a' ≤ c && c ≤ 'f') || ('A' ≤ c && c ≤ 'F')

/-- The letters that begin an exponent. -/
def isExponentMark (c : Char) : Bool := c = 'e' || c = 'E'

/-- The signs. -/
def isSign (c : Char) : Bool := c = '+' || c = '-'

/-! ## How far a piece reaches -/

/-- The length of the longest run of characters of a class. -/
def runLength (p : Char → Bool) (cs : List Char) : Nat := (cs.takeWhile p).length

/-- The length of a fraction: a point and a run of digits, which may be empty. -/
def fractionLength : List Char → Nat
  | '.' :: cs => 1 + runLength isDigitPart cs
  | _ => 0

/-- The length of an exponent: its mark, a sign if there is one, and a run of
digits, which may be empty. -/
def exponentLength : List Char → Nat
  | [] => 0
  | m :: cs =>
    if isExponentMark m then
      match cs with
      | [] => 1
      | s :: ds => if isSign s then 2 + runLength isDigitPart ds else 1 + runLength isDigitPart cs
    else 0

/-- The length of a number after its first digit, with a fraction and an exponent
where they follow. -/
def decimalLength (cs : List Char) : Nat :=
  let whole := runLength isDigitPart cs
  let fraction := fractionLength (cs.drop whole)
  whole + fraction + exponentLength (cs.drop (whole + fraction))

/-- The length of a number after its point and first digit. -/
def pointLength (cs : List Char) : Nat :=
  let digits := runLength isDigitPart cs
  digits + exponentLength (cs.drop digits)

/-- The length of a number after its first digit `d`.  Only a zero takes a radix
mark, and then the mark leads further than reading the zero as a decimal. -/
def numberLength (d : Char) (cs : List Char) : Nat :=
  match cs with
  | m :: ds => if d = '0' && isRadixMark m then 1 + runLength isRadixPart ds else decimalLength cs
  | [] => 0

/-- What a piece of a script is. -/
inductive PieceKind where
  | token (token : Token)
  | layout
  | stray
  deriving DecidableEq, Repr

/-- The tokens that are one fixed character. -/
def symbol? : Char → Option Token
  | '=' => some .assign
  | '+' => some .plus
  | '-' => some .minus
  | '*' => some .star
  | '/' => some .slash
  | '%' => some .percent
  | '(' => some .openParen
  | ')' => some .closeParen
  | ',' => some .comma
  | ';' => some .semicolon
  | '\n' => some .newline
  | _ => none

/-- **The longest piece** that begins with `c` before `cs`: what it is, and how
many characters of `cs` it takes. -/
def munch (c : Char) (cs : List Char) : PieceKind × Nat :=
  if isSpace c then (.layout, runLength isSpace cs)
  else if c = '#' then (.layout, runLength (· ≠ '\n') cs)
  else if c = '\\' then
    match cs with
    | '\n' :: _ => (.layout, 1)
    | '\r' :: '\n' :: _ => (.layout, 2)
    | _ => (.stray, 0)
  else if isNameStart c then (.token .name, runLength isNamePart cs)
  else if c.isDigit then (.token .number, numberLength c cs)
  else if c = '.' then
    match cs with
    | d :: ds => if d.isDigit then (.token .number, 1 + pointLength ds) else (.stray, 0)
    | [] => (.stray, 0)
  else if c = '/' && cs.head? = some '/' then (.token .doubleSlash, 1)
  else
    match symbol? c with
    | some t => (.token t, 0)
    | none => (.stray, 0)

/-! ## Pieces -/

/-- A piece of a script: its first character and those that follow it. -/
structure Piece where
  kind : PieceKind
  first : Char
  rest : List Char
  deriving DecidableEq, Repr

/-- The text of a piece. -/
def Piece.text (p : Piece) : List Char := p.first :: p.rest

/-- The pieces of a text from which the first `taken` characters belong to a piece
already cut. -/
def piecesAfter : List Char → Nat → List Piece
  | [], _ => []
  | _ :: cs, taken + 1 => piecesAfter cs taken
  | c :: cs, 0 =>
    let (kind, n) := munch c cs
    ⟨kind, c, cs.take n⟩ :: piecesAfter cs n

/-- **The pieces of a script**, in order. -/
def pieces (source : List Char) : List Piece := piecesAfter source 0

theorem flatten_piecesAfter (cs : List Char) (taken : Nat) :
    ((piecesAfter cs taken).map Piece.text).flatten = cs.drop taken := by
  fun_induction piecesAfter cs taken with
  | case1 => simp
  | case2 c cs taken ih => simpa using ih
  | case3 c cs kind n h ih => simp [Piece.text, ih, List.take_append_drop]

/-- **The pieces of a script concatenate to it.** -/
theorem flatten_pieces (source : List Char) :
    ((pieces source).map Piece.text).flatten = source := by
  simp [pieces, flatten_piecesAfter]

/-! ## Positions -/

/-- A token or a stray character of a script, where it stands. -/
inductive Item where
  | lexeme (lexeme : Lexeme)
  | stray (location : Nat) (char : Char)
  deriving DecidableEq, Repr

/-- The tokens and stray characters among pieces of which the first begins at
byte `offset`. -/
def itemsFrom (offset : Nat) : List Piece → List Item
  | [] => []
  | p :: ps =>
    let stop := offset + Text.byteSize p.text
    match p.kind with
    | .token t => .lexeme ⟨t, String.ofList p.text, ⟨offset, stop⟩⟩ :: itemsFrom stop ps
    | .layout => itemsFrom stop ps
    | .stray => .stray offset p.first :: itemsFrom stop ps

/-- **The tokens and stray characters of a script**, in order. -/
def scan (source : List Char) : List Item := itemsFrom 0 (pieces source)

/-- An item as a lexeme, or the report that it is none. -/
def Item.check (source : List Char) : Item → Except LexicalError Lexeme
  | .lexeme l => .ok l
  | .stray location _ => .error (.report source location)

/-- **The lexemes of a script**, or the report of its first stray character. -/
def lexemes (source : List Char) : Except LexicalError (List Lexeme) :=
  (scan source).mapM (Item.check source)

end ArithWat.Scan
