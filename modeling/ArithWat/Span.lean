import ArithWat.Text.Position

/-!
# Spans

A span is a range of bytes of a script.  Spans come from trees of any origin, so
nothing ties their ends together: a span may be empty, reversed, past the end of
the script, or cut through a character.  Its text is then empty.
-/

namespace ArithWat

/-- A range of bytes: from `start` up to, not including, `stop`. -/
structure Span where
  start : Nat
  stop : Nat
  deriving DecidableEq, Repr, Inhabited

namespace Span

/-- The text of a span, empty when the span is not a range of whole characters. -/
def text (span : Span) (source : List Char) : String :=
  String.ofList ((Text.slice? source span.start span.stop).getD [])

/-- The written form of a span. -/
def describe (span : Span) : String := s!"{span.start}..{span.stop}"

/-- The span from the start of `first` to the stop of `last`. -/
def cover (first last : Span) : Span := ⟨first.start, last.stop⟩

end Span

end ArithWat
