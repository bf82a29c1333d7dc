/-!
# Spans

A `Span` is a half-open range of byte offsets in a command line. A span whose end does not lie
behind its start is empty; `Span.hull` is the smallest span around two others, and takes the extreme
ends even of an empty or reversed one.
-/

namespace CommandGrammar

/-- The byte offsets from `start` up to, and without, `stop`. -/
structure Span where
  /-- The offset of the first byte. -/
  start : Nat
  /-- The offset behind the last byte. -/
  stop : Nat
  deriving DecidableEq, Repr

namespace Span

/-- The empty span at an offset. -/
def point (offset : Nat) : Span := ⟨offset, offset⟩

/-- The span from the lesser start to the greater end. -/
def hull (a b : Span) : Span := ⟨min a.start b.start, max a.stop b.stop⟩

/-- Whether a span holds no byte; a reversed span holds none. -/
def isEmpty (a : Span) : Bool := decide (a.stop ≤ a.start)

/-- The number of bytes in a span; a reversed span has none. -/
def length (a : Span) : Nat := a.stop - a.start

/-- A span is written as its two ends with two dots between them. -/
def text (a : Span) : String := s!"{a.start}..{a.stop}"

end Span

end CommandGrammar
