/-!
# Lines

A text is a sequence of lines, each of which ends with a line feed, but for the last one, which may
lack it. The same holds of the bytes of a text.
-/

namespace CommandGrammar

variable {α : Type} [BEq α]

/-- The lines of a text, each with the line feed that ends it. -/
def splitLines (lineFeed : α) (text : List α) : List (List α) := text.splitBy fun a _ => a != lineFeed

/-- A text without those characters at its end that satisfy `p`. -/
def dropWhileEnd (p : α → Bool) (text : List α) : List α := (text.reverse.dropWhile p).reverse

end CommandGrammar
