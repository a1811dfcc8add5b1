/-!
# A place in a text

A cursor knows its text, the byte position it has reached in the UTF-8 form and
the characters that are still to be read.  It only ever moves forward, and
`advance` is the one way to move it.
-/

namespace CommaCalc

/-- The number of bytes that characters take in UTF-8. -/
def utf8Length (cs : List Char) : Nat :=
  cs.foldr (fun c bytes => c.utf8Size + bytes) 0

/-- A place in a text that is being read. -/
structure Cursor where
  text : String
  position : Nat
  rest : List Char

namespace Cursor

/-- The cursor at the start of a text. -/
def start (text : String) : Cursor :=
  ⟨text, 0, text.toList⟩

/-- Moves over the given number of characters, or to the end. -/
def advance (c : Cursor) (count : Nat) : Cursor :=
  { c with
    position := c.position + utf8Length (c.rest.take count)
    rest := c.rest.drop count }

/-- Whether the position has reached the end of the text. -/
def isAtEnd (c : Cursor) : Bool :=
  decide (c.text.utf8ByteSize ≤ c.position)

/-- Moves over the characters of a class, up to the first other one. -/
def skipWhile (c : Cursor) (inClass : Char → Bool) : Cursor :=
  c.advance (c.rest.takeWhile inClass).length

end Cursor

end CommaCalc
