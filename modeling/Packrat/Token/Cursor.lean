import Packrat.Token.Scanner
/-!
# Cursor — a position in a token list

A cursor takes one entry at a time.  What it does not accept it leaves, and a cursor kept from before is a position to
come back to.
-/
namespace Packrat

structure Cursor where
  tokens : TokenList
  position : Nat
  deriving Repr, DecidableEq, Inhabited

def TokenList.cursor (l : TokenList) : Cursor := ⟨l, 0⟩

namespace Cursor

def current (c : Cursor) : Option Entry := c.tokens.entries[c.position]?

def size (c : Cursor) : Nat := c.tokens.entries.length

def isAtEnd (c : Cursor) : Bool := decide (c.size ≤ c.position)

def setPosition (c : Cursor) (position : Nat) : Cursor := { c with position }

def advance (c : Cursor) : Cursor := c.setPosition (c.position + 1)

def eatToken (c : Cursor) (accept : Token → Bool) : Option (Token × Cursor) :=
  match c.current with
  | some (.token t) => if accept t then some (t, c.advance) else none
  | _ => none

def eatLiteral (c : Cursor) (text : String) : Option (Token × Cursor) := c.eatToken (·.text == text)

def eatPattern (c : Cursor) (m : FullMatch) : Option (Token × Cursor) := c.eatToken (m.accepts ·.text)

def eatNumber (c : Cursor) : Option (Token × Cursor) := c.eatToken c.tokens.lexicon.isNumber

def eatString (c : Cursor) : Option (Token × Cursor) := c.eatToken c.tokens.lexicon.isString

def eatIdent (c : Cursor) : Option (Token × Cursor) := c.eatToken c.tokens.lexicon.isIdent

def eatHole (c : Cursor) : Option (Nat × Cursor) :=
  match c.current with
  | some (.hole i) => some (i, c.advance)
  | _ => none

def eatEnd (c : Cursor) : Option (Unit × Cursor) := if c.isAtEnd then some ((), c) else none

end Cursor

end Packrat
