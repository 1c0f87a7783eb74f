import Packrat.Splice.Basic
/-!
# Class — the kinds of token

Every kind of token has a pattern.  A full match of a pattern is the pattern between the two ends of the text, put
together as any splice is.
-/
namespace Packrat

structure FullMatch where
  pattern : Pattern
  deriving Repr, DecidableEq, Inhabited

namespace FullMatch

def ofPattern (p : Pattern) (compiler : Pattern.Compiler := .basic) : Except Splice.Fault FullMatch :=
  (Splice.compose ["\\A", "\\z"] [.pattern p] compiler).map fun whole => ⟨whole⟩

def ofSource (source : String) (compiler : Pattern.Compiler := .basic) : Except Splice.Fault FullMatch :=
  match Pattern.compile source compiler.flags with
  | some p => ofPattern p compiler
  | none => .error .malformed

def accepts (m : FullMatch) (text : String) : Bool := m.pattern.isMatch text

end FullMatch

inductive TokenClass where
  /-- white space, which is dropped -/
  | space
  | number
  | string
  | ident
  /-- one bracket, comma or semicolon -/
  | punctuation
  /-- a run of operator symbols -/
  | symbols
  /-- from `#` to the end of the line, which is dropped -/
  | comment
  deriving Repr, DecidableEq, Inhabited

def TokenClass.source : TokenClass → String
  | .space => "\\s+"
  | .number => "[0-9]+(?:\\.[0-9]+)?(?:[eE]-?[0-9]+)?"
  | .string => "\"(?:[^\"\\\\]|\\\\\"|\\\\\\\\|\\\\/|\\\\b|\\\\f|\\\\n|\\\\r|\\\\t|\\\\u[0-9a-fA-F]\x7b4\x7d)*\""
  | .ident => "[a-zA-Z_$][0-9a-zA-Z_$]*"
  | .punctuation => "[\\[\\]()\x7b\x7d,;]"
  | .symbols => "[~@%&+=*<>.?|:\\\\\\-^/]+"
  | .comment => "#[^\\n]*(?:\\n|\\z)"

end Packrat
