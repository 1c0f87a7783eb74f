import Packrat.Pattern.Reader
import Packrat.Pattern.Match
/-!
# Pattern — regular expressions, compiled

A pattern keeps the source it was compiled from, so that it can be spliced into a larger one, beside the expression
that does the work.
-/
namespace Packrat

structure Pattern where
  source : String
  expr : Pattern.Expr
  deriving Repr, DecidableEq, Inhabited

namespace Pattern

def ofChars (flags : Flags) (source : List Char) : Option Pattern :=
  ((readExpr flags source).filter flags.compiler.fits).map fun expr => ⟨String.ofList source, expr⟩

/-- **Compiles a source** under the flags; `none` if it is malformed, nested too deep or too large. -/
def compile (source : String) (flags : Flags := {}) : Option Pattern := ofChars flags source.toList

theorem source_of_compile {source : String} {flags : Flags} {p : Pattern} (h : compile source flags = some p) :
    p.source = source := by
  unfold compile ofChars at h
  obtain ⟨expr, -, rfl⟩ := Option.map_eq_some_iff.1 h
  exact String.ofList_toList

def isMatch (p : Pattern) (text : String) : Bool := (p.expr.search text.toList).isSome

def find (p : Pattern) (text : String) : Option (Nat × Nat) :=
  (p.expr.search text.toList).map fun (start, hit) => (start.offset, hit.place.offset)

def groupCount (p : Pattern) : Nat := p.expr.groupCount + 1

end Pattern

end Packrat
