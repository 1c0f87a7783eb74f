/-!
# Escape — text as a pattern for itself

A backslash before a character with a meaning makes it stand for itself.
-/
namespace Packrat.Pattern

def isMeta (c : Char) : Bool :=
  ['\\', '.', '+', '*', '?', '(', ')', '|', '[', ']', '{', '}', '^', '$', '#', '&', '-', '~'].contains c

def escape (text : List Char) : List Char :=
  text.flatMap fun c => if isMeta c then ['\\', c] else [c]

def isClassMeta (c : Char) : Bool := ['\\', ']', '[', '-', '^', '&', '~'].contains c

/-- **The text as members of a class**, each standing for itself. -/
def escapeMembers (text : List Char) : List Char :=
  text.flatMap fun c => if isClassMeta c then ['\\', c] else [c]

end Packrat.Pattern
