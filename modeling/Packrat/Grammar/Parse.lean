import Packrat.Grammar.Build
import Packrat.Grammar.Engine
/-!
# Parse — programs by a grammar

A program is a template whose holes have values.  It is scanned with the grammar's scanner, and a rule runs from its
first entry on; what the rule leaves is not looked at.
-/
namespace Packrat

/-- **How to parse**: whether the outcomes of rules are kept, which changes the time it takes and nothing else. -/
structure ParseOptions where
  memoize : Bool := true
  deriving Repr, DecidableEq, Inhabited

structure Parse where
  value : Value
  holes : List Value
  consumed : Nat
  total : Nat
  stats : Grammar.Stats
  deriving Repr, Inhabited

namespace Parse

def isComplete (p : Parse) : Bool := p.consumed == p.total

def hole? (p : Parse) (i : Nat) : Option Value := p.holes[i]?

end Parse

namespace Grammar

/-- The depth of calls that no run exceeds without calling a rule again at the position it was called at. -/
def callDepth (g : Grammar) (tokens : TokenList) : Nat := g.ruleCount * (tokens.entries.length + 1) + 1

def runEntry (g : Grammar) (memoize : Bool) (d : Definition) (tokens : TokenList) : Reply Value :=
  invoke g.layers memoize (g.callDepth tokens) d (.start tokens.cursor)

def parseWith (g : Grammar) (options : ParseOptions) (rule : String) (program : Template) (holes : List Value) :
    Except ParseError Parse :=
  match g.lookup rule with
  | none => .error (.unknownRule rule)
  | some d =>
    if program.holeCount ≠ holes.length then .error (.holeCount program.holeCount holes.length)
    else match g.scanner.scan program with
      | .error e => .error (.lex e)
      | .ok tokens =>
        match g.runEntry options.memoize d tokens with
        | .value value s => .ok ⟨value, holes, s.position, tokens.entries.length, s.stats⟩
        | .fail s => .error (.noMatch rule s.furthest tokens.entries[s.furthest]?)
        | .exhausted => .error (.leftRecursion rule)

def parse (g : Grammar) (program : Template) (holes : List Value) : Except ParseError Parse :=
  g.parseWith {} "start" program holes

end Grammar

end Packrat
