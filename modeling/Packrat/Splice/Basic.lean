import Packrat.Splice.Context
import Packrat.Splice.Members
import Packrat.Pattern.Basic
/-!
# Splice — pattern source with holes

Pattern source is given in parts with holes between them.  A hole is filled with plain text or with a pattern, and what
is written there depends on the context: a unit of its own in the body, members in a class, a number after a backslash
or in a count.  So a filler means the same wherever it stands, whatever characters it holds.
-/
namespace Packrat

/-- **Pattern source with holes**, and the context before each. -/
structure Splice where
  parts : List String
  contexts : List Splice.Context
  deriving Repr, DecidableEq, Inhabited

namespace Splice

inductive Filler where
  | text (s : String)
  | pattern (p : Pattern)
  deriving Repr, DecidableEq, Inhabited

inductive Fault where
  | unscannable (u : Unscannable)
  /-- another number of fillers than of holes -/
  | fillerCount (expected found : Nat)
  | unknownFlag (flag : Char)
  /-- the source, filled, is no pattern -/
  | malformed
  deriving Repr, DecidableEq

def Fault.message : Fault → String
  | .unscannable u => "cannot scan template part " ++ toString u.part ++ " at offset " ++ toString u.offset ++ " in " ++
      u.context.name ++ " context"
  | .fillerCount expected found => "template has " ++ toString expected ++ " holes but " ++ toString found ++
      " values were supplied"
  | .unknownFlag flag => "unsupported regex flag " ++ String.ofList ['\x60', flag, '\x60']
  | .malformed => "malformed pattern"

def analyse (parts : List String) : Except Fault Splice :=
  match holeContexts parts with
  | .ok contexts => .ok ⟨parts, contexts⟩
  | .error u => .error (.unscannable u)

def holeCount (s : Splice) : Nat := s.contexts.length

/-! ## Filling a hole -/

/-- The number that a text gives, blanks around it and a plus before it allowed; 0 if it gives none below 2^32. -/
def countOf (text : List Char) : Nat :=
  let digits : List Char := match Text.trimBlanks text with
    | '+' :: ds => ds
    | ds => ds
  if !digits.isEmpty && digits.all Char.isDigit && decide (Text.digitsValue digits < UInt32.size) then
    Text.digitsValue digits
  else 0

def written : Context → Filler → List Char
  | .block, .pattern p => '(' :: '?' :: ':' :: p.source.toList ++ [')']
  | .block, .text s => '(' :: '?' :: ':' :: Pattern.escape s.toList ++ [')']
  | .charset, .pattern p => (classMembers p.source.toList).getD (Pattern.escapeMembers p.source.toList)
  | .charset, .text s => Pattern.escapeMembers s.toList
  | .backslash, .text s | .count, .text s => Nat.toDigits 10 (countOf s.toList)
  | .backslash, .pattern _ | .count, .pattern _ => ['0']

def filled : List Context → List Filler → List (List Char) → List Char
  | c :: cs, f :: fs, part :: parts => written c f ++ part ++ filled cs fs parts
  | _, _, _ => []

def sourceChars (s : Splice) (fillers : List Filler) : Except Fault (List Char) :=
  if fillers.length = s.holeCount then
    match s.parts.map String.toList with
    | [] => .ok []
    | first :: parts => .ok (first ++ filled s.contexts fillers parts)
  else .error (.fillerCount s.holeCount fillers.length)

def source (s : Splice) (fillers : List Filler) : Except Fault String := (s.sourceChars fillers).map String.ofList

/-! ## Compiling -/

def readFlags (flags : Pattern.Flags) : List Char → Except Fault Pattern.Flags
  | [] => .ok flags
  | c :: cs =>
    if ['i', 'm', 's', 'x', 'u'].contains c then
      match flags.set true c with
      | some flags => readFlags flags cs
      | none => .error (.unknownFlag c)
    else .error (.unknownFlag c)

def makeWithFlags (s : Splice) (flags : String) (fillers : List Filler) (compiler : Pattern.Compiler := .basic) :
    Except Fault Pattern := do
  let source ← s.sourceChars fillers
  let flags ← readFlags compiler.flags flags.toList
  match Pattern.ofChars flags source with
  | some p => return p
  | none => throw .malformed

def make (s : Splice) (fillers : List Filler) (compiler : Pattern.Compiler := .basic) : Except Fault Pattern :=
  s.makeWithFlags "" fillers compiler

def compose (parts : List String) (fillers : List Filler) (compiler : Pattern.Compiler := .basic) :
    Except Fault Pattern := do
  (← analyse parts).make fillers compiler

end Splice

end Packrat
