import Packrat.Pattern.Atom
/-!
# Class — bracketed classes

A class is a list of members between brackets: characters, ranges, escapes, named classes and classes again; `^` at its
head takes the complement, and `&&`, `--` and `~~` between lists of members intersect, subtract and take the symmetric
difference, from left to right.  A `]` that comes first is a member, and so are the dashes that come first.  The reader
keeps the classes that are open, the innermost on top.
-/
namespace Packrat.Pattern

inductive SetOp where
  | inter
  | diff
  | symDiff
  deriving Repr, DecidableEq

def SetOp.apply : SetOp → CharSet → CharSet → CharSet
  | .inter => .inter
  | .diff => .diff
  | .symDiff => .symDiff

/-- **A class that is open**: whether it is a complement, the operator that waits for its right side with its left
side, and the members read since, the latest first. -/
structure OpenClass where
  negated : Bool
  waiting : Option (SetOp × Nested CharSet)
  members : List (Nested CharSet)
  deriving Repr, DecidableEq

namespace OpenClass

def start (negated : Bool) : OpenClass := ⟨negated, none, []⟩

def push (k : OpenClass) (member : Nested CharSet) : OpenClass := { k with members := member :: k.members }

def add (k : OpenClass) (s : CharSet) : OpenClass := k.push (.leaf s)

def current (k : OpenClass) : Nested CharSet :=
  let right := Nested.row CharSet.unionAll k.members.reverse
  match k.waiting with
  | none => right
  | some (op, left) => ⟨op.apply left.val right.val, max left.depth right.depth + 1⟩

def operator (k : OpenClass) (op : SetOp) : OpenClass :=
  { k with waiting := some (op, k.current), members := [] }

def close (k : OpenClass) : Nested CharSet := k.current.wrap (if k.negated then .negate else id)

end OpenClass

/-- The dashes at the head of a class, each a member; the length of the text bounds their number. -/
def readDashes (flags : Flags) : Nat → OpenClass → List Char → OpenClass × List Char
  | 0, k, cs => (k, cs)
  | fuel + 1, k, cs =>
    match flags.skip cs with
    | '-' :: rest => readDashes flags fuel (k.add (flags.span '-' '-')) rest
    | rest => (k, rest)

/-- **The head of a class**, after its opening bracket: `^`, dashes, or a `]` as the first member. -/
def openClass (flags : Flags) (cs : List Char) : OpenClass × List Char :=
  let (negated, cs) := match flags.skip cs with
    | '^' :: rest => (true, flags.skip rest)
    | rest => (false, rest)
  let k := OpenClass.start negated
  match cs with
  | '-' :: _ => readDashes flags cs.length k cs
  | ']' :: rest => (k.add (flags.span ']' ']'), flags.skip rest)
  | _ => (k, cs)

def readNamedClass (flags : Flags) : List Char → Option (CharSet × List Char)
  | ':' :: cs =>
    let (negated, cs) := match cs with
      | '^' :: rest => (true, rest)
      | rest => (false, rest)
    match cs.span (· != ':') with
    | (name, ':' :: ']' :: rest) => do
      let s ← CharSet.ofName? (String.ofList name)
      let s := if flags.caseless then s.ignoreCase else s
      return (if negated then .negate s else s, rest)
    | _ => none
  | _ => none

def readClassAtom (flags : Flags) : List Char → Option (Atom × List Char)
  | [] => none
  | '\\' :: cs => readEscape flags cs
  | c :: cs => some (.char c, cs)

def Atom.toSet (flags : Flags) : Atom → Option CharSet
  | .char c => some (flags.span c c)
  | .set s => some s
  | .look _ => none

/-- **A member of a class**: a range if a dash follows that is neither the last character of the class nor the start of
an operator, else a single character or escape. -/
def readMember (flags : Flags) (cs : List Char) : Option (CharSet × List Char) := do
  let (low, rest) ← readClassAtom flags cs
  match flags.skip rest with
  | '-' :: rest' =>
    match flags.skip rest' with
    | ']' :: _ | '-' :: _ => return (← low.toSet flags, '-' :: rest')
    | rest'' =>
      match low, ← readClassAtom flags rest'' with
      | .char a, (.char b, rest) => if a ≤ b then return (flags.span a b, rest) else none
      | _, _ => none
  | rest => return (← low.toSet flags, rest)

/-- **The members of the open classes up to the bracket that closes the outermost**, and the rest.  Each step reads a
character at least, so the length of the text bounds the steps. -/
def readMembers (flags : Flags) : Nat → OpenClass → List OpenClass → List Char → Option (Nested CharSet × List Char)
  | 0, _, _, _ => none
  | fuel + 1, top, outer, cs =>
    match flags.skip cs with
    | [] => none
    | '[' :: rest =>
      match readNamedClass flags rest with
      | some (s, rest) => readMembers flags fuel (top.add s) outer rest
      | none =>
        let (k, rest) := openClass flags rest
        readMembers flags fuel k (top :: outer) rest
    | ']' :: rest =>
      match outer with
      | [] => some (top.close, rest)
      | next :: outer => readMembers flags fuel (next.push top.close) outer rest
    | '&' :: '&' :: rest => readMembers flags fuel (top.operator .inter) outer rest
    | '-' :: '-' :: rest => readMembers flags fuel (top.operator .diff) outer rest
    | '~' :: '~' :: rest => readMembers flags fuel (top.operator .symDiff) outer rest
    | c :: rest =>
      match readMember flags (c :: rest) with
      | some (s, rest) => readMembers flags fuel (top.add s) outer rest
      | none => none

def readClass (flags : Flags) (cs : List Char) : Option (Nested CharSet × List Char) :=
  let (k, rest) := openClass flags cs
  (readMembers flags (rest.length + 1) k [] rest).filter fun r => flags.allows r.1.val

end Packrat.Pattern
