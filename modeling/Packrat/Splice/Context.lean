import Packrat.Text.Measure
/-!
# Context — where in a pattern a hole stands

Pattern source with holes is scanned part by part, to know before each hole whether it stands in the body of the
pattern, right after a backslash, inside a class or inside the braces of a count.  The scan takes one chunk at a time:
either a single character that leaves the context, or the longest run of text that stays in it, escapes included.  The
context carries over from part to part.
-/
namespace Packrat.Splice

inductive Context where
  /-- the body of the pattern -/
  | block
  /-- right after an unpaired backslash -/
  | backslash
  /-- between the brackets of a class -/
  | charset
  /-- between the braces of a count -/
  | count
  deriving Repr, DecidableEq, Inhabited

def Context.name : Context → String
  | .block => "Block"
  | .backslash => "Backslash"
  | .charset => "Charset"
  | .count => "Count"

/-- The text after the longest run of characters that do not stop it; a backslash takes the character after it along,
and one with nothing after it ends the run. -/
def skipRun (stop : Char → Bool) : List Char → List Char
  | '\\' :: _ :: cs => skipRun stop cs
  | ['\\'] => ['\\']
  | c :: cs => if stop c then c :: cs else skipRun stop cs
  | [] => []

/-- **One chunk**: the context after it, and the text behind it.  There is none where a class has a backslash with
nothing after it. -/
def Context.chunk : Context → List Char → Option (Context × List Char)
  | _, [] => none
  | .block, '\\' :: cs => some (.backslash, cs)
  | .block, '[' :: cs => some (.charset, cs)
  | .block, '{' :: cs => some (.count, cs)
  | .block, cs => some (.block, skipRun (fun c => c == '[' || c == '{') cs)
  | .backslash, _ :: cs => some (.block, cs)
  | .charset, ']' :: cs => some (.block, cs)
  | .charset, ['\\'] => none
  | .charset, cs => some (.charset, skipRun (· == ']') cs)
  | .count, '}' :: cs => some (.block, cs)
  | .count, cs => some (.count, cs.dropWhile (· != '}'))

/-- **The context after a part**; or the context in which no chunk could be taken, with the text that was left. -/
def Context.scan (context : Context) (part : List Char) : Except (Context × List Char) Context :=
  if part.isEmpty then .ok context
  else match context.chunk part with
    | none => .error (context, part)
    | some (next, rest) => if rest.length < part.length then Context.scan next rest else .error (context, part)
termination_by part.length

structure Unscannable where
  part : Nat
  offset : Nat
  context : Context
  deriving Repr, DecidableEq

def contextsFrom (index : Nat) (context : Context) : List (List Char) → Except Unscannable (List Context)
  | [] => .ok []
  | part :: parts =>
    match context.scan part with
    | .error (context, left) => .error ⟨index, Text.byteLength part - Text.byteLength left, context⟩
    | .ok next =>
      match parts with
      | [] => .ok []
      | _ :: _ => (contextsFrom (index + 1) next parts).map (next :: ·)

def holeContexts (parts : List String) : Except Unscannable (List Context) :=
  contextsFrom 0 .block (parts.map String.toList)

end Packrat.Splice
