import Packrat.Pattern.Class
import Packrat.Text.Letter
import Packrat.Text.Numeral
/-!
# Reader — expressions read from pattern text

The reader goes over the text item by item and keeps the groups that are open, the innermost on top.  A group holds the
alternatives that are complete and the items of the one being read; a repetition takes the last item.  Flags set inside
a group end with it.

What has been read carries its depth: a group, a repetition, a class and an operator in a class are a level each, and so
is a row of items, alternatives or members if there are two or more.  A source that is nested too deep is refused
(`nestLimit`).
-/
namespace Packrat.Pattern

structure OpenGroup where
  flags : Flags
  /-- whether it captures, and its name if it has one -/
  capture : Option (Option String)
  /-- the complete alternatives, the latest first -/
  complete : List (Nested Expr)
  /-- the items of the current alternative, the latest first -/
  items : List (Nested Expr)
  /-- the last item may take a repetition -/
  repeatable : Bool

namespace OpenGroup

def start (flags : Flags) (capture : Option (Option String)) : OpenGroup := ⟨flags, capture, [], [], false⟩

def push (g : OpenGroup) (e : Nested Expr) : OpenGroup := { g with items := e :: g.items, repeatable := true }

/-- The flags change from here on; what sets them is an item that takes no text and no repetition. -/
def setFlags (g : OpenGroup) (flags : Flags) : OpenGroup :=
  { g with flags, items := .leaf .empty :: g.items, repeatable := false }

def current (g : OpenGroup) : Nested Expr := .row Expr.catAll g.items.reverse

def nextAlternative (g : OpenGroup) : OpenGroup :=
  { g with complete := g.current :: g.complete, items := [], repeatable := false }

def body (g : OpenGroup) : Nested Expr := .row Expr.altAll (g.current :: g.complete).reverse

def close (g : OpenGroup) : Nested Expr :=
  g.body.wrap fun e => match g.capture with
    | none => e
    | some name => .group name e

def repeatLast (g : OpenGroup) (low : Nat) (high : Option Nat) (greedy : Bool) : Option OpenGroup :=
  match g.repeatable, g.items with
  | true, e :: items => some { g with items := e.wrap (.times low high (greedy != g.flags.swapGreed)) :: items }
  | _, _ => none

end OpenGroup

/-! ## Repetitions -/

def readLazy : List Char → Bool × List Char
  | '?' :: rest => (false, rest)
  | cs => (true, cs)

def readDigits (flags : Flags) : Nat → List Char → List Char × List Char
  | 0, cs => ([], cs)
  | fuel + 1, cs =>
    match cs with
    | [] => ([], [])
    | c :: rest =>
      if c.isDigit then
        let (ds, rest) := readDigits flags fuel (flags.skip rest)
        (c :: ds, rest)
      else ([], c :: rest)

def readCount (flags : Flags) (cs : List Char) : Option (Nat × List Char) :=
  let cs := cs.dropWhile Text.isBlank
  match readDigits flags cs.length cs with
  | ([], _) => none
  | (ds, rest) =>
    if Text.digitsValue ds < UInt32.size then some (Text.digitsValue ds, flags.skip (rest.dropWhile Text.isBlank)) else none

/-- **The bounds of a counted repetition**, after its opening brace: `n`, `n,` or `n,m` with `n` at most `m`. -/
def readBounds (flags : Flags) (cs : List Char) : Option ((Nat × Option Nat) × List Char) := do
  let (low, cs) ← readCount flags (flags.skip cs)
  match cs with
  | '}' :: rest => return ((low, some low), rest)
  | ',' :: rest =>
    match flags.skip rest with
    | '}' :: rest => return ((low, none), rest)
    | cs =>
      match ← readCount flags cs with
      | (high, '}' :: rest) => if low ≤ high then return ((low, some high), rest) else none
      | _ => none
  | _ => none

/-! ## Groups -/

/-- The letters of flags at the head of a group, up to the colon or the bracket after them: the flags they make, whether
there was any letter, and what ended them.  A letter stands once; a dash turns the letters after it off, and needs one
after it. -/
def readFlags (flags : Flags) (on afterDash : Bool) (seen : List Char) :
    List Char → Option (Flags × Bool × Char × List Char)
  | [] => none
  | c :: rest =>
    if c = ':' ∨ c = ')' then if afterDash then none else some (flags, !seen.isEmpty, c, rest)
    else if c = '-' then if on then readFlags flags false true seen rest else none
    else if seen.contains c then none
    else match flags.set on c with
      | some flags => readFlags flags on false (c :: seen) rest
      | none => none

/-- A letter or an underscore, or later in the name also a numeral, a point or a bracket. -/
def isNameChar (first : Bool) (c : Char) : Bool :=
  c == '_' || Text.isLetter c || (!first && (Text.isNumeral c || c == '.' || c == '[' || c == ']'))

def readName (cs : List Char) : Option (String × List Char) :=
  match cs.span (· != '>') with
  | (c :: name, '>' :: rest) =>
    if isNameChar true c && name.all (isNameChar false) then some (String.ofList (c :: name), rest) else none
  | _ => none

inductive Opening where
  | group (g : OpenGroup)
  | flags (f : Flags)

/-- **The head of a group**, after its opening bracket.  Conditions on the text around are refused. -/
def readOpening (flags : Flags) (cs : List Char) : Option (Opening × List Char) :=
  match flags.skip cs with
  | '?' :: '=' :: _ | '?' :: '!' :: _ | '?' :: '<' :: '=' :: _ | '?' :: '<' :: '!' :: _ => none
  | '?' :: 'P' :: '<' :: rest | '?' :: '<' :: rest =>
    (readName rest).map fun (name, rest) => (.group (.start flags (some (some name))), rest)
  | '?' :: rest =>
    match readFlags flags true false [] rest with
    | some (flags, _, ':', rest) => some (.group (.start flags none), rest)
    | some (flags, true, _, rest) => some (.flags flags, rest)
    | _ => none
  | rest => some (.group (.start flags (some none)), rest)

/-! ## Items -/

def Atom.toExpr (flags : Flags) : Atom → Expr
  | .char c => .one (flags.span c c)
  | .set s => .one s
  | .look l => .look l

def Flags.dot (f : Flags) : CharSet :=
  if f.dotAll then .all
  else if f.crlf then .negate (.union (.single '\n') (.single '\r'))
  else .negate (.single '\n')

def plainExpr (flags : Flags) (c : Char) : Option Expr :=
  if c = '.' then if flags.allows flags.dot then some (.one flags.dot) else none
  else if c = '^' then
    some (.look (if !flags.multiLine then .startText else if flags.crlf then .startLineCRLF else .startLine))
  else if c = '$' then
    some (.look (if !flags.multiLine then .endText else if flags.crlf then .endLineCRLF else .endLine))
  else some (.one (flags.span c c))

def OpenGroup.name? (g : OpenGroup) : Option String := g.capture.join

/-- **The expression of the text**, given the open groups and the names in use.  Each step reads a character at least,
so the length of the text bounds the steps. -/
def readItems : Nat → OpenGroup → List OpenGroup → List String → List Char → Option (Nested Expr)
  | 0, _, _, _, _ => none
  | fuel + 1, top, outer, names, cs =>
    match top.flags.skip cs with
    | [] => if outer.isEmpty then some top.body else none
    | '(' :: rest => do
      match ← readOpening top.flags rest with
      | (.flags f, rest) => readItems fuel (top.setFlags f) outer names rest
      | (.group g, rest) =>
        match g.name? with
        | none => readItems fuel g (top :: outer) names rest
        | some name =>
          if names.contains name then none else readItems fuel g (top :: outer) (name :: names) rest
    | ')' :: rest =>
      match outer with
      | [] => none
      | next :: outer => readItems fuel (next.push top.close) outer names rest
    | '|' :: rest => readItems fuel top.nextAlternative outer names rest
    | '[' :: rest => do
      let (s, rest) ← readClass top.flags rest
      readItems fuel (top.push (s.map .one)) outer names rest
    | '?' :: rest => do
      let (greedy, rest) := readLazy rest
      readItems fuel (← top.repeatLast 0 (some 1) greedy) outer names rest
    | '*' :: rest => do
      let (greedy, rest) := readLazy rest
      readItems fuel (← top.repeatLast 0 none greedy) outer names rest
    | '+' :: rest => do
      let (greedy, rest) := readLazy rest
      readItems fuel (← top.repeatLast 1 none greedy) outer names rest
    | '{' :: rest => do
      let ((low, high), rest) ← readBounds top.flags rest
      let (greedy, rest) := readLazy (top.flags.skip rest)
      readItems fuel (← top.repeatLast low high greedy) outer names rest
    | '\\' :: rest => do
      let (a, rest) ← readEscape top.flags rest
      readItems fuel (top.push (.leaf (a.toExpr top.flags))) outer names rest
    | c :: rest => do
      let e ← plainExpr top.flags c
      readItems fuel (top.push (.leaf e)) outer names rest

/-- **The expression that a pattern text stands for**, with its depth, if the text is well formed. -/
def readSyntax (flags : Flags) (cs : List Char) : Option (Nested Expr) :=
  readItems (cs.length + 1) (.start flags none) [] [] cs

def nestLimit : Nat := 250

def readExpr (flags : Flags) (cs : List Char) : Option Expr :=
  ((readSyntax flags cs).filter (·.depth ≤ nestLimit)).map Nested.val

end Packrat.Pattern
