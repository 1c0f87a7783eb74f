import Packrat.Pattern.Expr
import Packrat.Text.Measure
/-!
# Match — what an expression takes

The meaning of an expression is a function from a place in a text to the list of its hits there, the preferred one
first: where the match may end, and which named groups took part.  A search takes the first hit of the first place that
has one.  A repetition goes on after an iteration only if that iteration took something.
-/
namespace Packrat.Pattern

/-- **A place in a text**: the characters before it, the nearest first, and those after it. -/
structure Place where
  before : List Char
  after : List Char
  deriving Repr, DecidableEq, Inhabited

def Place.offset (p : Place) : Nat := Text.byteLength p.before

structure Hit where
  place : Place
  groups : List String
  deriving Repr, DecidableEq, Inhabited

def Hit.at (p : Place) : Hit := ⟨p, []⟩

def isWordChar (ascii : Bool) (c : Char) : Bool := Text.isWordChar c && (!ascii || decide (c ≤ '\x7f'))

def WordLook.holds (before after : Bool) : WordLook → Bool
  | .boundary => before != after
  | .notBoundary => before == after
  | .start => !before && after
  | .stop => before && !after
  | .startHalf => !before
  | .stopHalf => !after

def Look.holds (p : Place) : Look → Bool
  | .startText => p.before.isEmpty
  | .endText => p.after.isEmpty
  | .startLine => p.before.head?.all (· == '\n')
  | .endLine => p.after.head?.all (· == '\n')
  | .startLineCRLF =>
    p.before.head?.all fun c => c == '\n' || (c == '\r' && p.after.head? != some '\n')
  | .endLineCRLF =>
    p.after.head?.all fun c => c == '\r' || (c == '\n' && p.before.head? != some '\r')
  | .word ascii w => w.holds (p.before.head?.any (isWordChar ascii)) (p.after.head?.any (isWordChar ascii))

/-! ## Repetition -/

def prefer (greedy : Bool) (more fewer : List Hit) : List Hit :=
  if greedy then more ++ fewer else fewer ++ more

def exactly (x : Hit → List Hit) : Nat → Hit → List Hit
  | 0, h => [h]
  | n + 1, h => (x h).flatMap (exactly x n)

def upTo (x : Hit → List Hit) (greedy : Bool) : Nat → Hit → List Hit
  | 0, h => [h]
  | n + 1, h => prefer greedy ((x h).flatMap (upTo x greedy n)) [h]

/-- Once or more; `fuel` bounds the iterations that take something. -/
def onceOrMore (x : Hit → List Hit) (greedy : Bool) : Nat → Hit → List Hit
  | 0, _ => []
  | fuel + 1, h =>
    (x h).flatMap fun e =>
      if e.place.after.length < h.place.after.length then prefer greedy (onceOrMore x greedy fuel e) [e] else [e]

def plus (x : Hit → List Hit) (greedy : Bool) (h : Hit) : List Hit :=
  onceOrMore x greedy (h.place.after.length + 1) h

def repeats (x : Hit → List Hit) (low : Nat) (high : Option Nat) (greedy : Bool) (h : Hit) : List Hit :=
  match high, low with
  | none, 0 => prefer greedy (plus x greedy h) [h]
  | none, n + 1 => (exactly x n h).flatMap (plus x greedy)
  | some m, n => (exactly x n h).flatMap (upTo x greedy (m - n))

namespace Expr

/-- **The hits of an expression**, the preferred one first. -/
def hits : Expr → Hit → List Hit
  | .empty, h => [h]
  | .one set, h =>
    match h.place.after with
    | [] => []
    | c :: after => if set.mem c then [{ h with place := ⟨c :: h.place.before, after⟩ }] else []
  | .look l, h => if l.holds h.place then [h] else []
  | .cat a b, h => (a.hits h).flatMap b.hits
  | .alt a b, h => a.hits h ++ b.hits h
  | .group none e, h => e.hits h
  | .group (some name) e, h => (e.hits h).map fun e => { e with groups := name :: e.groups }
  | .times low high greedy e, h => repeats e.hits low high greedy h

theorem hits_one_cons (set : CharSet) (before : List Char) (c : Char) (after : List Char) (groups : List String) :
    (Expr.one set).hits ⟨⟨before, c :: after⟩, groups⟩ =
      if set.mem c then [⟨⟨c :: before, after⟩, groups⟩] else [] := rfl

theorem hits_look (l : Look) (h : Hit) : (Expr.look l).hits h = if l.holds h.place then [h] else [] := rfl

theorem hits_cat (a b : Expr) (h : Hit) : (Expr.cat a b).hits h = (a.hits h).flatMap b.hits := rfl

theorem hits_alt (a b : Expr) (h : Hit) : (Expr.alt a b).hits h = a.hits h ++ b.hits h := rfl

theorem hits_group (name : String) (e : Expr) (h : Hit) :
    (Expr.group (some name) e).hits h = (e.hits h).map fun e => { e with groups := name :: e.groups } := rfl

theorem hits_times (low : Nat) (high : Option Nat) (greedy : Bool) (e : Expr) (h : Hit) :
    (Expr.times low high greedy e).hits h = repeats e.hits low high greedy h := rfl

/-- The earlier alternative is preferred though the later one takes more. -/
example : ((Expr.alt (.one (.single 'a')) (.cat (.one (.single 'a')) (.one (.single 'b')))).hits
    (.at ⟨[], ['a', 'b']⟩)).map (·.place.after) = [['b'], []] := by
  decide

def searchFrom (e : Expr) (before : List Char) : List Char → Option (Place × Hit)
  | [] =>
    match e.hits (.at ⟨before, []⟩) with
    | h :: _ => some (⟨before, []⟩, h)
    | [] => none
  | c :: after =>
    match e.hits (.at ⟨before, c :: after⟩) with
    | h :: _ => some (⟨before, c :: after⟩, h)
    | [] => searchFrom e (c :: before) after

/-- **The leftmost match in a text**: where it starts, and the preferred hit there. -/
def search (e : Expr) (text : List Char) : Option (Place × Hit) := searchFrom e [] text

end Expr

end Packrat.Pattern
