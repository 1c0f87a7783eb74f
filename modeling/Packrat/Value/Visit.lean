import Packrat.Value.Render
/-!
# Visit — walking over values

A visitor says what to do with a node, a list and plain data.  It is given each part with the result of visiting it,
and takes the results it wants; a panic in a part that it does not take is not seen.  What a visitor does not handle is
a defect, reported as a panic: the tree and the visitor disagree about the language.
-/
namespace Packrat

inductive Panic where
  /-- a node of a kind that the visitor does not name -/
  | unrecognizedKind (kind : String)
  /-- a list where a tree was expected -/
  | listForTree (length : Nat)
  /-- plain data that the visitor does not handle -/
  | unrecognizedData (data : Value)
  /-- an operand pair that is no list -/
  | operandPairExpected (got : Value)
  /-- an operand pair of another length than two -/
  | operandPairLength (length : Nat)
  /-- an operand pair whose operator is no string -/
  | operatorExpected (got : Value)
  /-- a condition of the author's own failed -/
  | failed (text : String)
  deriving Repr, Inhabited

namespace Panic

def text : Panic → String
  | .unrecognizedKind kind => "unrecognized ast kind " ++ kind
  | .listForTree n => "ast list of " ++ toString n ++ " items mistaken for ast"
  | .unrecognizedData data => "unrecognized: data " ++ data.render
  | .operandPairExpected got => "binary operand pair expected, got " ++ got.render
  | .operandPairLength n => "binary pair of " ++ toString n ++ " items"
  | .operatorExpected got => "binary operator expected, got " ++ got.render
  | .failed text => text

def message (p : Panic) : String := "panic: " ++ p.text

end Panic

def ensure (condition : Bool) (text : String) : Except Panic Unit :=
  if condition then .ok () else .error (.failed text)

/-- The results of visiting the parts of a value, from left to right; the first panic ends the walk. -/
def walk {α : Type} : List (Except Panic α) → Except Panic (List α)
  | [] => .ok []
  | r :: rs => do
    let a ← r
    return a :: (← walk rs)

/-- **A visitor**: what to do with a node (its kind, its fields with the results of visiting them), with a list (its
items with theirs) and with plain data.  What is not given panics. -/
structure Visitor (α : Type) where
  ast : String → List (Value × Except Panic α) → Except Panic α := fun kind _ => .error (.unrecognizedKind kind)
  node : String → List (Value × Except Panic α) → Except Panic α := ast
  list : List (Value × Except Panic α) → Except Panic α := fun items => .error (.listForTree items.length)
  data : Value → Except Panic α := fun v => .error (.unrecognizedData v)

namespace Visitor

variable {α : Type}

mutual

def visit (V : Visitor α) : Value → Except Panic α
  | .node kind fields => V.node kind (visitAll V fields)
  | .list items => V.list (visitAll V items)
  | .null => V.data .null
  | .bool b => V.data (.bool b)
  | .number n => V.data (.number n)
  | .string s => V.data (.string s)
  | .hole i => V.data (.hole i)

def visitAll (V : Visitor α) : List Value → List (Value × Except Panic α)
  | [] => []
  | v :: vs => (v, visit V v) :: visitAll V vs

end

def walkNode (kind : String) (fields : List (Value × Except Panic Value)) : Except Panic Value := do
  return .node kind (← walk (fields.map (·.2)))

def walkList (items : List (Value × Except Panic Value)) : Except Panic Value := do
  return .list (← walk (items.map (·.2)))

def rewrite (data : Value → Except Panic Value) : Visitor Value where
  ast := walkNode
  list := walkList
  data := data

def replace : Visitor Value := rewrite .ok

end Visitor

end Packrat
