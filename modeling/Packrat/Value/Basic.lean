/-!
# Value — what a parse produces

Plain data (null, booleans, numbers, strings, holes of the program), lists, and nodes: a node is a kind and its fields.
Terminals produce their text, holes their index, repetitions lists; actions build the nodes.
-/
namespace Packrat

inductive Value where
  | null
  | bool (b : Bool)
  | number (n : Float)
  | string (s : String)
  /-- a hole of the parsed program, by its index -/
  | hole (i : Nat)
  | list (items : List Value)
  | node (kind : String) (fields : List Value)
  deriving Repr, Inhabited

namespace Value

def isData : Value → Bool
  | .list _ | .node _ _ => false
  | _ => true

def asString? : Value → Option String
  | .string s => some s
  | _ => none

def asNumber? : Value → Option Float
  | .number n => some n
  | _ => none

def asHole? : Value → Option Nat
  | .hole i => some i
  | _ => none

def asList? : Value → Option (List Value)
  | .list items => some items
  | _ => none

def asNode? : Value → Option (String × List Value)
  | .node kind fields => some (kind, fields)
  | _ => none

/-! ## Equality

Two values are equal when they have the same shape and equal data; numbers are compared as numbers, so NaN differs from
itself and the two zeros are equal. -/

mutual

def same : Value → Value → Bool
  | .null, .null => true
  | .bool a, .bool b => a == b
  | .number a, .number b => a == b
  | .string a, .string b => a == b
  | .hole a, .hole b => a == b
  | .list a, .list b => sameAll a b
  | .node k a, .node l b => k == l && sameAll a b
  | _, _ => false

def sameAll : List Value → List Value → Bool
  | [], [] => true
  | a :: as, b :: bs => same a b && sameAll as bs
  | _, _ => false

end

instance : BEq Value := ⟨same⟩

end Value

end Packrat
