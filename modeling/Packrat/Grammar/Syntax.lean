/-!
# Syntax — rules as trees

A rule names a choice; a choice is a row of alternatives, an alternative a row of factors with an action at its end.
Rows are lists in the shape of the type, so that a choice has at least one alternative and every walk over a tree is a
recursion over four plain types.  An action is known by the index of the hole that it stands in.
-/
namespace Packrat.Grammar

inductive Terminal where
  | number
  | string
  | ident
  | hole
  | eof
  | fail
  deriving Repr, DecidableEq, Inhabited

namespace Terminal

def name : Terminal → String
  | .number => "NUMBER"
  | .string => "STRING"
  | .ident => "IDENT"
  | .hole => "HOLE"
  | .eof => "EOF"
  | .fail => "FAIL"

def ofName? : String → Option Terminal
  | "NUMBER" => some .number
  | "STRING" => some .string
  | "IDENT" => some .ident
  | "HOLE" => some .hole
  | "EOF" => some .eof
  | "FAIL" => some .fail
  | _ => none

@[simp] theorem ofName?_name (t : Terminal) : ofName? t.name = some t := by cases t <;> rfl

end Terminal

mutual

inductive Choice where
  | last (s : Sequence)
  | orElse (s : Sequence) (rest : Choice)

/-- **Factors**, one after the other, with the action that makes the value of theirs. -/
inductive Sequence where
  | stop (action : Option Nat)
  | andThen (f : Factor) (rest : Sequence)

/-- **An atom**, once or repeated; separators stand between the items of a list. -/
inductive Factor where
  | once (a : Atom)
  | optional (a : Atom)
  | many (a : Atom)
  | many1 (a : Atom)
  | sepBy (a separator : Atom)
  | sepBy1 (a separator : Atom)

inductive Atom where
  | literal (text : String)
  | terminal (t : Terminal)
  /-- the rule of this name in the grammar that is being parsed with -/
  | rule (name : String)
  /-- the rule of this name in the layers below the one that says so -/
  | super (name : String)
  | group (c : Choice)

end

deriving instance Repr, DecidableEq for Choice, Sequence, Factor, Atom

structure Rule where
  name : String
  body : Choice
  deriving Repr, DecidableEq

/-! ## What a tree mentions, in the order of its text -/

mutual

def Choice.literals : Choice → List String
  | .last s => s.literals
  | .orElse s rest => s.literals ++ rest.literals

def Sequence.literals : Sequence → List String
  | .stop _ => []
  | .andThen f rest => f.literals ++ rest.literals

def Factor.literals : Factor → List String
  | .once a | .optional a | .many a | .many1 a => a.literals
  | .sepBy a separator | .sepBy1 a separator => a.literals ++ separator.literals

def Atom.literals : Atom → List String
  | .literal text => [text]
  | .terminal _ | .rule _ | .super _ => []
  | .group c => c.literals

end

inductive Reference where
  | rule (name : String)
  | super (name : String)
  deriving Repr, DecidableEq

mutual

def Choice.references : Choice → List Reference
  | .last s => s.references
  | .orElse s rest => s.references ++ rest.references

def Sequence.references : Sequence → List Reference
  | .stop _ => []
  | .andThen f rest => f.references ++ rest.references

def Factor.references : Factor → List Reference
  | .once a | .optional a | .many a | .many1 a => a.references
  | .sepBy a separator | .sepBy1 a separator => a.references ++ separator.references

def Atom.references : Atom → List Reference
  | .rule name => [.rule name]
  | .super name => [.super name]
  | .literal _ | .terminal _ => []
  | .group c => c.references

end

end Packrat.Grammar
