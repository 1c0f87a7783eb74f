import Packrat.Grammar.Reader
import Packrat.Value.Basic
/-!
# Grammar — layers of rules

A grammar is a row of layers, each of which may define again what the layers below it define.  A bare name is looked up
from the top of the grammar that is parsed with, wherever it is said; `super` looks in the layers below the one that
says it.
-/
namespace Packrat

/-- **An action**: the value of a sequence from the values of its factors; none is a failure of the sequence. -/
abbrev Grammar.Action := List Value → Option Value

structure Grammar.Layer where
  rules : List Grammar.Rule
  actions : List Grammar.Action

/-- **A grammar**: its own layer, the layers below it from the nearest on, the literals of all of them in byte order,
and the scanner of programs that knows these. -/
structure Grammar where
  own : Grammar.Layer
  inherited : List Grammar.Layer
  literals : List String
  scanner : Scanner

namespace Grammar

def layers (g : Grammar) : List Layer := g.own :: g.inherited

/-- **A rule where it is defined**: its layer and the layers below that. -/
structure Definition where
  rule : Rule
  layer : Layer
  below : List Layer

/-- **What tells one definition of a grammar from another**: how many layers are below it, and its name. -/
structure RuleId where
  depth : Nat
  name : String
  deriving Repr, DecidableEq, Hashable, Inhabited

def Definition.id (d : Definition) : RuleId := ⟨d.below.length, d.rule.name⟩

def find? (name : String) : List Layer → Option Definition
  | [] => none
  | layer :: below =>
    match layer.rules.find? (·.name == name) with
    | some rule => some ⟨rule, layer, below⟩
    | none => find? name below

def lookup (g : Grammar) (name : String) : Option Definition := find? name g.layers

def hasRule (g : Grammar) (name : String) : Bool := (g.lookup name).isSome

def ruleNames (g : Grammar) : List String := g.own.rules.map Rule.name

def isDerived (g : Grammar) : Bool := !g.inherited.isEmpty

def ruleCount (g : Grammar) : Nat := (g.layers.flatMap Layer.rules).length

/-! ## Display -/

def showLayers : List Layer → String
  | [] => "None"
  | layer :: below =>
    let names := layer.rules.map fun r => Text.quoted r.name
    let text := "Grammar \x7b rules: [" ++ ", ".intercalate names ++ "], parent: " ++ showLayers below ++ ", .. \x7d"
    "Some(" ++ text ++ ")"

def outline (g : Grammar) : String :=
  let names := g.own.rules.map fun r => Text.quoted r.name
  "Grammar \x7b rules: [" ++ ", ".intercalate names ++ "], parent: " ++ showLayers g.inherited ++ ", .. \x7d"

end Grammar

end Packrat
