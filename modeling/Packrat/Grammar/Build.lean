import Packrat.Grammar.Basic
/-!
# Build — grammars from text

A grammar is built from text in the notation, with an action for each hole, alone or over another grammar.  What could
go wrong in a parse for the grammar's own fault is found here: two rules of one name, a rule with the name of a
terminal, and names without a rule.
-/
namespace Packrat.Grammar

/-- The first rule with the name of a terminal or of a rule before it. -/
def checkNames (seen : List String) : List Rule → Except DefinitionError Unit
  | [] => .ok ()
  | r :: rules =>
    if (Terminal.ofName? r.name).isSome then .error (.terminalRule r.name)
    else if seen.contains r.name then .error (.duplicateRule r.name)
    else checkNames (r.name :: seen) rules

/-- A name of capitals, digits and underscores, with a capital in it; letters are those of ASCII. -/
def looksLikeTerminal (name : String) : Bool :=
  name.toList.any Char.isUpper && name.toList.all fun c => c.isUpper || c.isDigit || c == '_'

def Reference.fault? (rule : String) (layer : Layer) (below : List Layer) : Reference → Option DefinitionError
  | .rule name =>
    if (find? name (layer :: below)).isSome then none
    else if looksLikeTerminal name then some (.unknownTerminal rule name)
    else some (.undefinedRule rule name)
  | .super name =>
    if below.isEmpty then some (.noParent name)
    else if (find? name below).isSome then none
    else some (.undefinedSuper name)

def checkReferences (layer : Layer) (below : List Layer) : Except DefinitionError Unit :=
  match layer.rules.findSome? fun r => r.body.references.findSome? (Reference.fault? r.name layer below) with
  | some e => .error e
  | none => .ok ()

def layersOf (parent : Option Grammar) : List Layer := (parent.map layers).getD []

def literalsOver (parent : Option Grammar) (rules : List Rule) : List String :=
  Text.vocabulary Text.byteOrder ((parent.map Grammar.literals).getD [] ++ rules.flatMap fun r => r.body.literals)

def ofRules (parent : Option Grammar) (rules : List Rule) (actions : List Action) : Except DefinitionError Grammar := do
  checkNames [] rules
  checkReferences ⟨rules, actions⟩ (layersOf parent)
  let literals := literalsOver parent rules
  match Scanner.ofTokens literals with
  | .ok scanner => return ⟨⟨rules, actions⟩, layersOf parent, literals, scanner⟩
  | .error e => throw (.lex e)

def build (parent : Option Grammar) (text : Template) (actions : List Action) : Except DefinitionError Grammar :=
  if text.holeCount = actions.length then do ofRules parent (← parseRules text) actions
  else .error (.actionCount text.holeCount actions.length)

def compile (text : Template) (actions : List Action) : Except DefinitionError Grammar := build none text actions

/-- **The grammar of a text over another grammar.**  A rule of the text replaces the rule of its name below. -/
def extend (parent : Grammar) (text : Template) (actions : List Action) : Except DefinitionError Grammar :=
  build (some parent) text actions

end Packrat.Grammar
