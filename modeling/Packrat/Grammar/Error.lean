import Packrat.Token.Scanner
import Packrat.Grammar.Syntax
/-!
# Error — why a text is no grammar, or a program no sentence of it

Every failure is a case of one of two types, and its wording is a function of the case.
-/
namespace Packrat.Grammar

inductive Expected where
  | ruleName
  | definition
  | ruleEnd
  | separator
  | superDot
  | superName
  | groupEnd
  deriving Repr, DecidableEq

def marked (text : String) : String := "\x60" ++ text ++ "\x60"

def Expected.text : Expected → String
  | .ruleName => "rule name"
  | .definition => marked "::="
  | .ruleEnd => marked ";"
  | .separator => "separator after " ++ marked "**" ++ " or " ++ marked "++"
  | .superDot => marked "." ++ " after " ++ marked "super"
  | .superName => "rule name after " ++ marked "super."
  | .groupEnd => marked ")"

inductive DefinitionError where
  /-- another number of actions than of holes -/
  | actionCount (holes actions : Nat)
  /-- the text cannot be scanned -/
  | lex (e : LexError)
  /-- an entry that cannot stand where it does, the first of those unread; none is left at the end of the text -/
  | unexpected (expected : Expected) (unread : List Entry)
  /-- a quoted text that is no JSON string -/
  | badLiteral (text message : String)
  /-- a rule with the name of a terminal -/
  | terminalRule (name : String)
  | duplicateRule (name : String)
  | undefinedRule (rule name : String)
  /-- a name in capitals, which only terminals have -/
  | unknownTerminal (rule name : String)
  /-- a reference to the layers below where there are none -/
  | noParent (name : String)
  | undefinedSuper (name : String)
  deriving Repr, DecidableEq

def DefinitionError.message : DefinitionError → String
  | .actionCount holes actions =>
    "grammar text has " ++ toString holes ++ " action holes but " ++ toString actions ++ " actions were given"
  | .lex e => "grammar text: " ++ e.message
  | .unexpected expected unread =>
    "expected " ++ expected.text ++ ", found " ++ (unread.head?.map Entry.render).getD "end of grammar"
  | .badLiteral text message => "bad literal " ++ text ++ ": " ++ message
  | .terminalRule name => marked name ++ " is a built-in terminal and cannot be redefined"
  | .duplicateRule name => "rule " ++ marked name ++ " is defined twice"
  | .undefinedRule rule name => "rule " ++ marked rule ++ " refers to undefined rule " ++ marked name
  | .unknownTerminal rule name => "rule " ++ marked rule ++ " refers to unknown terminal " ++ marked name
  | .noParent name => marked ("super." ++ name) ++ " in a grammar that extends nothing"
  | .undefinedSuper name => marked ("super." ++ name) ++ ": the parent grammar has no such rule"

inductive ParseError where
  | unknownRule (name : String)
  /-- another number of values than of holes -/
  | holeCount (expected found : Nat)
  | lex (e : LexError)
  /-- the entry rule failed; the furthest position that a terminal reached, and the entry there -/
  | noMatch (rule : String) (furthest : Nat) (entry : Option Entry)
  /-- a rule was entered again at the position it was entered at -/
  | leftRecursion (rule : String)
  deriving Repr, DecidableEq

def ParseError.message : ParseError → String
  | .unknownRule name => "no rule named " ++ marked name
  | .holeCount expected found =>
    "program has " ++ toString expected ++ " holes but " ++ toString found ++ " values were given"
  | .lex e => e.message
  | .noMatch rule _ entry =>
    "no alternative of " ++ marked rule ++ " matched at " ++ (entry.map Entry.render).getD "end of input"
  | .leftRecursion rule => "rule " ++ marked rule ++ " refers to itself before taking anything"

end Packrat.Grammar
