import Packrat.Grammar.Error
/-!
# Reader — rules from the notation

The notation of grammars is

    grammar  ::= rule* EOF
    rule     ::= IDENT "::=" choice ";"
    choice   ::= sequence ("/" sequence)*
    sequence ::= factor* HOLE?
    factor   ::= atom ("?" / "*" / "+" / "**" atom / "++" atom)?
    atom     ::= STRING / "super" "." IDENT / IDENT / "(" choice ")"

where an identifier in capitals may name a terminal.  Reading goes down the rules of this grammar over the entries of
the scanned text; every function gives what it read and the entries left.  The nesting of calls is bounded by the
number of entries, which the fuel stands for.
-/
namespace Packrat.Grammar

def notationTokens : List String := ["::=", "/", ";", "*", "+", "?", "**", "++", "(", ")", ".", "super"]

def notationScanner : Except LexError Scanner := Scanner.ofTokens notationTokens

def decodeLiteral (text : String) : Except DefinitionError String :=
  match Json.decode text.toList with
  | .ok cs => .ok (String.ofList cs)
  | .error fault => .error (.badLiteral text (fault.message text.toList))

def accept? (text : String) : List Entry → Option (List Entry)
  | .token t :: rest => if t.text == text then some rest else none
  | _ => none

def expect (text : String) (expected : Expected) (entries : List Entry) : Except DefinitionError (List Entry) :=
  match accept? text entries with
  | some rest => .ok rest
  | none => .error (.unexpected expected entries)

def expectIdent (lexicon : Lexicon) (expected : Expected) : List Entry → Except DefinitionError (String × List Entry)
  | .token t :: rest =>
    if lexicon.isIdent t then .ok (t.text, rest) else .error (.unexpected expected (.token t :: rest))
  | entries => .error (.unexpected expected entries)

def readAction : List Entry → Option Nat × List Entry
  | .hole i :: rest => (some i, rest)
  | entries => (none, entries)

def Atom.ofIdent (name : String) : Atom :=
  match Terminal.ofName? name with
  | some t => .terminal t
  | none => .rule name

mutual

def readChoice (lexicon : Lexicon) : Nat → List Entry → Except DefinitionError (Choice × List Entry)
  | 0, entries => .error (.unexpected .groupEnd entries)
  | fuel + 1, entries => do
    let (s, entries) ← readSequence lexicon fuel entries
    match accept? "/" entries with
    | none => return (.last s, entries)
    | some entries =>
      let (rest, entries) ← readChoice lexicon fuel entries
      return (.orElse s rest, entries)

/-- **Factors up to the first entry that starts none**, and the action there. -/
def readSequence (lexicon : Lexicon) : Nat → List Entry → Except DefinitionError (Sequence × List Entry)
  | 0, entries => .error (.unexpected .groupEnd entries)
  | fuel + 1, entries => do
    match ← readAtom lexicon fuel entries with
    | (none, entries) =>
      let (action, entries) := readAction entries
      return (.stop action, entries)
    | (some a, entries) =>
      let (f, entries) ← readRepeat lexicon fuel a entries
      let (rest, entries) ← readSequence lexicon fuel entries
      return (.andThen f rest, entries)

def readRepeat (lexicon : Lexicon) : Nat → Atom → List Entry → Except DefinitionError (Factor × List Entry)
  | 0, _, entries => .error (.unexpected .groupEnd entries)
  | fuel + 1, a, entries =>
    match accept? "?" entries, accept? "*" entries, accept? "+" entries, accept? "**" entries,
      accept? "++" entries with
    | some entries, _, _, _, _ => .ok (.optional a, entries)
    | _, some entries, _, _, _ => .ok (.many a, entries)
    | _, _, some entries, _, _ => .ok (.many1 a, entries)
    | _, _, _, some entries, _ => do
      match ← readAtom lexicon fuel entries with
      | (some separator, entries) => return (.sepBy a separator, entries)
      | (none, entries) => throw (.unexpected .separator entries)
    | _, _, _, _, some entries => do
      match ← readAtom lexicon fuel entries with
      | (some separator, entries) => return (.sepBy1 a separator, entries)
      | (none, entries) => throw (.unexpected .separator entries)
    | none, none, none, none, none => .ok (.once a, entries)

def readAtom (lexicon : Lexicon) : Nat → List Entry → Except DefinitionError (Option Atom × List Entry)
  | 0, entries => .error (.unexpected .groupEnd entries)
  | fuel + 1, .token t :: rest =>
    if lexicon.isString t then do
      return (some (.literal (← decodeLiteral t.text)), rest)
    else if t.text == "super" then do
      let rest ← expect "." .superDot rest
      let (name, rest) ← expectIdent lexicon .superName rest
      return (some (.super name), rest)
    else if lexicon.isIdent t then .ok (some (Atom.ofIdent t.text), rest)
    else if t.text == "(" then do
      let (c, rest) ← readChoice lexicon fuel rest
      return (some (.group c), ← expect ")" .groupEnd rest)
    else .ok (none, .token t :: rest)
  | _ + 1, entries => .ok (none, entries)

end

/-- The fuel for reading entries: calls nest three deep between one entry and the next. -/
def readFuel (entries : List Entry) : Nat := 3 * entries.length + 3

def readRule (lexicon : Lexicon) (entries : List Entry) : Except DefinitionError (Rule × List Entry) := do
  let (name, entries) ← expectIdent lexicon .ruleName entries
  let entries ← expect "::=" .definition entries
  let (body, entries) ← readChoice lexicon (readFuel entries) entries
  return (⟨name, body⟩, ← expect ";" .ruleEnd entries)

def readRules (lexicon : Lexicon) : Nat → List Entry → Except DefinitionError (List Rule)
  | _, [] => .ok []
  | 0, entries => .error (.unexpected .ruleName entries)
  | fuel + 1, entries => do
    let (rule, entries) ← readRule lexicon entries
    return rule :: (← readRules lexicon fuel entries)

def rulesOf (tokens : TokenList) : Except DefinitionError (List Rule) :=
  readRules tokens.lexicon tokens.entries.length tokens.entries

def parseRules (text : Template) : Except DefinitionError (List Rule) :=
  match notationScanner with
  | .error e => .error (.lex e)
  | .ok scanner =>
    match scanner.scan text with
    | .error e => .error (.lex e)
    | .ok tokens => rulesOf tokens

end Packrat.Grammar
