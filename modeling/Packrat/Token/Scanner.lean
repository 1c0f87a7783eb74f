import Packrat.Token.Basic
import Packrat.Token.Class
import Packrat.Text.Vocabulary
/-!
# Scanner — from text to tokens

A scanner knows the built-in kinds of token and a set of declared tokens.  A declared token that is an identifier is a
keyword; any other is an operator, and the longest operator that fits is taken before punctuation and symbols.  All
kinds are spliced into one pattern, which is matched at the start of the text that is left, again and again; spaces and
comments are dropped.
-/
namespace Packrat

/-- **Why there are no tokens.**  Only the first is a fault of the text; the others are faults of the token pattern. -/
inductive LexError where
  /-- no kind of token matches the rest of the segment -/
  | lexical (remainder : String) (pos : Pos)
  /-- a match that did not start where the one before it ended -/
  | misaligned (token : Token) (expected : Nat)
  /-- a match that took nothing, so that the scan would never end -/
  | emptyToken (pos : Pos)
  /-- the token pattern itself is malformed -/
  | tokenPattern (fault : Splice.Fault)
  deriving Repr, DecidableEq

namespace LexError

def message : LexError → String
  | .lexical remainder pos => "unexpected " ++ Text.quoted remainder ++ " at " ++ pos.render
  | .misaligned token expected => "internal: " ++ token.render ++ " expected at " ++ toString expected
  | .emptyToken pos => "internal: empty token at " ++ pos.render
  | .tokenPattern fault => "internal: token pattern: " ++ fault.message

def isInternal : LexError → Bool
  | .lexical _ _ => false
  | .misaligned _ _ | .emptyToken _ | .tokenPattern _ => true

end LexError

structure Lexicon where
  keywords : List String
  number : FullMatch
  string : FullMatch
  ident : FullMatch
  deriving Repr, DecidableEq, Inhabited

namespace Lexicon

def isNumber (l : Lexicon) (t : Token) : Bool := l.number.accepts t.text

def isString (l : Lexicon) (t : Token) : Bool := l.string.accepts t.text

def isIdent (l : Lexicon) (t : Token) : Bool := l.ident.accepts t.text && !l.keywords.contains t.text

end Lexicon

structure Scanner where
  /-- the pattern of one token -/
  token : Pattern
  /-- the operators, longest first -/
  operators : List String
  lexicon : Lexicon
  deriving Repr, DecidableEq, Inhabited

structure TokenList where
  entries : List Entry
  lexicon : Lexicon
  deriving Repr, DecidableEq, Inhabited

def TokenList.texts (l : TokenList) : List String := l.entries.map Entry.text

namespace Scanner

/-! ## The token pattern -/

def plainParts : List String :=
  ["\\A(?:(?P<space>", ")|", "|", "|", "|", "|", "|(?P<comment>", "))"]

def operatorParts : List String :=
  ["\\A(?:(?P<space>", ")|", "|", "|", "|", "|", "|", "|(?P<comment>", "))"]

def compiled (source : List Char) : Except Splice.Fault Pattern :=
  match Pattern.ofChars {} source with
  | some p => .ok p
  | none => .error .malformed

def operatorSource (operators : List String) : List Char :=
  ['|'].intercalate (operators.map fun op => Pattern.escape op.toList)

def tokenPattern (operators : List String) : Except Splice.Fault Pattern := do
  let space ← compiled TokenClass.space.source.toList
  let number ← compiled TokenClass.number.source.toList
  let string ← compiled TokenClass.string.source.toList
  let ident ← compiled TokenClass.ident.source.toList
  let punctuation ← compiled TokenClass.punctuation.source.toList
  let symbols ← compiled TokenClass.symbols.source.toList
  let comment ← compiled TokenClass.comment.source.toList
  if operators.isEmpty then
    Splice.compose plainParts
      [.pattern space, .pattern number, .pattern string, .pattern ident, .pattern punctuation, .pattern symbols,
       .pattern comment]
  else
    let ops ← compiled (operatorSource operators)
    Splice.compose operatorParts
      [.pattern space, .pattern number, .pattern string, .pattern ident, .pattern ops, .pattern punctuation,
       .pattern symbols, .pattern comment]

def build (tokens : List String) : Except Splice.Fault Scanner := do
  let number ← FullMatch.ofSource TokenClass.number.source
  let string ← FullMatch.ofSource TokenClass.string.source
  let ident ← FullMatch.ofSource TokenClass.ident.source
  let declared := tokens.filter (!·.isEmpty)
  let keywords := Text.vocabulary Text.byteOrder (declared.filter ident.accepts)
  let operators := Text.vocabulary Text.longestFirst (declared.filter (!ident.accepts ·))
  return ⟨← tokenPattern operators, operators, ⟨keywords, number, string, ident⟩⟩

/-- **The scanner for the built-in kinds and the declared tokens**; empty tokens are ignored. -/
def ofTokens (tokens : List String) : Except LexError Scanner :=
  match build tokens with
  | .ok s => .ok s
  | .error fault => .error (.tokenPattern fault)

/-! ## Scanning -/

structure Taken where
  text : List Char
  dropped : Bool
  rest : List Char

/-- **The leftmost match of the token pattern** in a text: the characters before it, and what it takes. -/
def next (s : Scanner) (cs : List Char) : Option (List Char × Taken) :=
  (s.token.expr.search cs).map fun (start, hit) =>
    (start.before.reverse, ⟨hit.place.before.reverse.drop start.before.length,
      hit.groups.contains "space" || hit.groups.contains "comment", cs.drop hit.place.before.length⟩)

theorem length_rest_lt {s : Scanner} {cs before : List Char} {taken : Taken} (h : s.next cs = some (before, taken))
    (hcs : cs.isEmpty = false) (htext : taken.text.isEmpty = false) : taken.rest.length < cs.length := by
  obtain ⟨⟨start, hit⟩, -, he⟩ := Option.map_eq_some_iff.1 h
  cases he
  have hlen : 0 < cs.length := List.length_pos_iff.2 (List.isEmpty_eq_false_iff.1 hcs)
  have htaken : 0 < hit.place.before.length := by
    have := List.length_pos_iff.2 (List.isEmpty_eq_false_iff.1 htext)
    rw [List.length_drop, List.length_reverse] at this
    omega
  rw [List.length_drop]
  omega

/-- **The tokens of a segment** from a byte on.  A match must start where the one before it ended, and take something. -/
def scanFrom (s : Scanner) (segment start : Nat) (cs : List Char) : Except LexError (List Entry) :=
  if _hcs : cs.isEmpty then .ok []
  else
    match _h : s.next cs with
    | none => .error (.lexical (String.ofList cs) ⟨segment, start, start + Text.byteLength cs⟩)
    | some (before, taken) =>
      let first := start + Text.byteLength before
      let after := first + Text.byteLength taken.text
      let token : Token := ⟨String.ofList taken.text, ⟨segment, first, after⟩⟩
      if !before.isEmpty then .error (.misaligned token start)
      else if _htext : taken.text.isEmpty then .error (.emptyToken token.pos)
      else do
        let entries ← scanFrom s segment after taken.rest
        return if taken.dropped then entries else .token token :: entries
termination_by cs.length
decreasing_by exact length_rest_lt _h (by simpa using _hcs) (by simpa using _htext)

def scanSegments (s : Scanner) (index : Nat) : List String → Except LexError (List Entry)
  | [] => .ok []
  | segment :: segments => do
    let entries ← s.scanFrom index 0 segment.toList
    let more ← scanSegments s (index + 1) segments
    return (if index = 0 then entries else .hole (index - 1) :: entries) ++ more

/-- **Scans a template**: every segment for itself, and one hole between each two. -/
def scan (s : Scanner) (t : Template) : Except LexError TokenList := do
  return ⟨← s.scanSegments 0 t.segments, s.lexicon⟩

def scanText (s : Scanner) (text : String) : Except LexError TokenList := s.scan (.literal text)

end Scanner

end Packrat
