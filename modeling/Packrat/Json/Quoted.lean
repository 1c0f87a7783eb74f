import Packrat.Text.Measure
/-!
# Quoted — JSON strings, written and read

Writing escapes the quote, the backslash and the control characters below U+0020, and nothing else.  Reading accepts
every JSON string, pairs of surrogate escapes included, and says of any other text what is wrong and where: the place
of a fault is the last byte that had to be read to see it.
-/
namespace Packrat.Json

open Text (byteLength)

/-! ## Writing -/

def hexDigit (n : Nat) : Char := if n < 10 then Char.ofNat (48 + n) else Char.ofNat (87 + n)

def encodeChar (c : Char) : List Char :=
  if c = '"' then ['\\', '"']
  else if c = '\\' then ['\\', '\\']
  else if c = '\x08' then ['\\', 'b']
  else if c = '\x0c' then ['\\', 'f']
  else if c = '\n' then ['\\', 'n']
  else if c = '\r' then ['\\', 'r']
  else if c = '\t' then ['\\', 't']
  else if c.toNat < 0x20 then ['\\', 'u', '0', '0', hexDigit (c.toNat / 16), hexDigit (c.toNat % 16)]
  else [c]

def encode (cs : List Char) : List Char := '"' :: cs.flatMap encodeChar ++ ['"']

/-! ## Reading -/

inductive StringFault where
  /-- a character below U+0020 stands unescaped -/
  | controlCharacter
  /-- the escape of a leading surrogate has no `\u` after it -/
  | hexEscapeEnd
  /-- a trailing surrogate comes first, or a leading one is not followed by a trailing one -/
  | loneSurrogate
  /-- the backslash starts no escape, or a `\u` lacks its four digits -/
  | invalidEscape
  /-- the closing quote is missing -/
  | unterminated
  /-- there is more text after the string, or no quote before it -/
  | notAString
  deriving Repr, DecidableEq

def StringFault.message : StringFault → String
  | .controlCharacter => "control character (\\u0000-\\u001F) found while parsing a string"
  | .hexEscapeEnd => "unexpected end of hex escape"
  | .loneSurrogate => "lone leading surrogate in hex escape"
  | .invalidEscape => "invalid escape"
  | .unterminated => "EOF while parsing a string"
  | .notAString => "not a string"

/-- A fault, with the text that starts at the character whose first byte was the last one read. -/
structure FaultAt where
  fault : StringFault
  unread : List Char
  deriving Repr, DecidableEq

def hexValue? (c : Char) : Option Nat :=
  if '0' ≤ c ∧ c ≤ '9' then some (c.toNat - '0'.toNat)
  else if 'a' ≤ c ∧ c ≤ 'f' then some (c.toNat - 'a'.toNat + 10)
  else if 'A' ≤ c ∧ c ≤ 'F' then some (c.toNat - 'A'.toNat + 10)
  else none

def hexUnit? (a b c d : Char) : Option Nat := do
  return ((16 * (← hexValue? a) + (← hexValue? b)) * 16 + (← hexValue? c)) * 16 + (← hexValue? d)

def shortEscape? : Char → Option Char
  | '"' => some '"'
  | '\\' => some '\\'
  | '/' => some '/'
  | 'b' => some '\x08'
  | 'f' => some '\x0c'
  | 'n' => some '\n'
  | 'r' => some '\r'
  | 't' => some '\t'
  | _ => none

def isLeadingSurrogate (n : Nat) : Bool := decide (0xD800 ≤ n) && decide (n ≤ 0xDBFF)

def isTrailingSurrogate (n : Nat) : Bool := decide (0xDC00 ≤ n) && decide (n ≤ 0xDFFF)

def joinSurrogates (lead trail : Nat) : Char :=
  Char.ofNat (0x10000 + (lead - 0xD800) * 0x400 + (trail - 0xDC00))

/-- **The character at the head of the inside of a string**, and the rest: one that stands for itself, or an
escape. -/
def decodeChar : List Char → Except FaultAt (Char × List Char)
  | '\\' :: 'u' :: a :: b :: c :: d :: rest =>
    match hexUnit? a b c d with
    | none => .error ⟨.invalidEscape, d :: rest⟩
    | some lead =>
      if isTrailingSurrogate lead then .error ⟨.loneSurrogate, d :: rest⟩
      else if isLeadingSurrogate lead then
        match rest with
        | '\\' :: 'u' :: a' :: b' :: c' :: d' :: rest' =>
          match hexUnit? a' b' c' d' with
          | none => .error ⟨.invalidEscape, d' :: rest'⟩
          | some trail =>
            if isTrailingSurrogate trail then .ok (joinSurrogates lead trail, rest')
            else .error ⟨.loneSurrogate, d' :: rest'⟩
        | '\\' :: rest' => .error ⟨.hexEscapeEnd, rest'⟩
        | rest' => .error ⟨.hexEscapeEnd, rest'⟩
      else .ok (Char.ofNat lead, rest)
  | '\\' :: e :: rest =>
    match shortEscape? e with
    | some c => .ok (c, rest)
    | none => .error ⟨.invalidEscape, e :: rest⟩
  | c :: rest => if c.toNat < 0x20 then .error ⟨.controlCharacter, c :: rest⟩
    else if c = '\\' then .error ⟨.unterminated, []⟩ else .ok (c, rest)
  | [] => .error ⟨.unterminated, []⟩

/-- The characters up to the closing quote, and the text after it.  Every character takes one place of the text at
least, so the length of the text bounds their number. -/
def decodeChars : Nat → List Char → Except FaultAt (List Char × List Char)
  | _, '"' :: rest => .ok ([], rest)
  | 0, cs => .error ⟨.unterminated, cs⟩
  | fuel + 1, cs => do
    let (c, rest) ← decodeChar cs
    let (more, rest) ← decodeChars fuel rest
    return (c :: more, rest)

def decodePrefix : List Char → Except FaultAt (List Char × List Char)
  | '"' :: cs => decodeChars cs.length cs
  | cs => .error ⟨.notAString, cs⟩

def decode (cs : List Char) : Except FaultAt (List Char) := do
  match ← decodePrefix cs with
  | (text, []) => return text
  | (_, rest) => throw ⟨.notAString, rest⟩

/-! ## Places -/

structure LineColumn where
  line : Nat
  column : Nat
  deriving Repr, DecidableEq

def LineColumn.after (p : LineColumn) : List Char → LineColumn
  | [] => p
  | c :: cs => LineColumn.after (if c = '\n' then ⟨p.line + 1, 0⟩ else ⟨p.line, p.column + c.utf8Size⟩) cs

/-- The place of the last byte read of `whole` when the text from `unread` on has had one byte read. -/
def FaultAt.place (f : FaultAt) (whole : List Char) : LineColumn :=
  let start := LineColumn.after ⟨1, 0⟩ (whole.take (whole.length - f.unread.length))
  match f.unread with
  | [] => start
  | c :: _ => if c = '\n' then ⟨start.line + 1, 0⟩ else ⟨start.line, start.column + 1⟩

def FaultAt.message (f : FaultAt) (whole : List Char) : String :=
  let p := f.place whole
  f.fault.message ++ " at line " ++ toString p.line ++ " column " ++ toString p.column

end Packrat.Json
