import Packrat.Text.Unprinted
/-!
# Quoted — a text shown in a message

A message shows a text between double quotes, with the characters that would mislead a reader written as escapes:
`\"`, `\\`, `\n`, `\r`, `\t`, `\0`, and every other unprinted character by its number, `\u{...}` in lower-case
hexadecimal without padding.
-/
namespace Packrat.Text

def shownChar (c : Char) : List Char :=
  if c = '"' ∨ c = '\\' then ['\\', c]
  else if c = '\n' then ['\\', 'n']
  else if c = '\r' then ['\\', 'r']
  else if c = '\t' then ['\\', 't']
  else if c = '\x00' then ['\\', '0']
  else if isUnprinted c then ['\\', 'u', '{'] ++ Nat.toDigits 16 c.toNat ++ ['}']
  else [c]

def quoted (text : String) : String :=
  String.ofList ('"' :: text.toList.flatMap shownChar ++ ['"'])

/-- A letter is shown as it is, a zero-width space by its number. -/
example : shownChar 'é' = ['é'] ∧ shownChar '\u200b' = ['\\', 'u', '{', '2', '0', '0', 'b', '}'] := by
  decide +kernel

end Packrat.Text
