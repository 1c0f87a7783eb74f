import Packrat.Value.Basic
import Packrat.Json.Number
import Packrat.Json.Quoted
/-!
# Literal — data read from JSON text

The text of one JSON scalar, with JSON white space around it, is read as plain data.  Arrays, objects and everything
that is not JSON are no literals.
-/
namespace Packrat.Value

def isJsonBlank (c : Char) : Bool := c == ' ' || c == '\t' || c == '\n' || c == '\r'

def readScalar : List Char → Option (Value × List Char)
  | 'n' :: 'u' :: 'l' :: 'l' :: rest => some (.null, rest)
  | 't' :: 'r' :: 'u' :: 'e' :: rest => some (.bool true, rest)
  | 'f' :: 'a' :: 'l' :: 's' :: 'e' :: rest => some (.bool false, rest)
  | '"' :: rest =>
    match Json.decodePrefix ('"' :: rest) with
    | .ok (text, rest) => some (.string (String.ofList text), rest)
    | .error _ => none
  | cs => do
    let (n, rest) ← Json.readNumber cs
    return (.number (← n.toFloat?), rest)

/-- **The data that a JSON text stands for**, if it is a scalar. -/
def ofJson? (text : String) : Option Value := do
  let (v, rest) ← readScalar (text.toList.dropWhile isJsonBlank)
  if rest.all isJsonBlank then some v else none

end Packrat.Value
