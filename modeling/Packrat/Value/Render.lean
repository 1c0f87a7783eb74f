import Packrat.Value.Basic
import Packrat.Template
import Packrat.Decimal.Shortest
import Packrat.Json.Quoted
/-!
# Render — values as text

Values are written in a JSON-like form: strings quoted as JSON quotes them, a list between brackets, a node as the
list of its kind and its fields, a hole as a template shows it.  Numbers are written with the fewest digits that read
back, never with an exponent.
-/
namespace Packrat.Value

/-- **The text of a number**: the shortest digits, written out in full; a zero has no sign. -/
def renderNumber (n : Float) : List Char :=
  if n.isNaN then ['N', 'a', 'N']
  else
    let sign : List Char := if n < 0.0 then ['-'] else []
    let digits : List Char :=
      if n.isInf then ['i', 'n', 'f']
      else if n == 0.0 then ['0']
      else (Binary.ofBits n.toBits).shortest.plain
    sign ++ digits

mutual

def chars : Value → List Char
  | .null => ['n', 'u', 'l', 'l']
  | .bool true => ['t', 'r', 'u', 'e']
  | .bool false => ['f', 'a', 'l', 's', 'e']
  | .number n => renderNumber n
  | .string s => Json.encode s.toList
  | .hole i => (Template.showHole i).toList
  | .list [] => ['[', ']']
  | .list (item :: items) => '[' :: chars item ++ charsAll items ++ [']']
  | .node kind fields => '[' :: Json.encode kind.toList ++ charsAll fields ++ [']']

def charsAll : List Value → List Char
  | [] => []
  | v :: vs => ',' :: chars v ++ charsAll vs

end

def render (v : Value) : String := String.ofList v.chars

end Packrat.Value
