/-!
# Numeral — the value of written digits
-/
namespace Packrat.Text

def pushDigit (n : Nat) (digit : Char) : Nat := 10 * n + (digit.toNat - '0'.toNat)

def digitsValue (ds : List Char) : Nat := ds.foldl pushDigit 0

end Packrat.Text
