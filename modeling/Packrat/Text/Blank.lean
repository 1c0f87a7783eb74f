import Packrat.Text.Ranges
/-!
# Blank — white space

The property White_Space: 25 characters in 10 ranges.  The scanner drops runs of them, and a count or a number given
as text is read with the blanks around it taken off.
-/
namespace Packrat.Text

def blankRanges : List (Nat × Nat) :=
  [(0x09, 0x0D), (0x20, 0x20), (0x85, 0x85), (0xA0, 0xA0), (0x1680, 0x1680), (0x2000, 0x200A),
   (0x2028, 0x2029), (0x202F, 0x202F), (0x205F, 0x205F), (0x3000, 0x3000)]

def isBlank (c : Char) : Bool := inRanges blankRanges c.toNat

example : (blankRanges.map fun r => r.2 + 1 - r.1).sum = 25 := by decide

def trimBlanks (cs : List Char) : List Char :=
  ((cs.dropWhile isBlank).reverse.dropWhile isBlank).reverse

end Packrat.Text
