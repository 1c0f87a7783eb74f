/-!
# Ranges — sets of code points as closed ranges

A property of characters is carried as a short ascending list of ranges; membership is one search.
-/
namespace Packrat.Text

def inRanges (ranges : List (Nat × Nat)) (n : Nat) : Bool :=
  ranges.any fun r => decide (r.1 ≤ n) && decide (n ≤ r.2)

end Packrat.Text
