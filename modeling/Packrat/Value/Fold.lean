import Packrat.Value.Visit
/-!
# Fold — chains of binary operators

The usual rule for a chain of left-associative operators, `expr ::= term (op term)*`, gives a first operand and a list
of pairs of operator and operand.  Folding them gives the tree that leans to the left.
-/
namespace Packrat.Value

def foldPair (left : Value) : Value → Except Panic Value
  | .list [.string op, right] => .ok (.node op [left, right])
  | .list [op, _] => .error (.operatorExpected op)
  | .list items => .error (.operandPairLength items.length)
  | pair => .error (.operandPairExpected pair)

/-- **The tree that leans to the left** over the operand and the pairs; the first malformed pair panics. -/
def foldBinary (left : Value) : List Value → Except Panic Value
  | [] => .ok left
  | pair :: pairs => do foldBinary (← foldPair left pair) pairs

end Packrat.Value
