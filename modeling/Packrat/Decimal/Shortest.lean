/-!
# Shortest — the fewest digits that read back

A finite binary number `m · 2^q` stands for all reals that round to it.  The shortest decimal of it is found by trying
the grids of one, two, … seventeen significant digits: the first grid with a point in that interval wins, and of two
such points the nearer one, the upper one on a tie.  All comparisons are exact, by cross multiplication of naturals.
-/
namespace Packrat

/-- A positive binary number `mantissa · 2^exponent`, with the shape of the interval that rounds to it. -/
structure Binary where
  mantissa : Nat
  exponent : Int
  /-- the gap to the number below is half the gap to the number above -/
  narrowBelow : Bool
  deriving Repr, DecidableEq

/-- The absolute value of the finite number with these bits. -/
def Binary.ofBits (bits : UInt64) : Binary :=
  let exponentField := ((bits >>> 52) &&& 0x7FF).toNat
  let fraction := (bits &&& 0xFFFFFFFFFFFFF).toNat
  if exponentField = 0 then ⟨fraction, -1074, false⟩
  else ⟨Nat.pow 2 52 + fraction, (exponentField : Int) - 1075, fraction == 0 && decide (1 < exponentField)⟩

structure Decimal where
  digits : Nat
  exponent : Int
  deriving Repr, DecidableEq

def Decimal.compareScaled (a : Nat) (i : Int) (n : Nat) (j : Int) : Ordering :=
  compare (a * Nat.pow 10 i.toNat * Nat.pow 2 (-j).toNat) (n * Nat.pow 2 j.toNat * Nat.pow 10 (-i).toNat)

/-- **The decimal lies among the reals that round to the number**: between the halfway points to its two neighbours,
these included exactly when the mantissa is even. -/
def Binary.readsBack (x : Binary) (d : Decimal) : Bool :=
  let low := if x.narrowBelow then 4 * x.mantissa - 1 else 4 * x.mantissa - 2
  let high := 4 * x.mantissa + 2
  let ends := x.mantissa % 2 == 0
  let atLow := Decimal.compareScaled d.digits d.exponent low (x.exponent - 2)
  let atHigh := Decimal.compareScaled d.digits d.exponent high (x.exponent - 2)
  (atLow == .gt || (ends && atLow == .eq)) && (atHigh == .lt || (ends && atHigh == .eq))

def Binary.fraction (x : Binary) : Nat × Nat :=
  (x.mantissa * Nat.pow 2 x.exponent.toNat, Nat.pow 2 (-x.exponent).toNat)

/-- The least `k` with the value below `10^k`: the estimate from the lengths of numerator and denominator is right or
one too small. -/
def Binary.scale (x : Binary) : Int :=
  let (num, den) := x.fraction
  let k : Int := ((Nat.toDigits 10 num).length : Int) - (Nat.toDigits 10 den).length
  if num * Nat.pow 10 (-k).toNat < den * Nat.pow 10 k.toNat then k else k + 1

/-- The whole multiples of `10^e` that the value contains. -/
def Binary.floorAt (x : Binary) (e : Int) : Nat :=
  let (num, den) := x.fraction
  (num * Nat.pow 10 (-e).toNat) / (den * Nat.pow 10 e.toNat)

/-- The point of the grid `10^e` that stands for the value, if one does: the nearer of its two neighbours there, the
upper one on a tie. -/
def Binary.onGrid (x : Binary) (e : Int) : Option Decimal :=
  let below : Decimal := ⟨x.floorAt e, e⟩
  let above : Decimal := ⟨x.floorAt e + 1, e⟩
  match x.readsBack below, x.readsBack above with
  | true, true =>
    -- the value is nearer to `below` exactly when it is under the middle of the two
    if Decimal.compareScaled (2 * below.digits + 1) e (2 * x.mantissa) x.exponent == .gt then some below else some above
  | true, false => some below
  | false, true => some above
  | false, false => none

def Decimal.strip (d : Decimal) : Nat → Decimal
  | 0 => d
  | fuel + 1 =>
    if d.digits ≠ 0 ∧ d.digits % 10 = 0 then Decimal.strip ⟨d.digits / 10, d.exponent + 1⟩ fuel else d

/-- **The shortest decimal that reads back**, without zeros at its end.  Seventeen digits always suffice; the exact
value stands behind them. -/
def Binary.shortest (x : Binary) : Decimal :=
  let found := (List.range 17).findSome? fun n => x.onGrid (x.scale - (Int.ofNat n + 1))
  let exact : Decimal :=
    ⟨x.mantissa * Nat.pow 2 x.exponent.toNat * Nat.pow 5 (-x.exponent).toNat, -((-x.exponent).toNat : Int)⟩
  let d := found.getD exact
  d.strip (Nat.toDigits 10 d.digits).length

/-- One tenth, the middle between two decimals of seventeen digits, and the least positive number. -/
example : (Binary.ofBits 0x3FB999999999999A).shortest = ⟨1, -1⟩ ∧
    (Binary.ofBits 0x3E60000000000000).shortest = ⟨29802322387695313, -24⟩ ∧
    (Binary.ofBits 1).shortest = ⟨5, -324⟩ := by
  decide +kernel

/-- **A decimal written out without an exponent**: zeros fill the places down to the point, and nothing follows a
whole number. -/
def Decimal.plain (d : Decimal) : List Char :=
  let ds := Nat.toDigits 10 d.digits
  let places := (-d.exponent).toNat
  if places = 0 then ds ++ List.replicate d.exponent.toNat '0'
  else
    let padded := List.replicate (places + 1 - ds.length) '0' ++ ds
    padded.take (padded.length - places) ++ '.' :: padded.drop (padded.length - places)

end Packrat
