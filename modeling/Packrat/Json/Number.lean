import Packrat.Text.Numeral
/-!
# Number — JSON numbers and the floats that they are read as

A JSON number is an optional minus, an integer part without leading zeros, an optional fraction and an optional
exponent.  Its digits are kept in a significand of 64 bits for as long as they fit, and then only move the exponent.
The significand as a float is multiplied with a power of ten or divided by one.  That is not one rounding but several:
the float that is read need not be the nearest one, and next to the largest float some numbers are refused that would
round to it and some are taken that would not.

The exponent is an integer of any size.  Kept in 32 bits it would differ for texts of gigabytes only.
-/
namespace Packrat.Json

open Text (digitsValue)

/-- A number as it is kept: `significand · 10^exponent`, or minus that. -/
structure NumberText where
  negative : Bool
  significand : UInt64
  exponent : Int
  deriving Repr, DecidableEq

/-! ## Digits -/

/-- The significand with the digits up to the first that 64 bits have no room for, and the digits from there on. -/
def keepDigits (significand : UInt64) : List Char → UInt64 × List Char
  | [] => (significand, [])
  | d :: ds =>
    let n := Text.pushDigit significand.toNat d
    if n < UInt64.size then keepDigits (.ofNat n) ds else (significand, d :: ds)

/-- **The number with these digits before and behind the point**, and this exponent.  A digit of the integer part that
does not fit stands for a zero; in the fraction it is dropped. -/
def NumberText.ofDigits (negative : Bool) (whole fraction : List Char) (exponent : Int) : NumberText :=
  let (significand, zeros) := keepDigits 0 whole
  let (significand, dropped) := keepDigits significand fraction
  ⟨negative, significand, exponent + zeros.length + dropped.length - fraction.length⟩

/-! ## The parts of the text -/

def spanDigits (cs : List Char) : List Char × List Char := cs.span Char.isDigit

def readInteger (cs : List Char) : Option (List Char × List Char) :=
  match spanDigits cs with
  | ([], _) => none
  | (['0'], rest) => some (['0'], rest)
  | ('0' :: _ :: _, _) => none
  | (ds, rest) => some (ds, rest)

def readFraction : List Char → Option (List Char × List Char)
  | '.' :: cs =>
    match spanDigits cs with
    | ([], _) => none
    | (ds, rest) => some (ds, rest)
  | cs => some ([], cs)

def readExponent : List Char → Option (Int × List Char)
  | [] => some (0, [])
  | c :: cs =>
    if c = 'e' ∨ c = 'E' then
      let (negative, cs) := match cs with
        | '-' :: r => (true, r)
        | '+' :: r => (false, r)
        | r => (false, r)
      match spanDigits cs with
      | ([], _) => none
      | (ds, rest) => some (if negative then -(digitsValue ds : Int) else digitsValue ds, rest)
    else some (0, c :: cs)

def readNumber (cs : List Char) : Option (NumberText × List Char) := do
  let (negative, cs) := match cs with
    | '-' :: r => (true, r)
    | r => (false, r)
  let (whole, cs) ← readInteger cs
  let (fraction, cs) ← readFraction cs
  let (exponent, cs) ← readExponent cs
  return (.ofDigits negative whole fraction exponent, cs)

/-! ## The float -/

def powerOfTen (k : Nat) : Float := Float.ofScientific 1 false k

/-- **The float times a power of ten**; `none` if that is too large.  The powers end at `1e308`: what is further out is
divided by that one again and again, until it is in the range or a zero. -/
def scale (f : Float) (exponent : Int) : Option Float :=
  if exponent.natAbs ≤ 308 then
    if 0 ≤ exponent then
      let x := f * powerOfTen exponent.natAbs
      if x.isInf then none else some x
    else some (f / powerOfTen exponent.natAbs)
  else if f == 0.0 then some f
  else if 0 ≤ exponent then none
  else scale (f / powerOfTen 308) (exponent + 308)
termination_by exponent.natAbs

/-- **The float that the number is read as**; a zero keeps its sign. -/
def NumberText.toFloat? (n : NumberText) : Option Float :=
  (scale n.significand.toFloat n.exponent).map fun x => if n.negative then -x else x

end Packrat.Json
