import LeaseVec.Number.Shortest

/-!
# Decimal text of doubles

Writing uses the shortest digits, positionally for magnitudes from `1e-6` up to but not including
`1e21`, and with an exponent otherwise; negative zero is written as zero. Reading rounds the exact
decimal once, to the nearest double.
-/

namespace LeaseVec.Number

namespace Decimal

/-- Where positional notation ends, as the place of the leading digit. -/
structure Layout where
  /-- The highest leading place written positionally. -/
  highest : Int
  /-- The lowest leading place written positionally. -/
  lowest : Int

/-- Numbers are positional up to 21 digits before the point and six places after it. -/
def layout : Layout := ⟨21, -5⟩

def zeros (n : Nat) : List Char := List.replicate n '0'

/-- The text of a positive decimal. -/
def render (form : Layout) (d : Shortest.Decimal) : List Char :=
  let digits := (toString d.digits).toList
  let count := digits.length
  let place : Int := count + d.exponent
  if form.lowest ≤ place ∧ place ≤ form.highest then
    if (count : Int) ≤ place then digits ++ zeros (place - count).toNat
    else if 0 < place then digits.take place.toNat ++ '.' :: digits.drop place.toNat
    else '0' :: '.' :: (zeros (-place).toNat ++ digits)
  else
    let exponent := place - 1
    let mantissa :=
      match digits with
      | [] => []
      | [d] => [d]
      | d :: rest => d :: '.' :: rest
    let mark := if 0 ≤ exponent then '+' else '-'
    mantissa ++ 'e' :: mark :: (toString exponent.natAbs).toList

end Decimal

namespace Binary64

/-- The text of a number. -/
def render : Binary64 → String
  | nan => "NaN"
  | infinite negative => if negative then "-Infinity" else "Infinity"
  | finite negative code =>
    if code.val = 0 then "0"
    else
      let body := Decimal.render Decimal.layout (Shortest.ofCode code.val)
      String.ofList (if negative then '-' :: body else body)

/-- The double nearest to `digits * 10 ^ exponent`. Exponents far outside the range are settled
without forming the power. -/
def ofDecimal (negative : Bool) (digits : Nat) (exponent : Int) : Binary64 :=
  let place := (Shortest.digitCount digits : Int) + exponent
  if digits = 0 ∨ place < -330 then ofCode negative 0
  else if 330 < place then infinite negative
  else if 0 ≤ exponent then ofRatio negative (digits * Nat.pow 10 exponent.toNat) 1
  else ofRatio negative digits (Nat.pow 10 (-exponent).toNat)

end Binary64

end LeaseVec.Number
