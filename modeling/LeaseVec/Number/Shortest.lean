import LeaseVec.Number.Binary64

/-!
# Shortest decimals

The decimal digits of a positive finite double: the fewest digits that read back as the value, and
of the candidates with that many digits the one nearest to the value, the even one where two are as
near. A decimal reads back when it lies between the midpoints to the two neighbouring values, the
midpoints included when the value's own code is even. For each length only the two grid points
around the value are tried, which is enough: when any point of a decimal grid reads back, so does
one of these two.
-/

namespace LeaseVec.Number.Shortest

/-- A positive decimal `digits * 10 ^ exponent`. -/
structure Decimal where
  digits : Nat
  exponent : Int
  deriving DecidableEq, Repr

/-- Twice the lower end of the interval that rounds to a code, in smallest steps. -/
def twiceLow (code : Nat) : Nat := Grid.units 52 (code - 1) + Grid.units 52 code

/-- Twice the upper end of the interval that rounds to a code, in smallest steps. -/
def twiceHigh (code : Nat) : Nat := Grid.units 52 code + Grid.units 52 (code + 1)

/-- Whether `num / den` reads back as the value of a code. -/
def readsBack (code num den : Nat) : Bool :=
  let twice := 2 * num * Binary64.one
  let low := twiceLow code * den
  let high := twiceHigh code * den
  if code % 2 = 0 then low ≤ twice && twice ≤ high else low < twice && twice < high

/-- A power of ten as a ratio. -/
def tenPower (e : Int) : Nat × Nat :=
  if 0 ≤ e then (Nat.pow 10 e.toNat, 1) else (1, Nat.pow 10 (-e).toNat)

/-- The nearer of the two points around the value on the grid of `10 ^ e` that reads back. -/
def onGrid? (code : Nat) (e : Int) : Option Decimal :=
  let (up, down) := tenPower e
  -- the value over `10 ^ e` is `num / den`
  let num := Grid.units 52 code * down
  let den := Binary64.one * up
  let low := num / den
  let rest := num % den
  let lowFits := readsBack code (low * up) down
  let highFits := readsBack code ((low + 1) * up) down
  let lowNearer := 2 * rest < den || (2 * rest = den && low % 2 = 0)
  if lowFits && (!highFits || lowNearer) then some ⟨low, e⟩
  else if highFits then some ⟨low + 1, e⟩
  else none

/-- The number of decimal digits of a natural number; zero has none. -/
def digitCount (n : Nat) : Nat := if n = 0 then 0 else (Nat.toDigits 10 n).length

/-- The place of the leading digit: `10 ^ place` is the first power of ten above the value. -/
def leadingPlace (code : Nat) : Int :=
  let u := Grid.units 52 code
  if Binary64.one ≤ u then digitCount (u / Binary64.one)
  else
    -- the least number of tenfold steps that brings the value to one or more
    let steps := digitCount (Binary64.one / u)
    let short := if u * Nat.pow 10 (steps - 1) < Binary64.one then steps else steps - 1
    1 - (short : Int)

/-- Try the grids from the coarsest on. -/
def search (code : Nat) (place : Int) : Nat → Nat → Option Decimal
  | 0, _ => none
  | fuel + 1, length =>
    match onGrid? code (place - length) with
    | some d => some d
    | none => search code place fuel (length + 1)

/-- Drop the zeros at the end of the digits. -/
def strip : Nat → Decimal → Decimal
  | 0, d => d
  | fuel + 1, d =>
    if d.digits % 10 = 0 && d.digits != 0 then strip fuel ⟨d.digits / 10, d.exponent + 1⟩ else d

/-- The shortest decimal of a non-zero code. Seventeen digits always read back. -/
def ofCode (code : Nat) : Decimal :=
  strip 20 ((search code (leadingPlace code) 17 1).getD ⟨0, 0⟩)

end LeaseVec.Number.Shortest
