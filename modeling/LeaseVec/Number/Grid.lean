/-!
# Binary grids

The non-negative numbers a binary floating format can hold form a grid: with `p` fraction bits the
grid steps by one unit up to `2 ^ (p + 1)` units and then doubles its step at every power of two.
A *code* numbers the grid points from zero upwards, so codes are ordered as the magnitudes are.
`Grid.units` gives the point of a code and `Grid.code` the code nearest to a ratio, a half going
to the even code. Neither knows where a format ends; that is the format's own bound on codes.
-/

namespace LeaseVec.Number

/-- The natural number nearest to `num / den`; a half goes to the even neighbour. -/
def roundHalfEven (num den : Nat) : Nat :=
  let low := num / den
  let rest := num % den
  if 2 * rest < den then low
  else if den < 2 * rest then low + 1
  else if low % 2 = 0 then low else low + 1

namespace Grid

/-- How often the step has doubled at a code. -/
def doublings (p code : Nat) : Nat := code / Nat.pow 2 p - 1

/-- The magnitude of a code, in units of the smallest step. -/
def units (p code : Nat) : Nat :=
  (code - doublings p code * Nat.pow 2 p) * Nat.pow 2 (doublings p code)

/-- The code of the grid point nearest to `num / den` units. -/
def code (p num den : Nat) : Nat :=
  let s := Nat.log2 (num / den) - p
  s * Nat.pow 2 p + roundHalfEven num (den * Nat.pow 2 s)

/-- Up to the first doubling a code is its own magnitude. -/
theorem units_of_lt {p c : Nat} (h : c < 2 * Nat.pow 2 p) : units p c = c := by
  have hp : 0 < Nat.pow 2 p := Nat.pow_pos (by decide)
  have hq : c / Nat.pow 2 p < 2 := (Nat.div_lt_iff_lt_mul hp).2 h
  have hd : doublings p c = 0 := by unfold doublings; omega
  rw [units, hd, Nat.zero_mul]
  exact Nat.mul_one c

end Grid

end LeaseVec.Number
