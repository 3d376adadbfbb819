import LeaseVec.Number.Binary64

/-!
# Single-precision words

A single-precision value is handled as its 32-bit pattern only. Narrowing rounds a double to the
nearest single, a half to even; widening is exact. A NaN keeps its sign and the leading bits of its
payload in both directions and becomes quiet, so a pattern that came in as bytes can be followed.
-/

namespace LeaseVec.Number.Binary32

/-- The first code past the finite magnitudes: 255 binades of `2 ^ 23` codes. -/
def codeBound : Nat := 2139095040

/-- The number of double-precision steps in one single-precision step. -/
def step : Nat := Nat.pow 2 925

/-- The sign in a 32-bit pattern. -/
def signBit : Nat := 0x80000000

/-- The 32-bit pattern nearest to a double. -/
def ofBinary64 : Binary64 → Nat
  | .nan => 0x7fc00000
  | .infinite negative => (if negative then signBit else 0) + codeBound
  | .finite negative code =>
    (if negative then signBit else 0) +
      min codeBound (Grid.code 23 (Grid.units 52 code.val) step)

/-- The double with the value of a 32-bit pattern. -/
def toBinary64 (bits : Nat) : Binary64 :=
  let negative := decide (bits / signBit % 2 = 1)
  let magnitude := bits % signBit
  if codeBound < magnitude then .nan
  else if magnitude = codeBound then .infinite negative
  else Binary64.ofUnits negative (Grid.units 23 magnitude * step) 1

/-- The largest finite single-precision value. -/
def largest : Binary64 := toBinary64 (codeBound - 1)

/-- Widening of patterns; a NaN is made quiet and keeps its payload in the leading bits. -/
def widenBits (bits : Nat) : Nat :=
  let magnitude := bits % signBit
  if codeBound < magnitude then
    bits / signBit % 2 * Binary64.signBit + 0x7ff8000000000000 + magnitude % 0x400000 * 0x20000000
  else (toBinary64 bits).toBits

/-- Narrowing of patterns; a NaN is made quiet and keeps the leading bits of its payload. -/
def narrowBits (bits : Nat) : Nat :=
  let magnitude := bits % Binary64.signBit
  if Binary64.codeBound < magnitude then
    bits / Binary64.signBit % 2 * signBit + 0x7fc00000 + magnitude / 0x20000000 % 0x400000
  else ofBinary64 (Binary64.ofBits bits)

end LeaseVec.Number.Binary32
