import LeaseVec.Number.Grid

/-!
# Double-precision numbers

`Binary64` is the set of double-precision values: one NaN, two infinities, and for each sign the
finite magnitudes, numbered by their codes on the grid with 52 fraction bits. Two equal values are
two equal terms, apart from the two zeros, which differ in their sign. Every finite magnitude is a
whole number of units of `2 ^ -1074`, so `scaled?` is exact integer arithmetic on all of them.
-/

namespace LeaseVec.Number

/-- A double-precision value. -/
inductive Binary64 where
  | nan
  | infinite (negative : Bool)
  | finite (negative : Bool) (code : Fin 9218868437227405312)
  deriving DecidableEq, Inhabited

namespace Binary64

/-- The first code past the finite magnitudes: 2047 binades of `2 ^ 52` codes. -/
def codeBound : Nat := 9218868437227405312

/-- The number of smallest steps in one. -/
def one : Nat := Nat.pow 2 1074

/-- The sign in a 64-bit pattern. -/
def signBit : Nat := 0x8000000000000000

/-- The value with a given code, or the infinity when the code is past the finite ones. -/
def ofCode (negative : Bool) (code : Nat) : Binary64 :=
  if h : code < codeBound then finite negative ⟨code, h⟩ else infinite negative

def zero : Binary64 := finite false 0

def negativeZero : Binary64 := finite true 0

/-- The value nearest to `num / den` smallest steps. -/
def ofUnits (negative : Bool) (num den : Nat) : Binary64 :=
  ofCode negative (Grid.code 52 num den)

/-- The value nearest to `num / den`. -/
def ofRatio (negative : Bool) (num den : Nat) : Binary64 :=
  ofUnits negative (num * one) den

/-- The value nearest to a natural number. -/
def ofNat (n : Nat) : Binary64 := ofRatio false n 1

/-- The value nearest to an integer. -/
def ofInt (i : Int) : Binary64 := ofRatio (decide (i < 0)) i.natAbs 1

instance (n : Nat) : OfNat Binary64 n := ⟨ofNat n⟩

/-- The value of a 64-bit pattern; every NaN pattern is the one NaN. -/
def ofBits (bits : Nat) : Binary64 :=
  let negative := decide (bits / signBit % 2 = 1)
  let magnitude := bits % signBit
  if codeBound < magnitude then nan else ofCode negative magnitude

/-- The 64-bit pattern of a value; NaN has the quiet pattern without payload. -/
def toBits : Binary64 → Nat
  | nan => 0x7ff8000000000000
  | infinite negative => (if negative then signBit else 0) + codeBound
  | finite negative code => (if negative then signBit else 0) + code.val

def isNaN : Binary64 → Bool
  | nan => true
  | _ => false

def isFinite : Binary64 → Bool
  | finite _ _ => true
  | _ => false

/-- The zeros of both signs. -/
def isZero : Binary64 → Bool
  | finite _ code => code.val = 0
  | _ => false

/-- The exact value in smallest steps, for the finite values. -/
def scaled? : Binary64 → Option Int
  | finite negative code =>
    let magnitude : Int := Grid.units 52 code.val
    some (if negative then -magnitude else magnitude)
  | _ => none

/-- The finite part rounded toward zero. -/
def truncate? (x : Binary64) : Option Int :=
  x.scaled?.map fun s => s.tdiv one

/-- The integer a value is, if it is one. -/
def toInt? (x : Binary64) : Option Int :=
  x.scaled?.bind fun s => if s % one = 0 then some (s / one) else none

/-- The natural number a value is, if it is one; negative zero is zero. -/
def toNat? (x : Binary64) : Option Nat :=
  x.toInt?.bind fun i => if 0 ≤ i then some i.toNat else none

/-- The truncated value modulo `2 ^ bits`; NaN and the infinities count as zero. -/
def wrap (bits : Nat) (x : Binary64) : Nat :=
  ((x.truncate?.getD 0) % (Nat.pow 2 bits : Int)).toNat

/-- The bound below which doubles tell neighbouring integers apart, `2 ^ 53`. -/
def exactBound : Nat := 0x20000000000000

/-- The truncated value as a length or offset: not negative and below `2 ^ 53`. NaN counts as
zero. -/
def toIndex? : Binary64 → Option Nat
  | infinite _ => none
  | x =>
    let i := x.truncate?.getD 0
    if 0 ≤ i ∧ i < exactBound then some i.toNat else none

end Binary64

end LeaseVec.Number
