import LeaseVec.Scalar.Kind
import LeaseVec.Scalar.Word
import LeaseVec.Number.Arithmetic
import LeaseVec.Number.Binary32
import LeaseVec.Number.Decimal

/-!
# Scalars and their stored form

A scalar is a number, which is a double, or an exact integer. A kind admits one sort of scalars. Storing
one converts it: numbers are truncated toward zero and wrapped to the element's size, NaN and the
infinities becoming zero; single precision rounds to nearest even; exact integers are wrapped. Copying between
elements of one kind moves the word as it is, so a NaN keeps its payload.
-/

namespace LeaseVec

open Number

inductive Scalar where
  | number (value : Binary64)
  | integer (value : Int)
  deriving DecidableEq, Inhabited

namespace Scalar

/-- The text of a scalar. -/
def render : Scalar → String
  | number x => x.render
  | integer i => toString i

/-- Whether a scalar equals zero; negative zero does. -/
def isZero : Scalar → Bool
  | number x => x.isZero
  | integer i => i = 0

end Scalar

namespace Kind

/-- The zero of a kind. -/
def zero (k : Kind) : Scalar :=
  if k.isWide then .integer 0 else .number Binary64.zero

/-- Whether elements of a kind can be set to a scalar: exact integers go with the eight-byte integers and
numbers with every other kind, and neither is ever converted into the other. -/
def admits (k : Kind) : Scalar → Bool
  | .number _ => !k.isWide
  | .integer _ => k.isWide

/-- Whether elements of one kind can be copied into elements of another. -/
def sameSort (source target : Kind) : Bool := source.isWide == target.isWide

/-- The word that stores a scalar which the kind admits. -/
def store (k : Kind) (x : Scalar) : Nat :=
  match k, x with
  | f32, .number x => Binary32.ofBinary64 x
  | f64, .number x => x.toBits
  | k, .number x => x.wrap (8 * k.width)
  | k, .integer i => (i % (Nat.pow 2 (8 * k.width) : Int)).toNat

/-- The scalar that a word stores. -/
def load (k : Kind) (word : Nat) : Scalar :=
  match k with
  | f32 => .number (Binary32.toBinary64 word)
  | f64 => .number (Binary64.ofBits word)
  | u64 => .integer word
  | i64 => .integer (Word.toSigned 64 word)
  | i8 | i16 | i32 => .number (Binary64.ofInt (Word.toSigned (8 * k.width) word))
  | u8 | u16 | u32 => .number (Binary64.ofNat word)

/-- The word of an element copied into an element of another kind of the same sort. -/
def convert (source target : Kind) (word : Nat) : Nat :=
  if source = target then word
  else
    match source, target with
    | f32, f64 => Binary32.widenBits word
    | f64, f32 => Binary32.narrowBits word
    | _, _ => target.store (source.load word)

/-- Whether a byte offset is a multiple of the element size. -/
def isAligned (k : Kind) (offset : Nat) : Bool := offset % k.width = 0

/-- Whether a byte offset given as a double is a multiple of the element size. -/
def dividesOffset (k : Kind) (offset : Binary64) : Bool :=
  (offset % Binary64.ofNat k.width).isZero

@[simp] theorem convert_self (k : Kind) (word : Nat) : convert k k word = word := by
  simp [convert]

end Kind

end LeaseVec
