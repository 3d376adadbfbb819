import LeaseVec.World.Stream

/-!
# Length-prefixed fields

A field is a 64-bit count followed by `count * stride` elements. A reader that may borrow attaches
the vector to the elements where they are, if they are aligned for their kind; in every other case
the vector gets a slice of them, which of plain bytes is a copy. Both ways move the reader past the same
bytes.
-/

namespace LeaseVec

open Number

/-- Counts at or above this, `2 ^ 40`, are corrupt. -/
def countCeiling : Nat := 0x10000000000

/-- The stride of fields whose elements come in groups of four. -/
def groupStride : Nat := 4

/-- How fields are read: whether they may stay in place, and a lower bound for corrupt counts. -/
structure ReadPolicy where
  inPlace : Bool := true
  bound : Option Scalar := none

/-- The integer that a bound stands for. -/
def Scalar.whole : Scalar → Except Fault Int
  | .integer i => .ok i
  | .number x =>
    match x.toInt? with
    | some i => .ok i
    | none => .error .notWhole

/-- The first count that is corrupt under a bound, which lowers the ceiling and never raises it. -/
def corruptFrom : Option Scalar → Except Fault Int
  | none => .ok countCeiling
  | some bound =>
    match bound.whole with
    | .ok i => .ok (min i countCeiling)
    | .error e => .error e

/-- A count has to lie in `[0, limit)`. -/
def acceptCount (count limit : Int) : Except Fault Nat :=
  if count < 0 ∨ limit ≤ count then .error (.countTooLarge count limit) else .ok count.toNat

/-- A stride has to be a positive whole number. -/
def acceptStride (stride : Binary64) : Except Fault Nat :=
  match stride.toNat? with
  | some s => if 1 ≤ s then .ok s else .error (.invalidStride stride)
  | none => .error (.invalidStride stride)

/-- The count in front of a field's elements. -/
def Scan.count (bound : Option Scalar) : Scan Nat := do
  let count ← Scan.u64
  Scan.ofExcept do acceptCount count (← corruptFrom bound)

/-- The bytes of `count * stride` elements, by products of doubles. -/
def spanLength (kind : Kind) (stride : Binary64) (count : Nat) : Binary64 :=
  Binary64.ofNat count * stride * Binary64.ofNat kind.width

/-- Where the elements of a field are: their start, and how many bytes they take. -/
def Scan.field (kind : Kind) (stride : Binary64) (bound : Option Scalar) : Scan (Nat × Nat) := do
  let count ← Scan.count bound
  let span := spanLength kind stride count
  let start ← Scan.skipLength span
  return (start, span.toNat?.getD 0)

namespace World

/-- Give a vector a slice of a range as its owned storage, whatever it held before. A slice that stays in
its place may be at no multiple of the element size, and then it is refused. -/
def adoptCopy (vec : Nat) (r : ByteRange) : Action Unit := do
  let kind := ((← get).vec vec).kind
  let copy ← slice r
  if !kind.isAligned copy.offset then throw .viewRefused
  let count := r.length / kind.width
  modify fun w => w.setHolding vec (.owned ⟨kind, copy.buffer, copy.offset, count, count, false⟩)

/-- Give a vector the elements in a range: in place when a region lends them and they are aligned, or
else as a slice of its own. -/
def takeElements (vec : Nat) (r : ByteRange) (lender : Option Nat) (inPlace : Bool) :
    Action Unit := do
  let kind := ((← get).vec vec).kind
  match lender with
  | none => adoptCopy vec r
  | some region =>
    if inPlace && kind.isAligned r.offset then
      let elements ← view kind r.buffer (Binary64.ofNat r.offset)
        (some (Binary64.ofNat (r.length / kind.width)))
      attach vec elements region
    else adoptCopy vec r

/-- Read a field into a vector; the answer is the mode that the vector ends in. -/
def readField (reader vec : Nat) (stride : Binary64) (policy : ReadPolicy) : Action Mode := do
  let _ ← Action.ofExcept (acceptStride stride)
  let kind := ((← get).vec vec).kind
  let (start, span) ← scan reader (Scan.field kind stride policy.bound)
  let r := (← get).reader reader
  takeElements vec (r.source.sub start span) r.lender policy.inPlace
  return ((← get).vec vec).mode

/-- Write a vector as a field. The elements are pushed in place and not copied. -/
def writeField (w : World) (v : Vec) (stride : Binary64) (writer : Writer) :
    Except Fault Writer := do
  let s ← acceptStride stride
  if v.size % s ≠ 0 then throw (.unevenStride v.size stride)
  let view ← w.viewOf v
  return (writer.push64 (v.size / s : Nat)).pushPart (.shared view.range)

end World

end LeaseVec
