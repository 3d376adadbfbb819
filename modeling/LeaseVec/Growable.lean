import LeaseVec.Memory.View

/-!
# Growable arrays

A growable array has room for `capacity` elements in a buffer, of which the first `length` are its
elements and the rest is spare. Capacity doubles when more room is needed and never shrinks. An operation
that fails leaves the array and memory as they were.
-/

namespace LeaseVec

open Number

structure Growable where
  kind : Kind
  buffer : Nat
  /-- In bytes, from the start of the buffer. -/
  offset : Nat
  capacity : Nat
  length : Nat
  /-- Whether the length was last given as negative zero, which only a division of it can show. -/
  signedZero : Bool
  deriving DecidableEq, Inhabited

/-- The length that a double gives: a whole number that is not negative. -/
def lengthOf? (n : Binary64) : Option Nat := n.toNat?

/-- Whether there are elements to fill when something of a size gets a length. -/
def fills (size : Nat) (length : Binary64) : Bool :=
  match lengthOf? length with
  | some n => size < n
  | none => false

/-- The first of `capacity`, `2 * capacity`, `4 * capacity`, … that is at least `need`. -/
def doubledTo (capacity need : Nat) : Nat :=
  if 0 < capacity ∧ capacity < need then doubledTo (2 * capacity) need else capacity
termination_by need - capacity

namespace Growable

/-- The elements and what is spare as a view. -/
def slots (a : Growable) : View := ⟨a.kind, a.buffer, a.offset, a.capacity, 0⟩

/-- The elements as a view with a given serial number. -/
def data (a : Growable) (serial : Nat) : View := ⟨a.kind, a.buffer, a.offset, a.length, serial⟩

/-- The elements. -/
def toList (m : Memory) (a : Growable) : List Scalar := m.elements (a.data 0)

/-- The length as a double. -/
def size (a : Growable) : Binary64 :=
  if a.signedZero then Binary64.negativeZero else Binary64.ofNat a.length

/-- A new array whose capacity is the number of the given words. -/
def ofWords (m : Memory) (kind : Kind) (words : List Nat) : Growable × Memory :=
  let (r, m) := m.alloc (Word.concat kind.width words)
  (⟨kind, r.buffer, 0, words.length, words.length, false⟩, m)

/-- A new array holding values that a kind admits, converted to it. -/
def ofList (m : Memory) (kind : Kind) (values : List Scalar) : Growable × Memory :=
  ofWords m kind (values.map kind.store)

/-- A new array holding the elements of a view converted to a kind of the same sort. -/
def ofView (m : Memory) (kind : Kind) (v : View) : Growable × Memory :=
  ofWords m kind (m.wordsAs v kind)

/-- A new array of a given length. A fill value that equals zero is not written. -/
def create (m : Memory) (kind : Kind) (length : Binary64) (fill : Option Scalar) :
    Except Fault (Growable × Memory) :=
  match lengthOf? length with
  | none => .error (.invalidLength length)
  | some n =>
    match m.allocZeros kind n with
    | .error e => .error e
    | .ok (r, m) =>
      let a : Growable := ⟨kind, r.buffer, 0, n, n, length = Binary64.negativeZero⟩
      match fill with
      | some x =>
        if !kind.admits x then .error .sortRefused
        else if x.isZero then .ok (a, m)
        else .ok (a, m.writeWords a.slots 0 (List.replicate n (kind.store x)))
      | none => .ok (a, m)

/-- The least whole number that is not below a double; NaN is below nothing. -/
def wholeNeed? : Binary64 → Option Nat
  | .nan => some 0
  | .infinite negative => if negative then some 0 else none
  | x => some (-((-(x.scaled?.getD 0)) / (Binary64.one : Int))).toNat

/-- Make room for more elements. The answer says whether the elements moved to a new buffer. -/
def reserve (m : Memory) (a : Growable) (extra : Binary64) :
    Except Fault (Bool × Growable × Memory) :=
  let need := a.size + extra
  if need.le (Binary64.ofNat a.capacity) then .ok (false, a, m)
  else
    match wholeNeed? need with
    | none => .error .allocationRefused
    | some n =>
      if m.limit.count ≤ n then .error .allocationRefused
      else
        let capacity := doubledTo (max 1 a.capacity) n
        match m.allocZeros a.kind capacity with
        | .error e => .error e
        | .ok (r, m) =>
          let b : Growable := { a with buffer := r.buffer, offset := 0, capacity := capacity }
          .ok (true, b, m.writeWords b.slots 0 (m.words (a.data 0)))

/-- Add an element that the kind admits at the end. -/
def push (m : Memory) (a : Growable) (value : Scalar) : Except Fault (Growable × Memory) :=
  match reserve m a 1 with
  | .error e => .error e
  | .ok (_, a, m) =>
    .ok ({ a with length := a.length + 1, signedZero := false },
      m.writeWords a.slots a.length [a.kind.store value])

/-- Remove the last element, which is the answer. -/
def pop (m : Memory) (a : Growable) : Option Scalar × Growable :=
  if a.length = 0 then (none, a)
  else
    (m.elementAt? a.slots (a.length - 1), { a with length := a.length - 1, signedZero := false })

/-- Cut or extend to a length; new elements take the fill value, which the kind then admits. -/
def resize (m : Memory) (a : Growable) (length : Binary64) (fill : Scalar) :
    Except Fault (Growable × Memory) :=
  match lengthOf? length with
  | none => .error (.invalidLength length)
  | some n =>
    if a.length < n then
      match reserve m a (length - a.size) with
      | .error e => .error e
      | .ok (_, a, m) =>
        .ok ({ a with length := n, signedZero := false },
          m.writeWords a.slots a.length (List.replicate (n - a.length) (a.kind.store fill)))
    else .ok ({ a with length := n, signedZero := length = Binary64.negativeZero }, m)

/-- Drop the elements and keep the capacity. -/
def clear (a : Growable) : Growable := { a with length := 0, signedZero := false }

/-- Drop the elements and the buffer. -/
def release (m : Memory) (a : Growable) : Growable × Memory :=
  let (r, m) := m.alloc []
  (⟨a.kind, r.buffer, 0, 0, 0, false⟩, m)

/-- Exchange the contents of two arrays of one kind. -/
def swap (a b : Growable) : Except Fault (Growable × Growable) :=
  if a.kind = b.kind then .ok (b, a) else .error (.kindsDiffer a.kind b.kind)

end Growable

end LeaseVec
