import LeaseVec.Memory.Basic

/-!
# Typed views

A view reads and writes a stretch of a buffer as elements of one kind. Views are told apart by
their serial number, so that two views of the same stretch are still two views. Indices are
doubles: a read outside the view has no result and a write outside it does nothing.
-/

namespace LeaseVec

open Number

structure View where
  kind : Kind
  buffer : Nat
  /-- In bytes, from the start of the buffer. -/
  offset : Nat
  /-- In elements. -/
  length : Nat
  serial : Nat
  deriving DecidableEq, Inhabited

namespace View

def byteLength (v : View) : Nat := v.length * v.kind.width

/-- The bytes under a view, as a plain range. -/
def range (v : View) : ByteRange := ⟨v.buffer, v.offset, v.byteLength, false⟩

end View

namespace Memory

/-- The words of a view's elements. -/
def words (m : Memory) (v : View) : List Nat := Word.split v.kind.width v.length (m.read v.range)

/-- The elements of a view. -/
def elements (m : Memory) (v : View) : List Scalar := (m.words v).map v.kind.load

/-- The element at a position. -/
def elementAt? (m : Memory) (v : View) (i : Nat) : Option Scalar :=
  if i < v.length then
    some (v.kind.load (Word.decode
      (m.read ⟨v.buffer, v.offset + i * v.kind.width, v.kind.width, false⟩)))
  else none

/-- The element at an index given as a double. -/
def element? (m : Memory) (v : View) (index : Binary64) : Option Scalar :=
  index.toNat?.bind (m.elementAt? v)

/-- Write words into consecutive elements from a position on. -/
def writeWords (m : Memory) (v : View) (position : Nat) (words : List Nat) : Memory :=
  m.write v.buffer (v.offset + position * v.kind.width) (Word.concat v.kind.width words)

/-- Write one element at an index given as a double. -/
def setElement (m : Memory) (v : View) (index : Binary64) (value : Scalar) : Memory :=
  match index.toNat? with
  | some i => if i < v.length then m.writeWords v i [v.kind.store value] else m
  | none => m

/-- The words of a view's elements as another kind stores them. -/
def wordsAs (m : Memory) (v : View) (kind : Kind) : List Nat :=
  (m.words v).map (v.kind.convert kind)

/-- The number of elements in the rest of a buffer. There is none when the buffer is not made of whole
elements or ends before the offset. -/
def restLength? (m : Memory) (kind : Kind) (buffer offset : Nat) : Option Nat :=
  let size := (m.buffer buffer).length
  if size % kind.width = 0 ∧ offset ≤ size then some ((size - offset) / kind.width) else none

/-- A view of a buffer, which has to lie inside it at a multiple of the element size. Offset and
length are cut to whole numbers. A view without a length goes on to the end of the buffer. -/
def view? (m : Memory) (kind : Kind) (buffer : Nat) (offset : Binary64)
    (length : Option Binary64) : Except Fault (View × Memory) :=
  let given := fun start =>
    match length with
    | some length => length.toIndex?
    | none => m.restLength? kind buffer start
  match offset.toIndex?, offset.toIndex?.bind given with
  | some offset, some length =>
    if kind.isAligned offset && offset + length * kind.width ≤ (m.buffer buffer).length then
      .ok (⟨kind, buffer, offset, length, m.views⟩, { m with views := m.views + 1 })
    else .error .viewRefused
  | _, _ => .error .viewRefused

end Memory

end LeaseVec
