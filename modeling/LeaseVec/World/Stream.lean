import LeaseVec.World.Vec

/-!
# Readers and writers

A reader over a region may borrow the bytes that it passes; any other reader only slices them, which of
plain bytes makes a copy. A reader goes on reading the bytes it was made for when the region is closed. A
writer keeps ranges as they were pushed and looks at them when the parts are put together.
-/

namespace LeaseVec

open Number

namespace Writer

def empty : Writer := ⟨#[]⟩

def pushPart (w : Writer) (p : Part) : Writer := ⟨w.parts.push p⟩

def pushLiteral (w : Writer) (bytes : Bytes) : Writer := w.pushPart (.literal bytes)

def pushWord (w : Writer) (width n : Nat) : Writer := w.pushLiteral (Word.encode width n)

/-- Push a double as 32 bits, truncated and wrapped. -/
def push32 (w : Writer) (x : Binary64) : Writer := w.pushWord 4 (x.wrap 32)

/-- Push an integer as 64 bits, wrapped. -/
def push64 (w : Writer) (n : Int) : Writer := w.pushWord 8 (n % 0x10000000000000000).toNat

/-- Zeros up to the next multiple of `n` bytes. -/
def alignTo (w : Writer) (n : Nat) : Writer :=
  let pad := Scan.padding n w.length
  if pad = 0 then w else w.pushLiteral (List.replicate pad 0)

/-- Zeros up to the next multiple of a step given as a double, as far as the host allocates them. -/
def align (limit : AllocationLimit) (w : Writer) (n : Binary64) : Except Fault Writer :=
  let pad := Scan.paddingLength n w.length
  if Binary64.zero.lt pad then
    match pad.toIndex? with
    | some k =>
      if limit.count ≤ k then .error .allocationRefused
      else .ok (w.pushLiteral (List.replicate k 0))
    | none => .error .allocationRefused
  else .ok w

/-- The bytes of a part as they are now. -/
def partBytes (m : Memory) : Part → Bytes
  | .literal bytes => bytes
  | .shared range => m.read range

/-- All the bytes pushed, one part after the other. -/
def toBytes (m : Memory) (w : Writer) : Bytes := w.parts.toList.flatMap (partBytes m)

end Writer

namespace World

/-- A reader that only slices. -/
def newReader (source : ByteRange) : Action Nat := fun w =>
  .ok w.readers.size { w with readers := w.readers.push ⟨source, 0, none⟩ }

/-- A reader over the bytes of an open region, which may borrow them. -/
def newBorrower (region : Nat) : Action Nat := do
  let w ← get
  let source ← Action.ofExcept (w.lentBytes region)
  set { w with readers := w.readers.push ⟨source, 0, some region⟩ }
  return w.readers.size

/-- Scan on with a reader. -/
def scan {α : Type} (reader : Nat) (s : Scan α) : Action α := fun w =>
  let r := w.reader reader
  match s (w.bytes r.source) r.offset with
  | .ok a offset => .ok a (w.setReader reader { r with offset := offset })
  | .error e offset => .error e (w.setReader reader { r with offset := offset })

/-- The range of the next bytes of a reader, which moves past them. -/
def passNext (reader : Nat) (n : Binary64) : Action ByteRange := do
  let start ← scan reader (Scan.skipLength n)
  return ((← get).reader reader).source.sub start (n.toNat?.getD 0)

/-- A slice of the next bytes. -/
def copyNext (reader : Nat) (n : Binary64) : Action ByteRange := do
  slice (← passNext reader n)

/-- The next bytes in place, with the region that lends them. -/
def borrowNext (reader : Nat) (n : Binary64) : Action (ByteRange × Nat) := do
  let r ← passNext reader n
  return (r, ((← get).reader reader).lender.getD 0)

def newWriter : Action Nat := fun w =>
  .ok w.writers.size { w with writers := w.writers.push .empty }

/-- Change a writer; when the change fails nothing has happened. -/
def changeWriter (id : Nat) (change : World → Writer → Except Fault Writer) : Action Unit := do
  let w ← get
  let writer ← Action.ofExcept (change w (w.writer id))
  set (w.setWriter id writer)

/-- The bytes of a writer in a new buffer. -/
def joined (id : Nat) : Action ByteRange := do
  let w ← get
  alloc ((w.writer id).toBytes w.memory)

end World

end LeaseVec
