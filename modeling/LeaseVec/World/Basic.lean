import LeaseVec.Vec
import LeaseVec.Scan
import LeaseVec.Files.Store

/-!
# The world

Objects that can be reached in more than one way (regions, vectors, arrays, readers, writers,
iterations, stores) live in tables and are named by their position. Views and byte ranges are plain
values, since all that they share is the buffer. Whoever brings in bytes chooses the class of the range
(`ByteRange.shares`), so the bytes of a region, of a reader or of a stored file may be plain or may share
their slices. An action may fail, and what it did before it failed stays done.
-/

namespace LeaseVec

open Number

/-- A reader: the bytes it reads, of either class, how far it is, and the region that lends them when its
reads may borrow. -/
structure Reader where
  source : ByteRange
  offset : Nat
  lender : Option Nat
  deriving DecidableEq, Inhabited

/-- Something pushed to a writer: bytes of its own, or a range that is looked at when the parts are
put together. -/
inductive Part where
  | literal (bytes : Bytes)
  | shared (range : ByteRange)
  deriving DecidableEq

def Part.length : Part → Nat
  | literal bytes => bytes.length
  | shared range => range.length

structure Writer where
  parts : Array Part
  deriving DecidableEq, Inhabited

/-- The number of bytes pushed so far. -/
def Writer.length (w : Writer) : Nat := w.parts.toList.foldr (fun p n => p.length + n) 0

/-- A walk over a vector's elements. It looks at the vector when the first element is asked for, and
from then on at the view that it found. -/
inductive Iteration where
  | fresh (vec : Nat)
  | running (vec : Nat) (view : View) (position : Nat)
  | finished (vec : Nat)
  deriving DecidableEq, Inhabited

/-- The vector that an iteration was started on. -/
def Iteration.vec : Iteration → Nat
  | fresh vec | running vec _ _ | finished vec => vec

structure World where
  memory : Memory
  regions : Array Region
  vecs : Array Vec
  arrays : Array Growable
  readers : Array Reader
  writers : Array Writer
  iterations : Array Iteration
  stores : Array Store
  /-- Every promotion so far, in order. -/
  promotions : Array Promotion
  deriving Inhabited

/-- A step of the world that may fail. -/
abbrev Action (α : Type) := EStateM Fault World α

/-- A result that is already known, as a step. -/
def Action.ofExcept {α : Type} : Except Fault α → Action α
  | .ok a => pure a
  | .error e => throw e

/-- Refuse scalars of the wrong sort. -/
def Action.demand (admitted : Bool) : Action Unit :=
  if admitted then pure () else throw .sortRefused

namespace World

/-- A world without objects, on a host with a limit. -/
def empty (limit : AllocationLimit := default) : World :=
  { memory := .empty limit, regions := #[], vecs := #[], arrays := #[], readers := #[],
    writers := #[], iterations := #[], stores := #[], promotions := #[] }

def region (w : World) (id : Nat) : Region := w.regions.getD id default

def vec (w : World) (id : Nat) : Vec := w.vecs.getD id default

def array (w : World) (id : Nat) : Growable := w.arrays.getD id default

def reader (w : World) (id : Nat) : Reader := w.readers.getD id default

def writer (w : World) (id : Nat) : Writer := w.writers.getD id default

def iteration (w : World) (id : Nat) : Iteration := w.iterations.getD id default

def store (w : World) (id : Nat) : Store := w.stores.getD id default

def setVec (w : World) (id : Nat) (v : Vec) : World :=
  { w with vecs := w.vecs.setIfInBounds id v }

/-- Give a vector other storage. -/
def setHolding (w : World) (id : Nat) (h : Holding) : World :=
  w.setVec id { w.vec id with holding := h }

def setArray (w : World) (id : Nat) (a : Growable) : World :=
  { w with arrays := w.arrays.setIfInBounds id a }

def setReader (w : World) (id : Nat) (r : Reader) : World :=
  { w with readers := w.readers.setIfInBounds id r }

def setWriter (w : World) (id : Nat) (x : Writer) : World :=
  { w with writers := w.writers.setIfInBounds id x }

def setIteration (w : World) (id : Nat) (i : Iteration) : World :=
  { w with iterations := w.iterations.setIfInBounds id i }

def setStore (w : World) (id : Nat) (s : Store) : World :=
  { w with stores := w.stores.setIfInBounds id s }

/-- The bytes of a range as they are now. -/
def bytes (w : World) (r : ByteRange) : Bytes := w.memory.read r

/-- A new buffer with the given contents. -/
def alloc (contents : Bytes) : Action ByteRange := fun w =>
  let (r, m) := w.memory.alloc contents
  .ok r { w with memory := m }

/-- A typed view of a buffer; without a length it goes on to the end. -/
def view (kind : Kind) (buffer : Nat) (offset : Binary64) (length : Option Binary64) :
    Action View := fun w =>
  match w.memory.view? kind buffer offset length with
  | .ok (v, m) => .ok v { w with memory := m }
  | .error e => .error e w

/-- A slice of a range: of a plain one a copy in a new buffer, and of one that shares the range itself. -/
def slice (r : ByteRange) : Action ByteRange := fun w =>
  if r.shares then .ok r w else alloc (w.bytes r) w

/-- Write one element of a view; outside the view nothing happens, but the sort is looked at first. -/
def setElement (v : View) (index : Binary64) (value : Scalar) : Action Unit := do
  Action.demand (v.kind.admits value)
  modify fun w => { w with memory := w.memory.setElement v index value }

/-- Write one byte of a range; outside the range nothing happens. -/
def poke (r : ByteRange) (index : Binary64) (value : Scalar) : Action Unit :=
  setElement ⟨.u8, r.buffer, r.offset, r.length, 0⟩ index value

/-- The serial number of the next view, which is used up. -/
def nextSerial : Action Nat := fun w =>
  .ok w.memory.views { w with memory := { w.memory with views := w.memory.views + 1 } }

end World

end LeaseVec
