import LeaseVec.Fault

/-!
# Byte memory

Memory is a table of byte buffers that are never freed and never change their length. Everything
that shares storage holds a range of the same buffer, so sharing is visible in the state: a write
through one range is read through every other range that covers the byte.
-/

namespace LeaseVec

open Number

/-- Bytes with a part replaced. A part that would reach past the end changes nothing. -/
def Bytes.overwrite (bytes : Bytes) (start : Nat) (part : Bytes) : Bytes :=
  if start + part.length ≤ bytes.length then
    bytes.take start ++ part ++ bytes.drop (start + part.length)
  else bytes

@[simp] theorem Bytes.length_overwrite (bytes : Bytes) (start : Nat) (part : Bytes) :
    (bytes.overwrite start part).length = bytes.length := by
  unfold Bytes.overwrite
  split
  · simp only [List.length_append, List.length_take, List.length_drop]; omega
  · rfl

/-- The part of the bytes that starts at an offset. -/
def Bytes.slice (bytes : Bytes) (offset length : Nat) : Bytes := (bytes.drop offset).take length

@[simp] theorem Bytes.length_slice (bytes : Bytes) (offset length : Nat) :
    (bytes.slice offset length).length = min length (bytes.length - offset) := by
  simp [Bytes.slice]

/-- A stretch of a buffer, as a byte array that lies there. There are two classes of byte arrays: a slice
of a plain one is a copy, and a slice of one that shares, such as a host reads a file into, is the same
memory. -/
structure ByteRange where
  buffer : Nat
  offset : Nat
  length : Nat
  /-- Whether its slices share its memory. -/
  shares : Bool
  deriving DecidableEq, Inhabited

/-- A part of a range, in place and of the same class. -/
def ByteRange.sub (r : ByteRange) (offset length : Nat) : ByteRange :=
  ⟨r.buffer, r.offset + offset, length, r.shares⟩

/-- What a host allocates: an array of `count` elements or more is refused. Every host refuses arrays of
`2 ^ 50` elements. -/
structure AllocationLimit where
  count : Nat
  count_le : count ≤ 0x4000000000000
  deriving DecidableEq

/-- The limit of a host that counts the elements of an array with 32 bits. -/
instance : Inhabited AllocationLimit := ⟨⟨0x100000000, by decide⟩⟩

/-- The buffers, how many views have been given out so far, and what the host allocates. -/
structure Memory where
  buffers : Array Bytes
  views : Nat
  limit : AllocationLimit
  deriving Inhabited

namespace Memory

def empty (limit : AllocationLimit := default) : Memory := ⟨#[], 0, limit⟩

/-- The contents of a buffer; a buffer that does not exist has none. -/
def buffer (m : Memory) (id : Nat) : Bytes := m.buffers.getD id []

/-- The bytes of a range as they are now. -/
def read (m : Memory) (r : ByteRange) : Bytes := (m.buffer r.buffer).slice r.offset r.length

/-- Replace bytes of a buffer. -/
def write (m : Memory) (id offset : Nat) (part : Bytes) : Memory :=
  { m with buffers := m.buffers.modify id fun bytes => bytes.overwrite offset part }

/-- A new buffer with the given contents, and the plain range that covers it. -/
def alloc (m : Memory) (contents : Bytes) : ByteRange × Memory :=
  (⟨m.buffers.size, 0, contents.length, false⟩, { m with buffers := m.buffers.push contents })

/-- A new buffer has a number that no buffer had before. -/
theorem size_alloc (m : Memory) (contents : Bytes) :
    (m.alloc contents).2.buffers.size = m.buffers.size + 1 := by
  simp [alloc]

theorem buffer_alloc_self (m : Memory) (contents : Bytes) :
    (m.alloc contents).2.buffer m.buffers.size = contents := by
  simp [alloc, buffer]

theorem buffer_alloc_of_lt {m : Memory} {id : Nat} (contents : Bytes) (h : id < m.buffers.size) :
    (m.alloc contents).2.buffer id = m.buffer id := by
  simp only [alloc, buffer, Array.getD_eq_getD_getElem?, Array.getElem?_push]
  rw [if_neg (by omega)]

@[simp] theorem size_write (m : Memory) (id offset : Nat) (part : Bytes) :
    (m.write id offset part).buffers.size = m.buffers.size := by
  simp [write]

theorem buffer_write_self {m : Memory} {id : Nat} (offset : Nat) (part : Bytes)
    (h : id < m.buffers.size) :
    (m.write id offset part).buffer id = (m.buffer id).overwrite offset part := by
  simp [write, buffer, Array.getElem_modify, h]

theorem buffer_write_of_ne {m : Memory} {id other : Nat} (offset : Nat) (part : Bytes)
    (h : other ≠ id) : (m.write id offset part).buffer other = m.buffer other := by
  simp [write, buffer, Array.getElem?_modify, Ne.symm h]

/-- No buffer changes its length. -/
@[simp] theorem length_buffer_write (m : Memory) (id offset other : Nat) (part : Bytes) :
    ((m.write id offset part).buffer other).length = (m.buffer other).length := by
  by_cases h : other = id
  · subst h
    by_cases hs : other < m.buffers.size
    · rw [buffer_write_self offset part hs, Bytes.length_overwrite]
    · simp [write, buffer, hs]
  · rw [buffer_write_of_ne offset part h]

/-- A new buffer of zeros for a number of elements, unless the host refuses it. -/
def allocZeros (m : Memory) (kind : Kind) (count : Nat) : Except Fault (ByteRange × Memory) :=
  if m.limit.count ≤ count then .error .allocationRefused
  else .ok (m.alloc (List.replicate (count * kind.width) 0))

end Memory

end LeaseVec
