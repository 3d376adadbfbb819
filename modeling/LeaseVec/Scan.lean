import LeaseVec.Memory.Basic
import LeaseVec.Text.Utf8

/-!
# Scanning

A scan reads a byte sequence from an offset on and moves the offset past what it has read. A scan
that fails leaves the offset in front of the read that failed; reads before it stay done.
-/

namespace LeaseVec

open Number

/-- The text of a byte sequence. The host makes none of too many bytes. -/
def Text.ofBytes (bytes : Bytes) : Except Fault Text :=
  if Text.longest < (Text.Utf8.dropMark bytes).length then .error .textTooLong
  else .ok (Text.Utf8.decode bytes)

/-- A computation over fixed input that moves an offset. -/
abbrev Scan (α : Type) := ReaderT Bytes (EStateM Fault Nat) α

namespace Scan

/-- A result that is already known, as a scan. -/
def ofExcept {α : Type} : Except Fault α → Scan α
  | .ok a => pure a
  | .error e => throw e

def input : Scan Bytes := read

def offset : Scan Nat := fun _ => get

/-- The number of bytes behind the offset. -/
def remaining : Scan Nat := fun bytes => do return bytes.length - (← get)

/-- Move past `n` bytes; the answer is where they start. -/
def skip (n : Nat) : Scan Nat := fun bytes => do
  let start ← get
  if bytes.length - start < n then
    throw (.inputEnds (Binary64.ofNat n) (bytes.length - start))
  else
    set (start + n)
    return start

/-- Move past a number of bytes given as a double, which has to be a whole number. -/
def skipLength (n : Binary64) : Scan Nat := fun bytes => do
  let start ← get
  match n.toNat? with
  | none => throw (.invalidReadLength n)
  | some k =>
    if bytes.length - start < k then throw (.inputEnds n (bytes.length - start))
    else
      set (start + k)
      return start

/-- The next `n` bytes. -/
def take (n : Nat) : Scan Bytes := do
  let start ← skip n
  return (← input).slice start n

/-- The next `n` bytes as a text. -/
def text (n : Nat) : Scan Text := do ofExcept (Text.ofBytes (← take n))

/-- The next word of `width` bytes. -/
def word (width : Nat) : Scan Nat := do return Word.decode (← take width)

def u32 : Scan Nat := word 4

def i32 : Scan Int := do return Word.toSigned 32 (← word 4)

def u64 : Scan Nat := word 8

/-- The bytes from an offset to the next multiple of `n`. -/
def padding (n offset : Nat) : Nat := (n - offset % n) % n

/-- Move to the next multiple of `n` bytes from the start of the input. -/
def alignTo (n : Nat) : Scan Unit := do
  let _ ← skip (padding n (← offset))

/-- The padding to a multiple given as a double, by remainders of doubles. -/
def paddingLength (n : Binary64) (offset : Nat) : Binary64 := (n - Binary64.ofNat offset % n) % n

/-- Move to the next multiple of a step given as a double. -/
def align (n : Binary64) : Scan Unit := do
  let _ ← skipLength (paddingLength n (← offset))

end Scan

end LeaseVec
