import LeaseVec.World.Field

/-!
# The bundle format

A bundle is a header of four 32-bit words (a magic number, the version, the number of fields, and
one word kept free) followed by its fields. A field is the length of its name, the name in UTF-8, the
code of its kind, its stride, padding to a multiple of eight bytes, and its elements behind their
count. The padding puts the elements of every field at a multiple of eight bytes.
-/

namespace LeaseVec.Bundle

def magic : Nat := 0x43575642

def version : Nat := 1

def headerBytes : Nat := 16

def fieldAlign : Nat := 8

/-- The description of a field in front of its elements. -/
structure Header where
  name : Text
  kind : Kind
  stride : Nat
  deriving DecidableEq

/-- Scan the header of a bundle; the answer is the number of fields. -/
def scanHeader : Scan Nat := do
  let got ← Scan.remaining
  if got < headerBytes then throw (.headerTooShort got)
  if (← Scan.u32) ≠ magic then throw .wrongMagic
  let found ← Scan.u32
  if found ≠ version then throw (.unknownVersion found)
  let count ← Scan.u32
  let _ ← Scan.u32
  return count

/-- Scan the description of a field up to its count. -/
def scanDescription : Scan Header := do
  let length ← Scan.u32
  let name ← Scan.text length
  let code ← Scan.u32
  match Kind.ofCode? code with
  | none => throw (.badField name (.unknownCode code))
  | some kind =>
    let stride ← Scan.u32
    if stride = 0 then throw (.badField name .zeroStride)
    Scan.alignTo fieldAlign
    return ⟨name, kind, stride⟩

end LeaseVec.Bundle
