import LeaseVec.Bundle.Format

/-!
# Encoding and decoding bundles

A field names a vector of the world. Decoding gives every field a new vector, which borrows from the
region of the reader where it may.
-/

namespace LeaseVec.Bundle

open Number

/-- A field to be encoded: its name, its vector, and its stride. -/
structure Source where
  name : Text
  vec : Nat
  stride : Binary64
  deriving DecidableEq

/-- A decoded field: its vector, and the mode the vector had right after decoding. -/
structure Field where
  name : Text
  stride : Nat
  vec : Nat
  attached : Mode
  deriving DecidableEq, Inhabited

/-- A decoded field as one to be encoded. -/
def Field.source (f : Field) : Source := ⟨f.name, f.vec, Binary64.ofNat f.stride⟩

/-- How bundles are decoded: how fields are read, and whether unchecked reads of their vectors check
their index all the same. -/
structure Policy where
  read : ReadPolicy := {}
  checked : Bool := false

/-- Write the description of a field. -/
def writeDescription (writer : Writer) (name : Text) (kind : Kind) (stride : Binary64) : Writer :=
  let bytes := Text.Utf8.encode name
  let head := ((writer.pushWord 4 bytes.length).pushLiteral bytes).pushWord 4 kind.code
  (head.push32 stride).alignTo fieldAlign

/-- Write the description and the elements of a field. -/
def writeSource (w : World) (writer : Writer) (f : Source) : Except Fault Writer :=
  let v := w.vec f.vec
  w.writeField v f.stride (writeDescription writer f.name v.kind f.stride)

/-- Write the header of a bundle. -/
def writeHeader (count : Nat) : Writer :=
  (((Writer.empty.pushWord 4 magic).pushWord 4 version).pushWord 4 count).pushWord 4 0

/-- The bytes of a bundle. -/
def encode (w : World) (fields : List Source) : Except Fault Bytes := do
  let writer ← fields.foldlM (writeSource w) (writeHeader fields.length)
  return writer.toBytes w.memory

/-- Decode one field. -/
def decodeField (reader : Nat) (policy : Policy) : Action Field := do
  let head ← World.scan reader scanDescription
  let vec ← World.newVec head.kind policy.checked
  let attached ← World.readField reader vec (Binary64.ofNat head.stride) policy.read
  return ⟨head.name, head.stride, vec, attached⟩

/-- Decode a number of fields. Every field takes up bytes, so a number that is too large fails. -/
def decodeFields (reader : Nat) (policy : Policy) : Nat → Action (List Field)
  | 0 => return []
  | count + 1 => do
    let field ← decodeField reader policy
    let rest ← decodeFields reader policy count
    return field :: rest

/-- Decode a bundle from where a reader is. -/
def decode (reader : Nat) (policy : Policy) : Action (List Field) := do
  let count ← World.scan reader scanHeader
  decodeFields reader policy count

/-- Decode a bundle from bytes, copying every field. -/
def decodeCopy (source : ByteRange) (policy : Policy) : Action (List Field) := do
  decode (← World.newReader source) policy

/-- The first field with a name, and its position. -/
def find? (fields : List Field) (name : Text) : Option (Nat × Field) :=
  (fields.findIdx? fun f => f.name = name).map fun i => (i, fields.getD i default)

end LeaseVec.Bundle
