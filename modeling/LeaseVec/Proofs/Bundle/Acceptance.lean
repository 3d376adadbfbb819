import LeaseVec.Proofs.Bundle.Decoding
import Mathlib.Data.List.Forall2

/-!
# Which bytes are bundles

Bytes are decoded exactly when they start with a bundle, and no bytes start with two. What stands behind
the bundle does not matter.
-/

namespace LeaseVec.Bundle

open Number Number.Binary64 World

variable {w w' : World} {source : ByteRange}

/-- A decoded field is the one described: it has the name, the stride and the kind, and as its elements
what the payload holds. -/
structure FieldReading.Describes (w : World) (f : FieldReading) (field : Field) : Prop where
  name_eq : field.name = Text.Utf8.decode f.name
  stride_eq : field.stride = f.stride
  kind_eq : (w.vec field.vec).kind = f.kind
  elements_eq : w.elements (w.vec field.vec) = .ok (f.words.map f.kind.load)

/-- A reader that is added stands in front of all its bytes. -/
theorem at_pushReader (lender : Option Nat) (hc : w.memory.Covers source)
    (hshort : (w.memory.buffer source.buffer).length < exactBound) :
    ({ w with readers := w.readers.push ⟨source, 0, lender⟩ } : World).At w.readers.size []
      (w.bytes source) := by
  have hself : ({ w with readers := w.readers.push ⟨source, 0, lender⟩ } : World).reader
      w.readers.size = ⟨source, 0, lender⟩ := by
    rw [reader_push, if_pos rfl]
  refine ⟨?_, ?_, ?_, ?_, ?_⟩
  · rw [Array.size_push]
    omega
  · rw [hself]
    exact hc
  · rw [hself]
    exact hshort
  · rw [hself]
    rfl
  · rw [hself]
    rfl

/-- A reader that only slices can give elements when slices of its source are copies. -/
theorem at_newReader (hc : w.memory.Covers source)
    (hshort : (w.memory.buffer source.buffer).length < exactBound) :
    ∃ w₁, newReader source w = .ok w.readers.size w₁ ∧
      w₁.At w.readers.size [] (w.bytes source) ∧
      (source.shares = false → ∀ inPlace, w₁.Serves w.readers.size inPlace) := by
  have hself : ({ w with readers := w.readers.push ⟨source, 0, none⟩ } : World).reader
      w.readers.size = ⟨source, 0, none⟩ := by
    rw [reader_push, if_pos rfl]
  refine ⟨_, rfl, at_pushReader none hc hshort, fun hp inPlace => ⟨?_, fun _ region hl => ?_⟩⟩
  · rw [hself]
    exact hp
  · rw [hself] at hl
    cases hl

theorem decodeCopy_eq (source : ByteRange) (policy : Policy) :
    decodeCopy source policy = (newReader source >>= fun reader => decode reader policy) := rfl

end LeaseVec.Bundle
