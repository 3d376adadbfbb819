import LeaseVec.Proofs.Bundle.Atomic

/-!
# Rounded lengths never lie

The bytes that a field takes are counted by products of doubles, which round past `2 ^ 53` and may become
infinite. Rounding is monotone, and what is there is shorter than the first number that is not exact. So a read
goes past the check of its length exactly if the product of the natural numbers lies in the input, and then it
takes that product; a length that is too long, be it rounded or infinite, is refused.
-/

namespace LeaseVec

open Number Number.Binary64

namespace Scan

/-- Without a field there is no count, or the elements that it counts are not all there. -/
theorem NoField.not_counts {kind : Kind} {stride : Binary64} {s : Nat} {bound : Option Scalar} {bytes : Bytes}
    {start : Nat} {e : Fault} {offset : Nat} (h : NoField kind stride s bound bytes start e offset) :
    (∀ n, ¬ Counts bound bytes start n) ∨ ∃ n, Counts bound bytes start n ∧
      bytes.length < start + 8 + n * s * kind.width := by
  cases h with
  | short hshort =>
    left
    intro n hn
    have hroom := hn.room
    omega
  | unusable _ hl =>
    left
    rintro n ⟨-, -, limit, hlimit, -⟩
    rw [hl] at hlimit
    cases hlimit
  | corrupt _ hl hle =>
    left
    rintro n ⟨-, rfl, limit, hlimit, hbelow⟩
    rw [hl] at hlimit
    cases hlimit
    omega
  | cut hn hlong _ => exact Or.inr ⟨_, hn, hlong⟩

end Scan

namespace World

variable {w w' : World} {reader vec start : Nat} {stride : Binary64} {s : Nat} {policy : ReadPolicy}
  {bytes : Bytes}

/-- How reading a field with a stride of `s` ends, told by the exact product `n * s * width` of its count, its
stride and the width of its elements. -/
inductive SpanEnds (w : World) (reader vec : Nat) (stride : Binary64) (s : Nat) (policy : ReadPolicy)
    (bytes : Bytes) (start : Nat) : EStateM.Result Fault World Mode → Prop where
  /-- There is no count, or it is not below the limit. -/
  | uncounted {e : Fault} {w' : World} (hn : ∀ n, ¬ Scan.Counts policy.bound bytes start n)
      (same : w.SameVecs w') : SpanEnds w reader vec stride s policy bytes start (.error e w')
  /-- Fewer bytes are left than the product says. -/
  | cut {n : Nat} {w' : World} (hn : Scan.Counts policy.bound bytes start n)
      (hlong : bytes.length - (start + 8) < n * s * (w.vec vec).kind.width)
      (offset_eq : (w'.reader reader).offset = start + 8) (same : w.SameVecs w') :
    SpanEnds w reader vec stride s policy bytes start
      (.error (Scan.lengthFault (spanLength (w.vec vec).kind stride n) (bytes.length - (start + 8))) w')
  /-- The bytes are there and have been passed, but the vector does not borrow them. -/
  | refused {n region : Nat} {e : Fault} {w' : World} (hn : Scan.Counts policy.bound bytes start n)
      (hfits : n * s * (w.vec vec).kind.width ≤ bytes.length - (start + 8)) (why : w.Refuses vec region e)
      (offset_eq : (w'.reader reader).offset = start + (8 + n * s * (w.vec vec).kind.width))
      (same : w.SameVecs w') : SpanEnds w reader vec stride s policy bytes start (.error e w')
  /-- The bytes are there and have been passed, but no view of them can lie where they stay. -/
  | misplaced {n : Nat} {w' : World} (hn : Scan.Counts policy.bound bytes start n)
      (hfits : n * s * (w.vec vec).kind.width ≤ bytes.length - (start + 8))
      (why : (w.payload reader start (n * s * (w.vec vec).kind.width)).Misplaced (w.vec vec).kind)
      (offset_eq : (w'.reader reader).offset = start + (8 + n * s * (w.vec vec).kind.width))
      (same : w.SameVecs w') : SpanEnds w reader vec stride s policy bytes start (.error .viewRefused w')
  | read {n : Nat} {mode : Mode} {w' : World} (hn : Scan.Counts policy.bound bytes start n)
      (hfits : n * s * (w.vec vec).kind.width ≤ bytes.length - (start + 8))
      (offset_eq : (w'.reader reader).offset = start + (8 + n * s * (w.vec vec).kind.width))
      (size_eq : (w'.vec vec).size = n * s) :
    SpanEnds w reader vec stride s policy bytes start (.ok mode w')

/-- A read that does not find its elements ends with the fault of their length. -/
theorem Stands.readField_cut (h : w.Stands reader bytes start) (hs : Whole stride s) (hpos : 1 ≤ s) {n : Nat}
    (hn : Scan.Counts policy.bound bytes start n)
    (hlong : bytes.length < start + 8 + n * s * (w.vec vec).kind.width) :
    readField reader vec stride policy w =
      .error (Scan.lengthFault (spanLength (w.vec vec).kind stride n) (bytes.length - (start + 8)))
        (w.movedTo reader (start + 8)) := by
  apply readField_of_noField (acceptStride_ok.2 ⟨hs, hpos⟩)
  rw [h.bytes_eq, h.offset_eq]
  exact hn.field_cut hs h.length_lt hlong

/-- Whatever doubles make of the length of a field, reading it goes by the exact product. -/
theorem spanEnds_readField (h : w.Stands reader bytes start) (hvec : vec < w.vecs.size)
    (hs : Whole stride s) (hpos : 1 ≤ s) (policy : ReadPolicy) :
    w.SpanEnds reader vec stride s policy bytes start (readField reader vec stride policy w) := by
  have hends := h.readField_of_stride hvec (acceptStride_ok.2 ⟨hs, hpos⟩) policy
  generalize hresult : readField reader vec stride policy w = result at hends ⊢
  cases hends with
  | read hs' _ hn hfits done =>
    obtain rfl := hs'.unique hs
    have hoffset := done.offset_eq
    exact .read hn (by omega) (by omega) done.size_eq
  | stopped why moved offset_eq same =>
    cases why with
    | badStride hbad =>
      have hzero := hbad s hs
      omega
    | refused hs' _ hn hfits _ hrefuses =>
      obtain rfl := hs'.unique hs
      exact .refused hn (by omega) hrefuses (by omega) same
    | misplaced hs' _ hn hfits hmisplaced =>
      obtain rfl := hs'.unique hs
      exact .misplaced hn (by omega) hmisplaced (by omega) same
    | noField hs' _ hno =>
      obtain rfl := hs'.unique hs
      rcases hno.not_counts with hnone | ⟨n, hn, hlong⟩
      · exact .uncounted hnone same
      · rw [h.readField_cut hs hpos hn hlong] at hresult
        cases hresult
        have hroom := hn.room
        exact .cut hn (by omega) h.offset_movedTo same

/-- A reader of a count of four and one byte, and a vector of bytes. -/
def countOfFour : List Command :=
  [.alloc [4, 0, 0, 0, 0, 0, 0, 0, 7], .newReader ⟨0, 0, 9, false⟩, .newVec .u8 false]

/-- A stride of `2 ^ 1023` is a double, and four times it is infinite. -/
theorem spanEnds_countOfFour :
    Whole (ofNat (2 ^ 1023)) (2 ^ 1023) ∧
      (empty.performAll countOfFour).2.SpanEnds 0 0 (ofNat (2 ^ 1023)) (2 ^ 1023) {}
        [4, 0, 0, 0, 0, 0, 0, 0, 7] 0
        (readField 0 0 (ofNat (2 ^ 1023)) {} (empty.performAll countOfFour).2) := by
  have hstands : (empty.performAll countOfFour).2.Stands 0 [4, 0, 0, 0, 0, 0, 0, 0, 7] 0 :=
    ⟨by decide, ⟨by decide, by decide⟩, by decide +kernel, by decide +kernel, by decide⟩
  have hwhole : Whole (ofNat (2 ^ 1023)) (2 ^ 1023) := by
    unfold Whole
    decide +kernel
  exact ⟨hwhole, spanEnds_readField hstands (by decide) hwhole (by decide +kernel) {}⟩

end World

end LeaseVec
