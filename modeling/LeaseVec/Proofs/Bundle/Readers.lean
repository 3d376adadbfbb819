import LeaseVec.Proofs.Bundle.Elements

/-!
# Readers in front of bytes

A reader stands between the bytes it has passed and the bytes in front of it, and a scan moves it over some
of them. The bytes stay where they are while decoding goes on.
-/

namespace LeaseVec.World

open Number Number.Binary64

variable {w w' : World} {n : Nat}

/-- A reader stands between bytes it has read and bytes it has not. Its source exists and is short enough
for doubles to count it. -/
structure At (w : World) (reader : Nat) (before after : Bytes) : Prop where
  lt : reader < w.readers.size
  covers : w.memory.Covers (w.reader reader).source
  short : (w.memory.buffer (w.reader reader).source.buffer).length < exactBound
  bytes : w.bytes (w.reader reader).source = before ++ after
  offset : (w.reader reader).offset = before.length

/-- A reader can give elements: slices of what it reads are copies, and when elements may stay in place, a
region that lends them is open. -/
structure Serves (w : World) (reader : Nat) (inPlace : Bool) : Prop where
  plain : (w.reader reader).source.shares = false
  lends : inPlace = true → ∀ region, (w.reader reader).lender = some region → w.isOpen region = true

variable {reader : Nat} {before after : Bytes}

theorem At.length_le (h : w.At reader before after) :
    (w.reader reader).source.offset + (before ++ after).length ≤
      (w.memory.buffer (w.reader reader).source.buffer).length := by
  rw [← h.bytes, length_bytes h.covers]
  exact h.covers.end_le

theorem At.length_lt (h : w.At reader before after) : (before ++ after).length < exactBound :=
  (Nat.le_add_left ..).trans_lt (h.length_le.trans_lt h.short)

/-- The bytes are where they were; only how far the reader is may be different. -/
theorem At.extends {before' after' : Bytes} (h : w.At reader before after) (hx : w.Extends n w')
    (hb : before' ++ after' = before ++ after)
    (ho : (w'.reader reader).offset = before'.length) : w'.At reader before' after' := by
  have hlt := h.covers.buffer_lt
  have hbuffer := hx.buffer _ hlt
  refine ⟨?_, ⟨?_, ?_⟩, ?_, ?_, ho⟩
  · rw [hx.readers]
    exact h.lt
  · rw [hx.source]
    exact hlt.trans_le hx.size_le
  · rw [hx.source, hbuffer]
    exact h.covers.end_le
  · rw [hx.source, hbuffer]
    exact h.short
  · rw [hx.source, hb, ← h.bytes]
    exact Memory.read_congr hbuffer

theorem Serves.extends {inPlace : Bool} (h : w.Serves reader inPlace) (hx : w.Extends n w') :
    w'.Serves reader inPlace where
  plain := by
    rw [hx.source]
    exact h.plain
  lends := by
    intro hp region hl
    rw [hx.lender] at hl
    have hopen := h.lends hp region hl
    unfold isOpen World.region at hopen ⊢
    rwa [hx.regions]

/-- A scan of the bytes moves the reader over them. -/
theorem At.scan {α : Type} {s : Scan α} {a : α} {p rest : Bytes}
    (h : w.At reader before (p ++ rest))
    (hs : s (before ++ (p ++ rest)) before.length = .ok a (before.length + p.length)) :
    ∃ w', World.scan reader s w = .ok a w' ∧ (∀ n, w.Extends n w') ∧ w'.vecs = w.vecs ∧
      w'.At reader (before ++ p) rest := by
  rw [← h.bytes, ← h.offset] at hs
  have hx := fun n => extends_setOffset w n reader ((w.reader reader).offset + p.length)
  refine ⟨_, scan_ok hs, hx, rfl, h.extends (hx 0) (List.append_assoc ..) ?_⟩
  rw [reader_setReader_self _ _ h.lt, List.length_append, ← h.offset]

/-- A part of the bytes as a range of its own. -/
theorem At.sub {x q y : Bytes} (h : w.At reader before after)
    (hsplit : before ++ after = x ++ (q ++ y)) :
    w.memory.Covers ((w.reader reader).source.sub x.length q.length) ∧
      w.bytes ((w.reader reader).source.sub x.length q.length) = q := by
  have hle := h.length_le
  have hlen := length_bytes h.covers
  have hbytes := h.bytes
  rw [hsplit] at hle hbytes
  rw [hbytes] at hlen
  simp only [List.length_append] at hle hlen
  refine ⟨⟨h.covers.buffer_lt, ?_⟩, ?_⟩
  · change (w.reader reader).source.offset + x.length + q.length ≤
      (w.memory.buffer (w.reader reader).source.buffer).length
    omega
  · rw [bytes_sub w (by omega), hbytes]
    unfold Bytes.slice
    rw [List.drop_left' rfl, List.take_left' rfl]

end LeaseVec.World
