import LeaseVec.Proofs.Bundle.Placement
import LeaseVec.Proofs.Lifetime.Sources
import LeaseVec.Proofs.Outcome

/-!
# Bundles stay in place

A region lends bytes that start on the boundary, and the format puts the elements of every field on the
boundary from there. So a bundle that is decoded from an open region is borrowed as a whole: no field is
copied, whatever its name, its kind and the fields before it, and even if it has no elements. A reader that
copies gives every field a buffer of its own. Bytes that share their slices cannot be moved to the boundary, and
what is sliced from them stays where it is.
-/

namespace LeaseVec.Bundle

/-- A multiple of the boundary is one for the elements of every kind. -/
theorem isAligned_of_boundary {kind : Kind} {offset : Nat} (h : offset % World.boundary = 0) :
    kind.isAligned offset = true :=
  decide_eq_true (Nat.mod_eq_zero_of_dvd (kind.width_dvd_eight.trans (Nat.dvd_of_mod_eq_zero h)))

end LeaseVec.Bundle

namespace LeaseVec.World

open Number Number.Binary64 LeaseVec.Bundle

variable {w : World}

/-- Fields borrow the given views, one each. The views start on the boundary, counted from the first byte of
their buffer and from the first byte that is held; they lie inside what is held, and each ends before the
next one starts. -/
structure BorrowsInPlace (w : World) (held : ByteRange) (region : Nat) (fields : List Bundle.Field)
    (views : List View) : Prop where
  attached : ∀ field ∈ fields, field.attached = .borrowed
  holding : List.Forall₂ (fun field view => (w.vec field.vec).holding = .borrowed view region)
    fields views
  aligned : ∀ view ∈ views, view.offset % boundary = 0 ∧ (view.offset - held.offset) % boundary = 0
  inside : ∀ view ∈ views, view.buffer = held.buffer ∧ held.offset ≤ view.offset ∧
    view.offset + view.byteLength ≤ held.offset + held.length
  ordered : views.Pairwise fun view later => view.offset + view.byteLength < later.offset

/-- A field owns the whole of a buffer that is not one of the given ones. -/
structure OwnsCopy (w : World) (buffers : Nat) (field : Bundle.Field) : Prop where
  attached : field.attached = .owned
  holding : ∃ a, (w.vec field.vec).holding = .owned a ∧ buffers ≤ a.buffer ∧ a.offset = 0 ∧
    ∀ view, w.viewOf (w.vec field.vec) = .ok view → view.buffer = a.buffer ∧ view.offset = 0

section Placed

variable {buffers start region : Nat} {source : ByteRange} {lender : Option Nat} {inPlace : Bool}
  {f : FieldReading} {field : Bundle.Field} {fs : List FieldReading} {fields : List Bundle.Field}

/-- From a boundary, what is placed with a lender is borrowed where it is. -/
theorem Placed.borrowed (h : w.Placed buffers source (some region) true start f field)
    (hf : f.Proper start) (hb : source.offset % boundary = 0) :
    field.attached = .borrowed ∧ ∃ serial, (w.vec field.vec).holding = .borrowed
      ⟨f.kind, source.buffer, source.offset + f.elementsAt start, f.size, serial⟩ region := by
  have hmod : (source.offset + f.elementsAt start) % boundary = 0 := by
    have helements : f.elementsAt start % boundary = 0 := hf.elementsAt_mod
    rw [Nat.add_mod, hb, helements]
    rfl
  have hlender : lenderInPlace (some region) true f.kind
      (source.sub (f.elementsAt start) f.payload.length) = some region :=
    lenderInPlace_eq_some.2 ⟨rfl, isAligned_of_boundary hmod, rfl⟩
  have hheld := h.held
  rw [hlender] at hheld
  obtain ⟨serial, hholding⟩ := hheld
  refine ⟨?_, serial, ?_⟩
  · rw [h.attached_eq]
    exact Vec.mode_eq_borrowed.2 ⟨_, _, hholding⟩
  · rw [hholding]
    change Holding.borrowed ⟨_, _, _, f.payload.length / f.kind.width, _⟩ region = _
    rw [hf.length_div]
    rfl

/-- Without a lender in place, what is placed is owned. -/
theorem Placed.owned (hplain : source.shares = false)
    (h : w.Placed buffers source lender inPlace start f field) (hl : lender = none ∨ inPlace = false) :
    w.OwnsCopy buffers field := by
  have hlender : lenderInPlace lender inPlace f.kind
      (source.sub (f.elementsAt start) f.payload.length) = none := by
    unfold lenderInPlace
    rcases hl with rfl | rfl
    · split_ifs <;> rfl
    · rfl
  have hheld := h.held
  rw [hlender] at hheld
  obtain ⟨buffer, hbuffer, hholding⟩ :=
    (heldFrom_of_plain (r := source.sub (f.elementsAt start) f.payload.length) hplain).1 hheld
  refine ⟨?_, _, hholding, hbuffer, rfl, ?_⟩
  · rw [h.attached_eq]
    exact Vec.mode_eq_owned.2 ⟨_, hholding⟩
  · intro view hview
    rw [viewOf_of_owned hholding] at hview
    cases hview
    exact ⟨rfl, rfl⟩

/-- The fields of a bundle, placed one after another, borrow one after another. -/
theorem borrowsInPlace_of_placedFrom (hb : source.offset % boundary = 0)
    (hend : start + (fs.flatMap FieldReading.bytes).length ≤ source.length)
    (hf : ProperFrom start fs) (h : w.PlacedFrom buffers source (some region) true start fs fields) :
    ∃ views, w.BorrowsInPlace source region fields views ∧
      ∀ view ∈ views, source.offset + start < view.offset := by
  induction fs generalizing start fields with
  | nil =>
    obtain rfl : fields = [] := h
    exact ⟨[], ⟨by simp, .nil, by simp, by simp, .nil⟩, by simp⟩
  | cons f fs ih =>
    obtain ⟨field, rest, rfl, hfield, hrest⟩ := h
    rw [List.flatMap_cons, List.length_append] at hend
    obtain ⟨views, hviews, hbehind⟩ := ih (by omega) hf.2 hrest
    obtain ⟨hattached, serial, hholding⟩ := hfield.borrowed hf.1 hb
    have hmod : f.elementsAt start % boundary = 0 := hf.1.elementsAt_mod
    have hlength := f.length_bytes
    have hpayload := hf.1.payload_length
    -- the field's view, which lies between the start of the field and its end
    let view : View :=
      ⟨f.kind, source.buffer, source.offset + f.elementsAt start, f.size, serial⟩
    have hoffset : view.offset = source.offset + (start + f.description.length + 8) := rfl
    have hview : view.offset + view.byteLength = source.offset + (start + f.bytes.length) := by
      change view.offset + f.size * f.kind.width = _
      rw [hoffset, ← hpayload, hlength]
      omega
    refine ⟨view :: views, ⟨?_, .cons hholding hviews.holding, ?_, ?_, ?_⟩, ?_⟩
    · exact List.forall_mem_cons.2 ⟨hattached, hviews.attached⟩
    · refine List.forall_mem_cons.2 ⟨⟨?_, ?_⟩, hviews.aligned⟩
      · change (source.offset + f.elementsAt start) % boundary = 0
        rw [Nat.add_mod, hb, hmod]
        rfl
      · change (source.offset + f.elementsAt start - source.offset) % boundary = 0
        rw [Nat.add_sub_cancel_left, hmod]
    · refine List.forall_mem_cons.2 ⟨⟨rfl, ?_, ?_⟩, hviews.inside⟩
      · omega
      · omega
    · refine List.pairwise_cons.2 ⟨fun later hlater => ?_, hviews.ordered⟩
      rw [hview]
      exact hbehind later hlater
    · refine List.forall_mem_cons.2 ⟨by omega, fun later hlater => ?_⟩
      have hlater' := hbehind later hlater
      omega

theorem ownsCopy_of_placedFrom (hplain : source.shares = false) (hl : lender = none ∨ inPlace = false)
    (h : w.PlacedFrom buffers source lender inPlace start fs fields) :
    ∀ field ∈ fields, w.OwnsCopy buffers field := by
  induction fs generalizing start fields with
  | nil =>
    obtain rfl : fields = [] := h
    exact fun field hfield => absurd hfield List.not_mem_nil
  | cons f fs ih =>
    obtain ⟨field, rest, rfl, hfield, hrest⟩ := h
    exact List.forall_mem_cons.2 ⟨hfield.owned hplain hl, ih hrest⟩

end Placed

/-- After every history, a bundle that a reader of plain bytes decodes in place from a region that is still open
is borrowed as a whole, from wherever the reader has come to. A reader without a lender, and one that may not
decode in place, copies all of it. -/
theorem decodes_in_place {limit : AllocationLimit} (history : List Command) (reader : Nat) (policy : Policy)
    (fields : List Bundle.Field) (w' : World)
    (hplain : (((empty limit).performAll history).2.reader reader).source.shares = false)
    (hc : ((empty limit).performAll history).2.memory.Covers
      (((empty limit).performAll history).2.reader reader).source)
    (hshort : (((empty limit).performAll history).2.memory.buffer
      (((empty limit).performAll history).2.reader reader).source.buffer).length < exactBound)
    (hd : Bundle.decode reader policy ((empty limit).performAll history).2 = .ok fields w') :
    (∀ region held, (((empty limit).performAll history).2.reader reader).lender = some region →
      ((empty limit).performAll history).2.lentBytes region = .ok held → policy.read.inPlace = true →
        ∃ views, w'.BorrowsInPlace held region fields views) ∧
    ((((empty limit).performAll history).2.reader reader).lender = none ∨ policy.read.inPlace = false →
      ∀ field ∈ fields, w'.OwnsCopy ((empty limit).performAll history).2.memory.buffers.size field) := by
  have hlends := @lendsOnBoundary_performAll limit history
  generalize ((empty limit).performAll history).2 = w at hplain hc hshort hd hlends
  obtain ⟨before, after, hat⟩ := at_of_decode hc hshort hd
  obtain ⟨r, rest, rfl, -, -, hf, -, -, hplaced⟩ := placedFrom_of_decode hat hd
  refine ⟨?_, fun hl => ownsCopy_of_placedFrom hplain hl hplaced⟩
  intro region held hlender hopen hinPlace
  obtain rfl := hlends.source_eq reader region held hlender (lentBytes_ok hopen)
  rw [hlender, hinPlace] at hplaced
  have hboundary := (hlends.source reader region hlender).resolve_right (by simp [hplain])
  have hlength := length_bytes hc
  rw [hat.bytes] at hlength
  unfold Reading.bytes at hlength
  simp only [List.length_append, Reading.length_header] at hlength
  obtain ⟨views, hviews, -⟩ := borrowsInPlace_of_placedFrom hboundary (by omega) hf hplaced
  exact ⟨views, hviews⟩

/-- A bundle of two bytes and of a field without elements, lent from the second byte of a buffer. One reader
may borrow and the other copies. -/
def lendFromSecondByte : List Command :=
  [.alloc (0 :: (⟨0, [⟨[97], .u8, 1, [0, 0, 0], 2, [7, 9]⟩, ⟨[98], .f64, 3, [0], 0, []⟩]⟩ :
      Reading).bytes),
    .lend ⟨0, 1, 64, false⟩ [], .newBorrower 0, .newReader ⟨0, 1, 64, false⟩]

theorem decodes_in_place_lendFromSecondByte :
    (∃ fields w', Bundle.decode 0 {} (empty.performAll lendFromSecondByte).2 = .ok fields w' ∧
      fields.length = 2 ∧ ∃ views, w'.BorrowsInPlace ⟨1, 0, 64, false⟩ 0 fields views) ∧
    ∃ fields w', Bundle.decode 1 {} (empty.performAll lendFromSecondByte).2 = .ok fields w' ∧
      fields.length = 2 ∧ ∀ field ∈ fields,
        w'.OwnsCopy (empty.performAll lendFromSecondByte).2.memory.buffers.size field := by
  have hborrowed : answer? (Bundle.decode 0 {} (empty.performAll lendFromSecondByte).2) =
      some [⟨[97], 1, 0, .borrowed⟩, ⟨[98], 3, 1, .borrowed⟩] := by decide +kernel
  have hcopied : answer? (Bundle.decode 1 {} (empty.performAll lendFromSecondByte).2) =
      some [⟨[97], 1, 0, .owned⟩, ⟨[98], 3, 1, .owned⟩] := by decide +kernel
  obtain ⟨w₁, hd₁⟩ := exists_of_answer? hborrowed
  obtain ⟨w₂, hd₂⟩ := exists_of_answer? hcopied
  have h₁ := decodes_in_place lendFromSecondByte 0 {} _ w₁ (by decide +kernel)
    ⟨by decide +kernel, by decide +kernel⟩ (by decide +kernel) hd₁
  have h₂ := decodes_in_place lendFromSecondByte 1 {} _ w₂ (by decide +kernel)
    ⟨by decide +kernel, by decide +kernel⟩ (by decide +kernel) hd₂
  exact ⟨⟨_, w₁, hd₁, rfl, h₁.1 0 ⟨1, 0, 64, false⟩ (by decide +kernel)
      (Outcome.of_toOption (by decide +kernel)) rfl⟩,
    _, w₂, hd₂, rfl, h₂.2 (Or.inl (by decide +kernel))⟩

/-- A bundle of two bytes, lent from the second byte of a buffer whose bytes share their slices. -/
def lendSharedFromSecondByte : List Command :=
  [.alloc (0 :: (⟨0, [⟨[97], .u8, 1, [0, 0, 0], 2, [7, 9]⟩]⟩ : Reading).bytes),
    .lend ⟨0, 1, 42, true⟩ [], .newBorrower 0, .newReader ⟨0, 1, 42, true⟩]

/-- What the field of that bundle holds when it has been decoded. -/
def heldByFirst (reader : Nat) : Option Holding :=
  match Bundle.decode reader {} (empty.performAll lendSharedFromSecondByte).2 with
  | .ok _ w' => some (w'.vec 0).holding
  | .error _ _ => none

/-- The bytes are lent from where they are. So the field that is borrowed starts off the boundary, and the one
that is owned has no copy: it starts at the same place in the buffer of the source. -/
theorem shared_slices_stay_off_boundary :
    ((empty.performAll lendSharedFromSecondByte).2.lentBytes 0).toOption = some ⟨0, 1, 42, true⟩ ∧
      heldByFirst 0 = some (.borrowed ⟨.u8, 0, 41, 2, 0⟩ 0) ∧ 41 % boundary ≠ 0 ∧
      heldByFirst 1 = some (.owned ⟨.u8, 0, 41, 2, 2, false⟩) := by
  refine ⟨?_, ?_, ?_, ?_⟩ <;> decide +kernel

end LeaseVec.World
