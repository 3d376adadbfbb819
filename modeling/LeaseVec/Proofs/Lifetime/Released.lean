import LeaseVec.Proofs.Bundle.InPlace
import LeaseVec.Proofs.Bundle.Agreement
import LeaseVec.Proofs.Lifetime.Leases

/-!
# Reading from a closed region

A region's lease is asked for where elements are attached in place. So a read in place is refused once the
region is closed, and nothing has happened to any vector; a bundle, whose fields are all on the boundary, is
refused at its first field. A read that copies does not ask: elements that are not aligned for their kind, and
reads that may not stay in place, still get at the bytes of a region that is closed.
-/

namespace LeaseVec.World

open Number Number.Binary64 LeaseVec.Bundle

variable {w w' : World} {reader vec region : Nat} {stride : Binary64} {policy : ReadPolicy}

theorem isOpen_congr (h : w'.regions = w.regions) (region : Nat) :
    w'.isOpen region = w.isOpen region := by
  unfold isOpen World.region
  rw [h]

/-- When the elements have been found they are taken, and that is all. -/
theorem readField_of_field {s start span offset : Nat} (hs : acceptStride stride = .ok s)
    (hfield : Scan.field (w.vec vec).kind stride policy.bound (w.bytes (w.reader reader).source)
      (w.reader reader).offset = .ok (start, span) offset) :
    readField reader vec stride policy w =
      (takeElements vec ((w.reader reader).source.sub start span) (w.reader reader).lender
        policy.inPlace >>= fun _ => (get : Action World) >>= fun w => pure (w.vec vec).mode)
        (w.movedTo reader offset) := by
  rw [readField_eq, hs]
  change (scan reader _ >>= _) w = _
  rw [Action.bind_ok (scan_ok hfield)]
  change (takeElements vec (((w.movedTo reader offset).reader reader).source.sub start span)
    ((w.movedTo reader offset).reader reader).lender policy.inPlace >>= _) (w.movedTo reader offset) = _
  rw [source_movedTo, lender_movedTo]

/-- A reader over what a region lends, in front of elements that are aligned for a vector, with leave to read
them in place. -/
structure InPlaceFor (w : World) (reader vec region : Nat) (policy : ReadPolicy) : Prop where
  lender : (w.reader reader).lender = some region
  covers : w.memory.Covers (w.reader reader).source
  short : (w.memory.buffer (w.reader reader).source.buffer).length < exactBound
  boundary : (w.reader reader).source.offset % boundary = 0
  inPlace : policy.inPlace = true
  aligned : (w.reader reader).offset % (w.vec vec).kind.width = 0

/-- What such a reader finds is attached, as the very view that it is, or refused. -/
theorem InPlaceFor.readField_eq (h : w.InPlaceFor reader vec region policy) {s start span offset : Nat}
    (hs : acceptStride stride = .ok s)
    (hfield : Scan.field (w.vec vec).kind stride policy.bound (w.bytes (w.reader reader).source)
      (w.reader reader).offset = .ok (start, span) offset) :
    ∃ view w₁, w₁.vecs = w.vecs ∧ w₁.regions = w.regions ∧ readField reader vec stride policy w =
      (attach vec view region >>= fun _ => (get : Action World) >>= fun w => pure (w.vec vec).mode) w₁ := by
  have hlength := length_bytes h.covers
  have hend := h.covers.end_le
  have hshort := h.short
  obtain ⟨hwhole, -⟩ := acceptStride_ok.1 hs
  obtain ⟨rfl, hle, -⟩ := Scan.field_within hwhole (by omega) hfield
  obtain ⟨hcovers, hspan⟩ := holds_of_field hwhole hshort h.covers hfield
  have hlender : lenderInPlace (w.reader reader).lender policy.inPlace (w.vec vec).kind
      ((w.reader reader).source.sub ((w.reader reader).offset + 8) span) = some region := by
    have hdvd := (w.vec vec).kind.width_dvd_eight
    have hsource := hdvd.trans (Nat.dvd_of_mod_eq_zero h.boundary)
    have haligned : (w.vec vec).kind.isAligned ((w.reader reader).source.offset +
        ((w.reader reader).offset + 8)) = true :=
      decide_eq_true (Nat.mod_eq_zero_of_dvd
        (Nat.dvd_add hsource (Nat.dvd_add (Nat.dvd_of_mod_eq_zero h.aligned) hdvd)))
    exact lenderInPlace_eq_some.2 ⟨h.inPlace, haligned, h.lender⟩
  have htake : takeElements vec ((w.reader reader).source.sub ((w.reader reader).offset + 8) span)
      (w.reader reader).lender policy.inPlace (w.movedTo reader offset) = _ :=
    takeElements_of_some hlender hcovers hspan hshort
  exact ⟨_, { w.movedTo reader offset with memory := countView w.memory }, rfl, rfl,
    (readField_of_field hs hfield).trans (Action.bind_congr _ htake)⟩

/-- A region that is closed lends nothing in place. -/
theorem InPlaceFor.ne_ok (h : w.InPlaceFor reader vec region policy) (hended : w.isOpen region = false)
    (mode : Mode) (w' : World) : readField reader vec stride policy w ≠ .ok mode w' := by
  intro hread
  obtain ⟨s, start, span, offset, hs, hfield⟩ := field_of_readField hread
  obtain ⟨view, w₁, -, hregions, heq⟩ := h.readField_eq hs hfield
  rw [heq] at hread
  obtain ⟨u, w₂, hattach, -⟩ := Action.bind_ok_iff.1 hread
  rw [attach_eq, isOpen_congr hregions, hended, if_neg Bool.false_ne_true] at hattach
  split_ifs at hattach

/-- What would have been read in place is refused when the region has been closed. -/
theorem InPlaceFor.refused (h : w.InPlaceFor reader vec region policy) {mode : Mode}
    (hread : readField reader vec stride policy w = .ok mode w') :
    ∃ w₁, readField reader vec stride policy ((close region).after w) =
      .error (.borrowEnded (w.region region).label) w₁ ∧ w₁.vecs = w.vecs := by
  obtain ⟨s, start, span, offset, hs, hfield⟩ := field_of_readField hread
  obtain ⟨view, u, hvecs, hregions, heq⟩ := h.readField_eq hs hfield
  have hclosing : ((close region).after w).InPlaceFor reader vec region policy :=
    ⟨h.lender, h.covers, h.short, h.boundary, h.inPlace, h.aligned⟩
  obtain ⟨view₁, u₁, hvecs₁, hregions₁, heq₁⟩ := hclosing.readField_eq hs hfield
  -- the vector owns nothing, since it has been attached while the region was open
  rw [heq] at hread
  obtain ⟨a, w₂, hattach, -⟩ := Action.bind_ok_iff.1 hread
  rw [attach_eq] at hattach
  split_ifs at hattach with hm ho
  rw [isOpen_congr hregions] at ho
  have hmode : (u₁.vec vec).mode ≠ .owned := by
    unfold World.vec at hm ⊢
    rw [hvecs] at hm
    rw [hvecs₁]
    exact hm
  have hended : u₁.isOpen region = false := by
    rw [isOpen_congr hregions₁]
    unfold isOpen
    rw [region_close, if_pos ⟨rfl, lt_of_isOpen ho⟩]
    rfl
  have hlabel : u₁.ended region = .borrowEnded (w.region region).label := by
    unfold ended World.region
    rw [hregions₁]
    exact congrArg Fault.borrowEnded (label_close region region)
  have hrefused : attach vec view₁ region u₁ = .error (.borrowEnded (w.region region).label) u₁ := by
    rw [attach_eq, if_neg hmode, hended, if_neg Bool.false_ne_true, hlabel]
  exact ⟨u₁, heq₁.trans (Action.bind_error hrefused), hvecs₁⟩

/-- Scans do not look at regions. -/
theorem scan_close {α : Type} {s : Scan α} {a : α} {w₁ : World}
    (h : scan reader s w = .ok a w₁) (region : Nat) :
    scan reader s ((close region).after w) = .ok a ((close region).after w₁) := by
  obtain ⟨offset, hs, rfl⟩ := scan_ok_iff.1 h
  exact scan_ok (w := (close region).after w) hs

theorem newVec_close {kind : Kind} {checked : Bool} {w₁ : World}
    (h : newVec kind checked w = .ok vec w₁) (region : Nat) :
    newVec kind checked ((close region).after w) = .ok vec ((close region).after w₁) := by
  cases h
  rfl

section Bundles

variable {before after : Bytes} {policy : Policy}

/-- The elements of a field of a bundle are read in place, if they may, and closing the region changes nothing
up to there. -/
theorem inPlaceFor_of_decodeField {field : Bundle.Field} (h : w.At reader before after)
    (hl : (w.reader reader).lender = some region)
    (hb : (w.reader reader).source.offset % boundary = 0) (hp : policy.read.inPlace = true)
    (hd : decodeField reader policy w = .ok field w') :
    ∃ w₁ vec stride mode w₂, w₁.InPlaceFor reader vec region policy.read ∧
      readField reader vec stride policy.read w₁ = .ok mode w₂ ∧ w₁.regions = w.regions ∧
      (∀ id, id < w.vecs.size → w₁.vec id = w.vec id) ∧
      ∀ e w₃, readField reader vec stride policy.read ((close region).after w₁) = .error e w₃ →
        decodeField reader policy ((close region).after w) = .error e w₃ := by
  rw [decodeField_eq] at hd
  obtain ⟨head, w₁, hscan, hd⟩ := Action.bind_ok_iff.1 hd
  obtain ⟨vec, w₂, hnew, hd⟩ := Action.bind_ok_iff.1 hd
  obtain ⟨mode, w₃, hread, -⟩ := Action.bind_ok_iff.1 hd
  obtain ⟨offset, hs, -⟩ := scan_ok_iff.1 hscan
  rw [h.bytes, h.offset] at hs
  obtain ⟨p, tail, rfl, ⟨f, hf, rfl, rfl⟩, rfl⟩ := (reads_description before after head offset).1 hs
  obtain ⟨w₁, hscan', hx, hvecs, hat⟩ := h.scan hs
  rw [hscan'] at hscan
  cases hscan
  obtain ⟨w₂, hnew', hx₂, hstands, -, hself⟩ := newVec_stands hat.stands f.kind policy.checked
  rw [hnew'] at hnew
  cases hnew
  refine ⟨w₂, w₁.vecs.size, ofNat f.stride, mode, w₃, ⟨?_, hstands.covers, hstands.short, ?_, hp, ?_⟩,
    hread, hx₂.regions.trans (hx 0).regions, fun id hid => ?_, fun e w₄ hrefused => ?_⟩
  · rw [hx₂.lender, (hx 0).lender, hl]
  · rw [hx₂.source, (hx 0).source, hb]
  · have hmod : f.elementsAt before.length % 8 = 0 := hf.elementsAt_mod
    unfold FieldReading.elementsAt at hmod
    rw [hself, hstands.offset_eq, List.length_append]
    refine Nat.mod_eq_zero_of_dvd (f.kind.width_dvd_eight.trans (Nat.dvd_of_mod_eq_zero ?_))
    omega
  · rw [hx₂.vec id (by rwa [hvecs]), (hx w.vecs.size).vec id hid]
  · rw [decodeField_eq, Action.bind_ok (scan_close hscan' region), Action.bind_ok (newVec_close hnew' region)]
    exact Action.bind_error hrefused

/-- A bundle that is decoded in place has fields only while the region is open, and is refused at the first
field when the region has been closed. -/
theorem decode_inPlace {fields : List Bundle.Field} (h : w.At reader before after)
    (hl : (w.reader reader).lender = some region)
    (hb : (w.reader reader).source.offset % boundary = 0) (hp : policy.read.inPlace = true)
    (hd : Bundle.decode reader policy w = .ok fields w') (hfields : fields ≠ []) :
    w.isOpen region = true ∧
      ∃ w₁, Bundle.decode reader policy ((close region).after w) =
        .error (.borrowEnded (w.region region).label) w₁ ∧
          ∀ id, id < w.vecs.size → w₁.vec id = w.vec id := by
  rw [decode_eq] at hd
  obtain ⟨count, w₁, hscan, hd⟩ := Action.bind_ok_iff.1 hd
  obtain ⟨offset, hs, -⟩ := scan_ok_iff.1 hscan
  rw [h.bytes, h.offset] at hs
  obtain ⟨p, tail, rfl, -, rfl⟩ := (reads_header before after count offset).1 hs
  obtain ⟨w₁', hscan', hx, hvecs, hat⟩ := h.scan hs
  rw [hscan'] at hscan
  cases hscan
  cases count with
  | zero =>
    cases hd
    exact (hfields rfl).elim
  | succ count =>
    rw [decodeFields_succ] at hd
    obtain ⟨field, w₂, hfirst, -⟩ := Action.bind_ok_iff.1 hd
    obtain ⟨u, vec, stride, mode, u', hplace, hread, hregions, hvec, hrefuse⟩ :=
      inPlaceFor_of_decodeField hat (by rw [(hx 0).lender, hl]) (by rw [(hx 0).source, hb]) hp hfirst
    obtain ⟨w₃, hrefused, hvecs₃⟩ := hplace.refused hread
    have hsame : u.regions = w.regions := hregions.trans (hx 0).regions
    refine ⟨?_, w₃, ?_, fun id hid => ?_⟩
    · rw [← isOpen_congr hsame]
      by_contra hended
      exact hplace.ne_ok (Bool.eq_false_iff.2 hended) mode u' hread
    · have hlabel : (u.region region).label = (w.region region).label := by
        unfold World.region
        rw [hsame]
      rw [hlabel] at hrefused
      rw [decode_eq, Action.bind_ok (scan_close hscan' region), decodeFields_succ]
      exact Action.bind_error (hrefuse _ _ hrefused)
    · have hid' : id < w₁.vecs.size := by rwa [hvecs]
      unfold World.vec at hvec ⊢
      rw [hvecs₃, hvec id hid', hvecs]

end Bundles

/-- Through a reader of a region, what is read in place is read while the region is open. Once it is closed no
such read succeeds; one that would have succeeded fails for the end of the borrow, and no vector has changed.
Elements can be read in place when they are aligned for the vector, and bundles always can. -/
structure LendsWhileOpen (w : World) (region reader : Nat) : Prop where
  field_open : ∀ vec stride (policy : ReadPolicy) mode w', policy.inPlace = true →
    (w.reader reader).offset % (w.vec vec).kind.width = 0 →
    readField reader vec stride policy w = .ok mode w' → w.isOpen region = true
  field_closed : ∀ vec stride (policy : ReadPolicy) mode w', policy.inPlace = true →
    (w.reader reader).offset % (w.vec vec).kind.width = 0 →
    readField reader vec stride policy w = .ok mode w' →
      ∃ w₁, readField reader vec stride policy (w.perform (.close region)).2 =
        .error (.borrowEnded (w.region region).label) w₁ ∧ w₁.vecs = w.vecs
  bundle_open : ∀ (policy : Policy) fields w', policy.read.inPlace = true →
    Bundle.decode reader policy w = .ok fields w' → fields ≠ [] → w.isOpen region = true
  bundle_closed : ∀ (policy : Policy) fields w', policy.read.inPlace = true →
    Bundle.decode reader policy w = .ok fields w' → fields ≠ [] →
      ∃ w₁, Bundle.decode reader policy (w.perform (.close region)).2 =
        .error (.borrowEnded (w.region region).label) w₁ ∧
          ∀ id, id < w.vecs.size → w₁.vec id = w.vec id

/-- After every history, whatever the bytes in front of a reader of a region are. When these share their slices,
they have to be where plain bytes would have been moved to. -/
theorem lends_while_open {limit : AllocationLimit} (history : List Command) (region reader : Nat)
    (hl : (((empty limit).performAll history).2.reader reader).lender = some region)
    (hshares : (((empty limit).performAll history).2.reader reader).source.shares = true →
      (((empty limit).performAll history).2.reader reader).source.offset % boundary = 0)
    (hc : ((empty limit).performAll history).2.memory.Covers
      (((empty limit).performAll history).2.reader reader).source)
    (hshort : (((empty limit).performAll history).2.memory.buffer
      (((empty limit).performAll history).2.reader reader).source.buffer).length < exactBound) :
    ((empty limit).performAll history).2.LendsWhileOpen region reader := by
  have hb := ((lendsOnBoundary_performAll history).source reader region hl).elim id hshares
  generalize ((empty limit).performAll history).2 = w at hl hc hshort hb
  refine ⟨?_, ?_, ?_, ?_⟩
  · intro vec stride policy mode w' hp ha hread
    by_contra hended
    exact InPlaceFor.ne_ok ⟨hl, hc, hshort, hb, hp, ha⟩ (Bool.eq_false_iff.2 hended) mode w' hread
  · intro vec stride policy mode w' hp ha hread
    rw [perform_close]
    exact InPlaceFor.refused ⟨hl, hc, hshort, hb, hp, ha⟩ hread
  · intro policy fields w' hp hd hfields
    obtain ⟨before, after, hat⟩ := at_of_decode hc hshort hd
    exact (decode_inPlace hat hl hb hp hd hfields).1
  · intro policy fields w' hp hd hfields
    obtain ⟨before, after, hat⟩ := at_of_decode hc hshort hd
    rw [perform_close]
    exact (decode_inPlace hat hl hb hp hd hfields).2

/-- A bundle of two bytes under a lease, a reader in front of it, and one in front of the count of its
elements. -/
def lendBundle : List Command :=
  [.alloc (⟨0, [⟨[97], .u8, 1, [0, 0, 0], 2, [7, 9]⟩]⟩ : Reading).bytes, .lend ⟨0, 0, 42, false⟩ [98],
    .newVec .u8 false, .newBorrower 0, .newBorrower 0, .reader 1 (.copy (ofNat 32))]

theorem lends_while_open_lendBundle :
    (∃ w₁, readField 1 0 (ofNat 1) {} ((empty.performAll lendBundle).2.perform (.close 0)).2 =
      .error (.borrowEnded [98]) w₁ ∧ w₁.vecs = (empty.performAll lendBundle).2.vecs) ∧
    ∃ w₁, Bundle.decode 0 {} ((empty.performAll lendBundle).2.perform (.close 0)).2 =
      .error (.borrowEnded [98]) w₁ := by
  have hfield : answer? (readField 1 0 (ofNat 1) {} (empty.performAll lendBundle).2) =
      some .borrowed := by decide +kernel
  have hbundle : answer? (Bundle.decode 0 {} (empty.performAll lendBundle).2) =
      some [⟨[97], 1, 1, .borrowed⟩] := by decide +kernel
  have hlabel : ((empty.performAll lendBundle).2.region 0).label = [98] := by decide +kernel
  obtain ⟨w₁, hread⟩ := exists_of_answer? hfield
  obtain ⟨w₂, hdecode⟩ := exists_of_answer? hbundle
  have h₁ := (lends_while_open lendBundle 0 1 (by decide +kernel) (by decide +kernel)
    ⟨by decide +kernel, by decide +kernel⟩ (by decide +kernel)).field_closed 0 (ofNat 1) {} _ w₁ rfl (by decide +kernel) hread
  have h₂ := (lends_while_open lendBundle 0 0 (by decide +kernel) (by decide +kernel)
    ⟨by decide +kernel, by decide +kernel⟩ (by decide +kernel)).bundle_closed {} _ w₂ rfl hdecode (by decide)
  rw [hlabel] at h₁ h₂
  obtain ⟨w₃, hrefused, -⟩ := h₂
  exact ⟨h₁, w₃, hrefused⟩

/-- A region over a byte and a field of one element of two bytes, which starts at the second byte, and a
reader in front of the field. Then the region is closed. -/
def closeOddField : List Command :=
  [.alloc (0 :: (Word.encode 8 1 ++ [5, 0])), .lend ⟨0, 0, 11, false⟩ [98], .newVec .u16 false,
    .newVec .u8 false, .newBorrower 0, .reader 0 (.copy (ofNat 1)), .close 0]

/-- Elements that are not aligned, and elements that may not stay in place, are copied from the region that is
closed. -/
theorem closed_region_is_copied :
    (empty.performAll closeOddField).2.isOpen 0 = false ∧
    ((empty.performAll closeOddField).2.reader 0).lender = some 0 ∧
    answer? ((readField 0 0 (ofNat 1) {} >>= fun mode => (get : Action World) >>= fun w =>
      pure (mode, (w.elements (w.vec 0)).toOption)) (empty.performAll closeOddField).2) =
        some (.owned, some [.number 5]) ∧
    answer? ((readField 0 1 (ofNat 1) { inPlace := false } >>= fun mode =>
      (get : Action World) >>= fun w => pure (mode, (w.elements (w.vec 1)).toOption))
        (empty.performAll closeOddField).2) = some (.owned, some [.number 5]) := by
  refine ⟨?_, ?_, ?_, ?_⟩ <;> decide +kernel

end LeaseVec.World
