import LeaseVec.Proofs.Bundle.Readers
import LeaseVec.Proofs.Bundle.Scans

/-!
# Decoding follows the grammar

What stands in front of a reader is decoded when it has a reading, and only then. The lemmas come in
pairs, one for each direction, along the functions that decode: the elements of a field, a field, fields
one after another, a bundle.
-/

namespace LeaseVec.Bundle

open Number Number.Binary64

/-- The words of the elements. -/
def FieldReading.words (f : FieldReading) : List Nat :=
  Word.split f.kind.width f.size f.payload

end LeaseVec.Bundle

namespace LeaseVec.World

open Number Number.Binary64 LeaseVec.Bundle

variable {w w' : World} {reader : Nat} {before after rest : Bytes}

theorem readField_eq (reader vec : Nat) (stride : Binary64) (policy : ReadPolicy) :
    readField reader vec stride policy = (Action.ofExcept (acceptStride stride) >>= fun _ =>
      (get : Action World) >>= fun w =>
        scan reader (Scan.field (w.vec vec).kind stride policy.bound) >>= fun found =>
          (get : Action World) >>= fun w =>
            takeElements vec ((w.reader reader).source.sub found.1 found.2)
                (w.reader reader).lender policy.inPlace >>= fun _ =>
              (get : Action World) >>= fun w => pure (w.vec vec).mode) := rfl

/-- Only elements that have been found are read. -/
theorem field_of_readField {vec : Nat} {stride : Binary64} {policy : ReadPolicy} {mode : Mode}
    (h : readField reader vec stride policy w = .ok mode w') :
    ∃ s start span offset, acceptStride stride = .ok s ∧
      Scan.field (w.vec vec).kind stride policy.bound (w.bytes (w.reader reader).source)
        (w.reader reader).offset = .ok (start, span) offset := by
  rw [readField_eq] at h
  obtain ⟨s, hs, h⟩ := Action.ofExcept_bind_ok_iff.1 h
  change (scan reader (Scan.field (w.vec vec).kind stride policy.bound) >>= _) w = _ at h
  obtain ⟨⟨start, span⟩, w₁, hscan, -⟩ := Action.bind_ok_iff.1 h
  obtain ⟨offset, hfield, -⟩ := scan_ok_iff.1 hscan
  exact ⟨s, start, span, offset, hs, hfield⟩

/-- Without a bound of the reader's own, counts are below the ceiling. -/
theorem field_ok_of_no_bound {kind : Kind} {stride : Binary64} {s start span offset : Nat}
    (hs : Whole stride s) (hlen : (before ++ after).length < exactBound) :
    Scan.field kind stride none (before ++ after) before.length = .ok (start, span) offset ↔
      ∃ n payload rest, after = Word.encode 8 n ++ (payload ++ rest) ∧ n < 2 ^ 40 ∧
        payload.length = n * s * kind.width ∧ span = payload.length ∧
        start = before.length + 8 ∧ offset = start + span := by
  have hceiling : countCeiling = 2 ^ 40 := by decide
  rw [Scan.field_ok hs hlen]
  constructor
  · rintro ⟨n, payload, rest, hafter, ⟨limit, hlimit, hn⟩, hrest⟩
    cases hlimit
    exact ⟨n, payload, rest, hafter, by omega, hrest⟩
  · rintro ⟨n, payload, rest, hafter, hn, hrest⟩
    exact ⟨n, payload, rest, hafter, ⟨_, rfl, by omega⟩, hrest⟩

/-- Taking elements leaves readers where they are. -/
theorem At.takes {vec : Nat} {r : ByteRange} {lender : Option Nat} {inPlace : Bool}
    (h : w.At reader before after) (ht : w.Takes vec r lender inPlace w') :
    w'.At reader before after := by
  refine h.extends ht.extended rfl ?_
  unfold World.reader
  rw [ht.readers_eq]
  exact h.offset

/-- When a field has been found, the reader has moved over the count and the elements, and these are taken. -/
theorem readField_found {vec s n : Nat} {stride : Binary64} {policy : ReadPolicy} {payload : Bytes}
    (h : w.At reader before (Word.encode 8 n ++ (payload ++ rest))) (hs : acceptStride stride = .ok s)
    (hfield : Scan.field (w.vec vec).kind stride policy.bound
      (before ++ (Word.encode 8 n ++ (payload ++ rest))) before.length =
        .ok (before.length + 8, payload.length) (before.length + 8 + payload.length)) :
    ∃ w₁, readField reader vec stride policy w =
        (takeElements vec ((w.reader reader).source.sub (before.length + 8) payload.length)
          (w.reader reader).lender policy.inPlace >>= fun _ =>
            (get : Action World) >>= fun w => pure (w.vec vec).mode) w₁ ∧
      (∀ n, w.Extends n w₁) ∧ w₁.vecs = w.vecs ∧
      w₁.At reader (before ++ (Word.encode 8 n ++ payload)) rest ∧
      w₁.memory.Covers ((w.reader reader).source.sub (before.length + 8) payload.length) ∧
      (w₁.memory.buffer (w.reader reader).source.buffer).length < exactBound ∧
      w₁.bytes ((w.reader reader).source.sub (before.length + 8) payload.length) = payload := by
  have hend : before.length + 8 + payload.length =
      before.length + (Word.encode 8 n ++ payload).length := by
    rw [List.length_append, Word.length_encode, Nat.add_assoc]
  rw [hend, ← List.append_assoc (Word.encode 8 n)] at hfield
  rw [← List.append_assoc (Word.encode 8 n)] at h
  obtain ⟨w₁, hscan, hx, hvecs, hat⟩ := h.scan hfield
  obtain ⟨hcovers, hbytes⟩ := hat.sub (x := before ++ Word.encode 8 n) (q := payload) (y := rest)
    (by simp only [List.append_assoc])
  have hshort := hat.short
  rw [(hx 0).source] at hcovers hbytes hshort
  rw [List.length_append, Word.length_encode] at hcovers hbytes
  refine ⟨w₁, ?_, hx, hvecs, hat, hcovers, hshort, hbytes⟩
  rw [readField_eq, hs]
  change (scan reader _ >>= _) w = _
  rw [Action.bind_ok hscan]
  change (takeElements vec ((w₁.reader reader).source.sub _ _) (w₁.reader reader).lender _ >>= _) w₁ = _
  rw [(hx 0).source, (hx 0).lender]

/-- Elements behind their count are taken by a vector that owns none. -/
theorem readField_ok {vec s n : Nat} {stride : Binary64} {policy : ReadPolicy} {payload : Bytes}
    (h : w.At reader before (Word.encode 8 n ++ (payload ++ rest))) (hvec : vec < w.vecs.size)
    (hl : w.Serves reader policy.inPlace) (hm : (w.vec vec).mode ≠ .owned)
    (hbound : policy.bound = none) (hs : Whole stride s) (hpos : 1 ≤ s) (hn : n < 2 ^ 40)
    (hpay : payload.length = n * s * (w.vec vec).kind.width) :
    ∃ w', readField reader vec stride policy w = .ok (w'.vec vec).mode w' ∧ w.Extends vec w' ∧
      w'.vecs.size = w.vecs.size ∧
      w'.At reader (before ++ (Word.encode 8 n ++ payload)) rest ∧
      w'.ShowsWords vec (w.vec vec).kind
        (Word.split (w.vec vec).kind.width (n * s) payload) := by
  have hfield : Scan.field (w.vec vec).kind stride policy.bound
      (before ++ (Word.encode 8 n ++ (payload ++ rest))) before.length =
      .ok (before.length + 8, payload.length) (before.length + 8 + payload.length) := by
    rw [hbound]
    exact (field_ok_of_no_bound hs h.length_lt).2 ⟨n, payload, rest, rfl, hn, hpay, rfl, rfl, rfl⟩
  obtain ⟨w₁, hread, hx, hvecs, hat, hcovers, hshort, hbytes⟩ :=
    readField_found h (acceptStride_ok.2 ⟨hs, hpos⟩) hfield
  have hv : w₁.vec vec = w.vec vec := by
    unfold World.vec
    rw [hvecs]
  have hwhole : payload.length % (w₁.vec vec).kind.width = 0 := by
    rw [hv, hpay, Nat.mul_mod_left]
  have hcan : policy.inPlace = true → ∀ region, (w.reader reader).lender = some region →
      w₁.isOpen region = true := by
    rw [← (hx 0).lender]
    exact (hl.extends (hx 0)).lends
  obtain ⟨w₂, htake, htakes⟩ := takeElements_takes
    (r := (w.reader reader).source.sub (before.length + 8) payload.length) (w.reader reader).lender
    policy.inPlace hl.plain (by rw [hvecs]; exact hvec) (by rwa [hv]) hcovers hwhole hshort hcan
  refine ⟨w₂, hread.trans (Action.bind_ok htake), (hx vec).trans htakes.extended,
    by rw [htakes.size_eq, hvecs], hat.takes htakes, ?_⟩
  have hshows := htakes.shows
  rw [hv, hbytes] at hshows
  change w₂.ShowsWords vec _ (Word.split _ (payload.length / _) payload) at hshows
  rwa [hpay, Nat.mul_div_cancel _ (w.vec vec).kind.width_pos] at hshows

/-- A decoded field has what its reading describes. -/
structure Decoded (w : World) (f : FieldReading) (field : Bundle.Field) : Prop where
  name_eq : field.name = Text.Utf8.decode f.name
  stride_eq : field.stride = f.stride
  vec_lt : field.vec < w.vecs.size
  shows : w.ShowsWords field.vec f.kind f.words

theorem Decoded.extends {n : Nat} {f : FieldReading} {field : Bundle.Field} (h : w.Decoded f field)
    (hx : w.Extends n w') (hn : w.vecs.size ≤ n) : w'.Decoded f field where
  name_eq := h.name_eq
  stride_eq := h.stride_eq
  vec_lt := h.vec_lt.trans_le hx.vecs_le
  shows := h.shows.extends hx (h.vec_lt.trans_le hn)

theorem decodeField_eq (reader : Nat) (policy : Policy) :
    decodeField reader policy = (scan reader scanDescription >>= fun head =>
      newVec head.kind policy.checked >>= fun vec =>
        readField reader vec (ofNat head.stride) policy.read >>= fun mode =>
          pure ⟨head.name, head.stride, vec, mode⟩) := rfl

theorem whole_stride {f : FieldReading} {start : Nat} (hf : f.Described start) :
    Whole (ofNat f.stride) f.stride := by
  have hbig : 2 ^ 32 ≤ exactBound := by decide
  exact whole_ofNat (hf.stride_lt.le.trans hbig)

/-- Behind its description, a field is read into a new vector of the kind described. -/
theorem decodeField_description {f : FieldReading} (policy : Policy)
    (h : w.At reader before (f.description ++ rest)) (hf : f.Described before.length) :
    ∃ w₁, decodeField reader policy w =
        (readField reader w.vecs.size (ofNat f.stride) policy.read >>= fun mode =>
          pure ⟨Text.Utf8.decode f.name, f.stride, w.vecs.size, mode⟩) w₁ ∧
      w.Extends w.vecs.size w₁ ∧ w₁.At reader (before ++ f.description) rest ∧
      w.vecs.size < w₁.vecs.size ∧ w₁.vec w.vecs.size = .new f.kind policy.checked := by
  obtain ⟨w₁, hscan, hx, hvecs, hat⟩ := h.scan (reads_description.ok ⟨f, hf, rfl, rfl⟩ rest)
  have hnew : newVec f.kind policy.checked w₁ = .ok w.vecs.size
      { w₁ with vecs := w₁.vecs.push (.new f.kind policy.checked) } := by
    rw [← hvecs]
    rfl
  have hx₁ := extends_newVec w₁ f.kind policy.checked (n := w.vecs.size) (by rw [hvecs])
  refine ⟨_, ?_, (hx _).trans hx₁, hat.extends hx₁ rfl hat.offset, ?_, ?_⟩
  · rw [decodeField_eq, Action.bind_ok hscan, Action.bind_ok hnew]
  · rw [Array.size_push, hvecs]
    omega
  · rw [vec_push, if_pos (by rw [hvecs])]

/-- What has a reading as a field is decoded as that field. -/
theorem decodeField_ok {f : FieldReading} {policy : Policy}
    (h : w.At reader before (f.bytes ++ rest)) (hl : w.Serves reader policy.read.inPlace)
    (hf : f.Proper before.length) (hbound : policy.read.bound = none) :
    ∃ field w', decodeField reader policy w = .ok field w' ∧ w.Extends w.vecs.size w' ∧
      w'.At reader (before ++ f.bytes) rest ∧ w'.Decoded f field := by
  unfold FieldReading.bytes at h
  rw [List.append_assoc, List.append_assoc] at h
  obtain ⟨w₁, hdecode, hx, hat, hsize, hvec⟩ := decodeField_description policy h hf.toDescribed
  obtain ⟨w₂, hread, hx₂, hsize₂, hat₂, hshows⟩ := readField_ok hat hsize (hl.extends hx)
    (by rw [hvec]; exact Mode.noConfusion) hbound (whole_stride hf.toDescribed) hf.stride_pos hf.count_lt
    (by rw [hvec]; exact hf.payload_length)
  refine ⟨⟨Text.Utf8.decode f.name, f.stride, w.vecs.size, (w₂.vec w.vecs.size).mode⟩, w₂, ?_,
    hx.trans hx₂, ?_, ?_⟩
  · rw [hdecode, Action.bind_ok hread]
    rfl
  · rwa [List.append_assoc] at hat₂
  · rw [hvec] at hshows
    exact ⟨rfl, rfl, by rw [hsize₂]; exact hsize, hshows⟩

theorem decodeFields_succ (reader : Nat) (policy : Policy) (count : Nat) :
    decodeFields reader policy (count + 1) = (decodeField reader policy >>= fun field =>
      decodeFields reader policy count >>= fun fields => pure (field :: fields)) := rfl

theorem decodeFields_ok {fs : List FieldReading} {policy : Policy}
    (h : w.At reader before (fs.flatMap FieldReading.bytes ++ rest))
    (hl : w.Serves reader policy.read.inPlace) (hf : ProperFrom before.length fs)
    (hbound : policy.read.bound = none) :
    ∃ fields w', decodeFields reader policy fs.length w = .ok fields w' ∧
      w.Extends w.vecs.size w' ∧ w'.At reader (before ++ fs.flatMap FieldReading.bytes) rest ∧
      List.Forall₂ w'.Decoded fs fields := by
  induction fs generalizing w before with
  | nil =>
    refine ⟨[], w, rfl, Extends.refl .., ?_, List.Forall₂.nil⟩
    rwa [List.flatMap_nil, List.append_nil]
  | cons f fs ih =>
    rw [List.flatMap_cons, List.append_assoc] at h
    obtain ⟨field, w₁, hfirst, hx, hat, hdecoded⟩ := decodeField_ok h hl hf.1 hbound
    have hnext := hf.2
    rw [← List.length_append] at hnext
    obtain ⟨fields, w₂, hrest, hx₂, hat₂, hall⟩ := ih hat (hl.extends hx) hnext
    refine ⟨field :: fields, w₂, ?_, hx.trans (hx₂.mono hx.vecs_le), ?_, ?_⟩
    · rw [List.length_cons, decodeFields_succ, Action.bind_ok hfirst, Action.bind_ok hrest]
      rfl
    · rwa [List.flatMap_cons, ← List.append_assoc]
    · exact List.Forall₂.cons (hdecoded.extends hx₂ le_rfl) hall

theorem decode_eq (reader : Nat) (policy : Policy) :
    Bundle.decode reader policy =
      (scan reader scanHeader >>= fun count => decodeFields reader policy count) := rfl

/-- At a multiple of the alignment, what has a reading as a bundle is decoded as that bundle. -/
theorem decode_ok {r : Reading} {policy : Policy} (h : w.At reader before (r.bytes ++ rest))
    (hl : w.Serves reader policy.read.inPlace) (hr : r.Proper) (halign : before.length % fieldAlign = 0)
    (hbound : policy.read.bound = none) :
    ∃ fields w', Bundle.decode reader policy w = .ok fields w' ∧ w.Extends w.vecs.size w' ∧
      w'.At reader (before ++ r.bytes) rest ∧ List.Forall₂ w'.Decoded r.fields fields := by
  unfold Reading.bytes at h
  rw [List.append_assoc] at h
  obtain ⟨w₁, hscan, hx, hvecs, hat⟩ :=
    h.scan (reads_header.ok ⟨hr.count_lt, r.spare, hr.spare_lt, rfl⟩ _)
  have hfields : ProperFrom (before ++ Reading.header r.fields.length r.spare).length r.fields := by
    rw [List.length_append, Reading.length_header, properFrom_add halign]
    exact hr.fields
  obtain ⟨fields, w₂, hrun, hx₂, hat₂, hall⟩ :=
    decodeFields_ok hat (hl.extends (hx 0)) hfields hbound
  refine ⟨fields, w₂, ?_, (hx _).trans (hx₂.mono (hx 0).vecs_le), ?_, hall⟩
  · rw [decode_eq, Action.bind_ok hscan, hrun]
  · rwa [List.append_assoc] at hat₂

end LeaseVec.World
