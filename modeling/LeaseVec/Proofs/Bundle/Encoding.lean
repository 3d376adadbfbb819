import LeaseVec.Proofs.Bundle.Decoding
import LeaseVec.Proofs.Outcome
import LeaseVec.Proofs.Text.Utf8
import Mathlib.Data.List.Forall2

/-!
# What encoding writes

The bytes of encoded fields have a reading as a bundle. A writer is known by the bytes that its parts are
put together to, so each thing pushed adds a part of the grammar behind what is there.
-/

namespace LeaseVec

open Number Number.Binary64

/-- The bytes that the parts of a writer are put together to, and that its length counts. -/
structure Writer.Holds (m : Memory) (writer : Writer) (bytes : Bytes) : Prop where
  toBytes_eq : writer.toBytes m = bytes
  length_eq : writer.length = bytes.length

namespace Writer

variable {m : Memory} {writer : Writer} {bytes : Bytes}

theorem holds_empty (m : Memory) : Writer.empty.Holds m [] := ⟨rfl, rfl⟩

/-- Parts behind those of a writer add what they count. -/
theorem length_of_append {writer' : Writer} {more : List Part}
    (h : writer'.parts.toList = writer.parts.toList ++ more) :
    writer'.length = writer.length + more.foldr (fun p n => p.length + n) 0 := by
  have hfoldr : ∀ (ps : List Part) (n : Nat),
      ps.foldr (fun p n => p.length + n) n = ps.foldr (fun p n => p.length + n) 0 + n := by
    intro ps n
    induction ps with
    | nil => exact (Nat.zero_add n).symm
    | cons q ps ih => rw [List.foldr_cons, List.foldr_cons, ih, Nat.add_assoc]
  unfold length
  rw [h, List.foldr_append, hfoldr]

theorem parts_pushPart (writer : Writer) (p : Part) :
    (writer.pushPart p).parts.toList = writer.parts.toList ++ [p] := Array.toList_push

/-- A word and a part behind it. -/
theorem parts_pushWord_pushPart (writer : Writer) (width n : Nat) (p : Part) :
    ((writer.pushWord width n).pushPart p).parts.toList =
      writer.parts.toList ++ [.literal (Word.encode width n), p] := by
  rw [parts_pushPart]
  unfold pushWord pushLiteral
  rw [parts_pushPart, List.append_assoc]
  rfl

theorem length_pushPart (writer : Writer) (p : Part) :
    (writer.pushPart p).length = writer.length + p.length :=
  length_of_append (writer.parts_pushPart p)

theorem toBytes_pushPart (m : Memory) (writer : Writer) (p : Part) :
    (writer.pushPart p).toBytes m = writer.toBytes m ++ partBytes m p := by
  unfold toBytes Writer.pushPart
  rw [Array.toList_push, List.flatMap_append, List.flatMap_singleton]

theorem Holds.pushPart {p : Part} (h : writer.Holds m bytes)
    (hp : (partBytes m p).length = p.length) :
    (writer.pushPart p).Holds m (bytes ++ partBytes m p) where
  toBytes_eq := by rw [toBytes_pushPart, h.toBytes_eq]
  length_eq := by rw [length_pushPart, h.length_eq, List.length_append, hp]

theorem Holds.pushLiteral (h : writer.Holds m bytes) (x : Bytes) :
    (writer.pushLiteral x).Holds m (bytes ++ x) := h.pushPart (p := .literal x) rfl

theorem Holds.pushWord (h : writer.Holds m bytes) (width n : Nat) :
    (writer.pushWord width n).Holds m (bytes ++ Word.encode width n) := h.pushLiteral _

theorem Holds.push32 {x : Binary64} {n : Nat} (h : writer.Holds m bytes) (hx : Whole x n)
    (hn : n < 2 ^ 32) : (writer.push32 x).Holds m (bytes ++ Word.encode 4 n) := by
  unfold Writer.push32
  rw [hx.wrap, Nat.mod_eq_of_lt hn]
  exact h.pushWord 4 n

/-- A number that fits 64 bits is pushed as it is. -/
theorem push64_natCast (writer : Writer) {n : Nat} (hn : n < 2 ^ 64) : writer.push64 n = writer.pushWord 8 n := by
  unfold Writer.push64
  have hmod : ((n : Int) % 0x10000000000000000).toNat = n := by omega
  rw [hmod]

theorem Holds.push64 {n : Nat} (h : writer.Holds m bytes) (hn : n < 2 ^ 64) :
    (writer.push64 n).Holds m (bytes ++ Word.encode 8 n) := by
  rw [push64_natCast writer hn]
  exact h.pushWord 8 n

theorem Holds.alignTo (h : writer.Holds m bytes) (n : Nat) :
    (writer.alignTo n).Holds m (bytes ++ List.replicate (Scan.padding n bytes.length) 0) := by
  unfold Writer.alignTo
  rw [h.length_eq]
  by_cases hpad : Scan.padding n bytes.length = 0
  · simp only [hpad, if_pos]
    rw [List.replicate_zero, List.append_nil]
    exact h
  · simp only [hpad, if_neg, not_false_eq_true]
    exact h.pushLiteral _

end Writer

namespace World

/-- A field that can be encoded so that it is read back: the name is well formed, has no mark in front and is
one that the host makes a text of, the stride divides the number of elements, and the numbers fit the words
they are written as. A borrowed vector sees its elements as what they are, and its region is open. -/
structure Encodable (w : World) (f : Bundle.Source) : Prop where
  well_formed : Text.isWellFormed f.name = true
  no_mark : f.name.head? ≠ some 0xfeff
  readable : Text.Readable (Text.Utf8.encode f.name)
  stride : ∃ s, Whole f.stride s ∧ 1 ≤ s ∧ s < 2 ^ 32 ∧ s ∣ (w.vec f.vec).size ∧
    (w.vec f.vec).size / s < 2 ^ 40
  borrowed : ∀ view region, (w.vec f.vec).holding = .borrowed view region →
    view.kind = (w.vec f.vec).kind ∧ w.isOpen region = true

variable {w : World} {f : Bundle.Source}

/-- The elements of a vector are there, if they are what they are seen as and nobody has taken them back. -/
theorem exists_viewOf {id : Nat} (hi : w.InBounds)
    (hborrowed : ∀ view region, (w.vec id).holding = .borrowed view region →
      view.kind = (w.vec id).kind ∧ w.isOpen region = true) :
    ∃ view, w.viewOf (w.vec id) = .ok view ∧ view.kind = (w.vec id).kind ∧
      view.length = (w.vec id).size ∧ (w.memory.read view.range).length = view.byteLength := by
  unfold viewOf Vec.size
  cases hh : (w.vec id).holding with
  | empty =>
    refine ⟨_, rfl, rfl, rfl, ?_⟩
    unfold Memory.read
    rw [Bytes.length_slice]
    change min (0 * (w.vec id).kind.width) _ = 0 * (w.vec id).kind.width
    rw [Nat.zero_mul, Nat.zero_min]
  | owned a =>
    have ha : w.storage? (.vec id) = some a := by
      unfold storage?
      simp only [hh]
    have hfits := hi.fits _ a ha
    refine ⟨_, rfl, hi.kind_eq _ a ha, rfl, ?_⟩
    unfold Memory.read
    rw [Bytes.length_slice]
    change min (a.length * a.kind.width) ((w.memory.buffer a.buffer).length - a.offset) =
      a.length * a.kind.width
    have hlength := Nat.mul_le_mul_right a.kind.width hfits.length_le
    have hend := hfits.end_le
    omega
  | borrowed view region =>
    obtain ⟨hkind, hopen⟩ := hborrowed view region hh
    refine ⟨view, if_pos hopen, hkind, rfl, ?_⟩
    exact length_bytes (hi.covers _ (.borrowed id view region hh))

theorem Encodable.view (h : w.Encodable f) (hi : w.InBounds) :
    ∃ view, w.viewOf (w.vec f.vec) = .ok view ∧ view.kind = (w.vec f.vec).kind ∧
      view.length = (w.vec f.vec).size ∧ (w.memory.read view.range).length = view.byteLength :=
  exists_viewOf hi h.borrowed

/-- A field that fits the format: the numbers fit the words they are written as, the stride divides the
number of elements, and the elements are there. Of the name nothing is asked but that the host makes a text
of it. -/
structure Fitting (w : World) (f : Bundle.Source) : Prop where
  readable : Text.Readable (Text.Utf8.encode f.name)
  stride : ∃ s, Whole f.stride s ∧ 1 ≤ s ∧ s < 2 ^ 32 ∧ s ∣ (w.vec f.vec).size ∧
    (w.vec f.vec).size / s < 2 ^ 40
  view : ∃ view, w.viewOf (w.vec f.vec) = .ok view ∧ view.kind = (w.vec f.vec).kind ∧
    view.length = (w.vec f.vec).size ∧ (w.memory.read view.range).length = view.byteLength

theorem Encodable.fitting (h : w.Encodable f) (hi : w.InBounds) : w.Fitting f :=
  ⟨h.readable, h.stride, h.view hi⟩

/-- A reading of a field has what the field to be encoded has. -/
structure Encoded (w : World) (f : Bundle.Source) (r : Bundle.FieldReading) : Prop where
  name_eq : r.name = Text.Utf8.encode f.name
  kind_eq : r.kind = (w.vec f.vec).kind
  stride_eq : Whole f.stride r.stride
  words_eq : ∃ view, w.viewOf (w.vec f.vec) = .ok view ∧ view.kind = (w.vec f.vec).kind ∧
    w.memory.words view = r.words

theorem writeField_ok {v : Vec} {x : Binary64} {s : Nat} {view : View} {writer : Writer}
    (hview : w.viewOf v = .ok view) (hs : Whole x s) (hpos : 1 ≤ s) (hdvd : s ∣ v.size) :
    w.writeField v x writer =
      .ok ((writer.push64 (v.size / s : Nat)).pushPart (.shared view.range)) := by
  rw [writeField_of_even (acceptStride_ok.2 ⟨hs, hpos⟩) hdvd, hview]
  rfl

/-- Only a stride that divides the number of elements is written. -/
theorem dvd_of_writeField {v : Vec} {x : Binary64} {writer writer' : Writer} {s : Nat}
    (h : w.writeField v x writer = .ok writer') (hs : Whole x s) : s ∣ v.size := by
  obtain ⟨t, ht, h⟩ := Outcome.bind_ok_iff.1 h
  obtain ⟨hdvd, -⟩ := Outcome.check_ok_iff.1 h
  rw [hs.unique (acceptStride_ok.1 ht).1]
  exact Nat.dvd_of_mod_eq_zero (not_not.1 hdvd)

/-- Only elements that are there are written. -/
theorem viewOf_of_writeField {v : Vec} {x : Binary64} {writer writer' : Writer}
    (h : w.writeField v x writer = .ok writer') : ∃ view, w.viewOf v = .ok view := by
  obtain ⟨t, -, h⟩ := Outcome.bind_ok_iff.1 h
  obtain ⟨-, h⟩ := Outcome.check_ok_iff.1 h
  obtain ⟨view, hview, -⟩ := Outcome.bind_ok_iff.1 h
  exact ⟨view, hview⟩

/-- Every field of a bundle has been written. -/
theorem exists_writeSource_of_encode {fields : List Bundle.Source} {bytes : Bytes}
    (h : Bundle.encode w fields = .ok bytes) :
    ∀ f ∈ fields, ∃ writer writer', Bundle.writeSource w writer f = .ok writer' := by
  obtain ⟨writer, hrun, -⟩ := Outcome.bind_ok_iff.1 h
  clear h
  generalize Bundle.writeHeader fields.length = start at hrun
  induction fields generalizing start with
  | nil => simp
  | cons f fields ih =>
    rw [List.foldlM_cons] at hrun
    obtain ⟨next, hfirst, hrest⟩ := Outcome.bind_ok_iff.1 hrun
    intro g hg
    rcases List.mem_cons.1 hg with rfl | hg
    · exact ⟨start, next, hfirst⟩
    · exact ih next hrest g hg

theorem dvd_of_encode {fields : List Bundle.Source} {bytes : Bytes}
    (h : Bundle.encode w fields = .ok bytes) :
    ∀ f ∈ fields, ∀ s, Whole f.stride s → s ∣ (w.vec f.vec).size := by
  intro f hf s hs
  obtain ⟨writer, writer', hwrite⟩ := exists_writeSource_of_encode h f hf
  exact dvd_of_writeField hwrite hs

/-- A description is written as the grammar has it, with zeros as padding. -/
theorem holds_writeDescription {m : Memory} {writer : Writer} {before : Bytes} {name : Text}
    {kind : Kind} {x : Binary64} {s : Nat} (h : writer.Holds m before) (hs : Whole x s)
    (hlt : s < 2 ^ 32) {r : Bundle.FieldReading} (hname : r.name = Text.Utf8.encode name)
    (hkind : r.kind = kind) (hstride : r.stride = s)
    (hpadding : r.padding = List.replicate
      (Scan.padding Bundle.fieldAlign (before.length + 12 + r.name.length)) 0) :
    (Bundle.writeDescription writer name kind x).Holds m (before ++ r.description) := by
  have hpushed := ((((h.pushWord 4 (Text.Utf8.encode name).length).pushLiteral
    (Text.Utf8.encode name)).pushWord 4 kind.code).push32 hs hlt).alignTo Bundle.fieldAlign
  unfold Bundle.FieldReading.description
  rw [hpadding, hname, hkind, hstride]
  simp only [List.append_assoc, List.length_append, Word.length_encode] at hpushed ⊢
  have hoffset : before.length + (4 + ((Text.Utf8.encode name).length + (4 + 4))) =
      before.length + 12 + (Text.Utf8.encode name).length := by omega
  rw [hoffset] at hpushed
  exact hpushed

/-- A field whose elements a view shows is written as the grammar has it. -/
theorem writeSource_of_view {writer : Writer} {before : Bytes} {r : Bundle.FieldReading} {view : View}
    (hw : writer.Holds w.memory before) (hname : r.name = Text.Utf8.encode f.name)
    (hkind : r.kind = (w.vec f.vec).kind) (hs : Whole f.stride r.stride) (hpos : 1 ≤ r.stride)
    (hlt : r.stride < 2 ^ 32) (hpadding : r.padding = List.replicate
      (Scan.padding Bundle.fieldAlign (before.length + 12 + r.name.length)) 0)
    (hdvd : r.stride ∣ (w.vec f.vec).size) (hcount : r.count = (w.vec f.vec).size / r.stride)
    (hbound : r.count < 2 ^ 64) (hview : w.viewOf (w.vec f.vec) = .ok view)
    (hread : (w.memory.read view.range).length = view.byteLength)
    (hpayload : r.payload = w.memory.read view.range) :
    ∃ writer', Bundle.writeSource w writer f = .ok writer' ∧
      writer'.Holds w.memory (before ++ r.bytes) := by
  have hdescription := holds_writeDescription hw hs hlt hname hkind rfl hpadding
  have hfield := (hdescription.push64 hbound).pushPart (p := .shared view.range) hread
  rw [List.append_assoc, List.append_assoc] at hfield
  have hbytes : r.bytes = r.description ++ (Word.encode 8 r.count ++
      Writer.partBytes w.memory (.shared view.range)) := by
    unfold Bundle.FieldReading.bytes
    rw [hpayload]
    rfl
  rw [← hbytes, hcount] at hfield
  exact ⟨_, writeField_ok hview hs hpos hdvd, hfield⟩

/-- A field is written so that it has a reading where it starts. -/
theorem writeSource_ok {writer : Writer} {before : Bytes} (h : w.Fitting f)
    (hw : writer.Holds w.memory before) :
    ∃ (r : Bundle.FieldReading) (writer' : Writer), Bundle.writeSource w writer f = .ok writer' ∧
      writer'.Holds w.memory (before ++ r.bytes) ∧ r.Proper before.length ∧ w.Encoded f r := by
  obtain ⟨s, hs, hpos, hlt, hdvd, hcount⟩ := h.stride
  obtain ⟨view, hview, hkind, hlength, hread⟩ := h.view
  let r : Bundle.FieldReading :=
    { name := Text.Utf8.encode f.name
      kind := (w.vec f.vec).kind
      stride := s
      padding := List.replicate (Scan.padding Bundle.fieldAlign
        (before.length + 12 + (Text.Utf8.encode f.name).length)) 0
      count := (w.vec f.vec).size / s
      payload := w.memory.read view.range }
  have hsize : r.size = view.length := (Nat.div_mul_cancel hdvd).trans hlength.symm
  obtain ⟨writer', hwrite, hw'⟩ := writeSource_of_view (r := r) hw rfl rfl hs hpos hlt rfl hdvd rfl
    (hcount.trans (by decide)) hview hread rfl
  refine ⟨r, writer', hwrite, hw', ⟨⟨h.readable, hpos, hlt, ?_⟩, hcount, ?_⟩, rfl, rfl, hs, view, hview,
    hkind, ?_⟩
  · exact List.length_replicate
  · rw [hsize]
    change (w.memory.read view.range).length = view.length * (w.vec f.vec).kind.width
    rw [hread, ← hkind]
    rfl
  · unfold Bundle.FieldReading.words
    rw [hsize]
    change Word.split view.kind.width _ _ = Word.split (w.vec f.vec).kind.width _ _
    rw [hkind]

/-- Fields are written one behind the other. -/
theorem writeSources_ok {fields : List Bundle.Source} {writer : Writer} {before : Bytes}
    (h : ∀ f ∈ fields, w.Fitting f) (hw : writer.Holds w.memory before) :
    ∃ (rs : List Bundle.FieldReading) (writer' : Writer),
      fields.foldlM (Bundle.writeSource w) writer = .ok writer' ∧
      writer'.Holds w.memory (before ++ rs.flatMap Bundle.FieldReading.bytes) ∧
      Bundle.ProperFrom before.length rs ∧ List.Forall₂ w.Encoded fields rs := by
  induction fields generalizing writer before with
  | nil =>
    refine ⟨[], writer, rfl, ?_, trivial, List.Forall₂.nil⟩
    rwa [List.flatMap_nil, List.append_nil]
  | cons f fields ih =>
    obtain ⟨r, writer₁, hwrite, hw₁, hproper, hencoded⟩ :=
      writeSource_ok (h f List.mem_cons_self) hw
    obtain ⟨rs, writer₂, hrest, hw₂, hall, hmatch⟩ :=
      ih (fun g hg => h g (List.mem_cons_of_mem _ hg)) hw₁
    refine ⟨r :: rs, writer₂, ?_, ?_, ⟨hproper, ?_⟩, List.Forall₂.cons hencoded hmatch⟩
    · rw [List.foldlM_cons, hwrite]
      exact hrest
    · rwa [List.flatMap_cons, ← List.append_assoc]
    · rwa [List.length_append] at hall

theorem holds_writeHeader (m : Memory) (count : Nat) :
    (Bundle.writeHeader count).Holds m (Bundle.Reading.header count 0) := by
  have hpushed := ((((Writer.holds_empty m).pushWord 4 Bundle.magic).pushWord 4
    Bundle.version).pushWord 4 count).pushWord 4 0
  simp only [List.append_assoc, List.nil_append] at hpushed
  exact hpushed

/-- Fields that fit are encoded, and what is written has a reading as a bundle. -/
theorem encode_of_fitting {fields : List Bundle.Source} (h : ∀ f ∈ fields, w.Fitting f)
    (hcount : fields.length < 2 ^ 32) :
    ∃ r : Bundle.Reading, Bundle.encode w fields = .ok r.bytes ∧ r.Proper ∧
      List.Forall₂ w.Encoded fields r.fields := by
  obtain ⟨rs, writer, hrun, hw, hproper, hall⟩ :=
    writeSources_ok h (holds_writeHeader w.memory fields.length)
  have hlength := hall.length_eq
  rw [Bundle.Reading.length_header] at hproper
  refine ⟨⟨0, rs⟩, ?_, ⟨by rwa [← hlength], Nat.two_pow_pos 32, hproper⟩, hall⟩
  unfold Bundle.encode Bundle.Reading.bytes
  rw [hrun, ← hlength, ← hw.toBytes_eq]
  rfl

/-- Encoding succeeds, and what it writes has a reading as a bundle. -/
theorem encode_ok {fields : List Bundle.Source} (h : ∀ f ∈ fields, w.Encodable f)
    (hcount : fields.length < 2 ^ 32) (hi : w.InBounds) :
    ∃ r : Bundle.Reading, Bundle.encode w fields = .ok r.bytes ∧ r.Proper ∧
      List.Forall₂ w.Encoded fields r.fields :=
  encode_of_fitting (fun f hf => (h f hf).fitting hi) hcount

end World

end LeaseVec
