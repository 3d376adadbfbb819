import LeaseVec.Proofs.Bundle.Encoding
import LeaseVec.Proofs.Bundle.Placement
import LeaseVec.Proofs.Text.Validity

/-!
# What decoding loses

Decoding forgets the word that is kept free, the bytes of the padding, how a name was written that is no
well-formed text or has a mark in front, and what stands behind the bundle. It forgets nothing else, so
bytes are encoded again as they were exactly when none of this was there to be forgotten.
-/

namespace LeaseVec.Bundle

open Number Number.Binary64

/-- Nothing of a field is lost: the padding is zero, and the name is well-formed text without a mark in
front. -/
structure FieldReading.Canonical (f : FieldReading) : Prop where
  padding : ∀ b ∈ f.padding, b = 0
  name_valid : f.name.toByteArray.IsValidUTF8
  name_mark : ¬ Text.Utf8.mark <+: f.name

/-- Nothing of a bundle is lost. -/
structure Reading.Canonical (r : Reading) : Prop where
  spare : r.spare = 0
  fields : ∀ f ∈ r.fields, f.Canonical

/-- A field as it is written again where it starts. -/
def FieldReading.rewritten (f : FieldReading) (start : Nat) : FieldReading :=
  let name := Text.Utf8.encode (Text.Utf8.decode f.name)
  { f with
    name := name
    padding := List.replicate (Scan.padding fieldAlign (start + 12 + name.length)) 0 }

/-- Fields as they are written again one after another. -/
def rewrittenFrom : Nat → List FieldReading → List FieldReading
  | _, [] => []
  | start, f :: rest => f.rewritten start :: rewrittenFrom (start + (f.rewritten start).bytes.length) rest

namespace FieldReading

variable {f : FieldReading} {start : Nat}

/-- A field is the one that is written again when nothing of it is lost. -/
theorem rewritten_eq_iff (hf : f.Described start) : f.rewritten start = f ↔ f.Canonical := by
  constructor
  · intro h
    have hname : Text.Utf8.encode (Text.Utf8.decode f.name) = f.name := congrArg FieldReading.name h
    have hpadding : List.replicate _ 0 = f.padding := congrArg FieldReading.padding h
    obtain ⟨hvalid, hmark⟩ := Text.Utf8.encode_decode_eq_iff.1 hname
    refine ⟨?_, hvalid, hmark⟩
    rw [← hpadding]
    exact fun b hb => List.eq_of_mem_replicate hb
  · intro h
    have hname := Text.Utf8.encode_decode_eq_iff.2 ⟨h.name_valid, h.name_mark⟩
    have hpadding := List.eq_replicate_of_mem h.padding
    rw [hf.padding_length] at hpadding
    unfold rewritten
    cases f
    simp only at hname hpadding
    rw [hname, hpadding]

/-- A field is written again alike only with the same name, as the lengths of names are written as words. -/
theorem rewritten_name (hf : f.Described start) {x y : Bytes}
    (h : (f.rewritten start).bytes ++ x = f.bytes ++ y) : (f.rewritten start).name = f.name := by
  have h32 : (2 : Nat) ^ 32 = 256 ^ 4 := by decide
  have hlt := hf.name_lt
  unfold bytes description at h
  simp only [List.append_assoc] at h
  obtain ⟨hword, h⟩ := List.append_inj h (by rw [Word.length_encode, Word.length_encode])
  have hmod : (f.rewritten start).name.length % 2 ^ 32 = f.name.length := by
    have hdecode := congrArg Word.decode hword
    rwa [Word.decode_encode, Word.decode_encode_of_lt (h32 ▸ hlt), Nat.pow_eq, ← h32] at hdecode
  refine (List.append_inj h ?_).1
  -- if the text were longer by a multiple of `2 ^ 32`, the name would be the start of it
  by_contra hne
  have hle : f.name.length ≤ (f.rewritten start).name.length := hmod ▸ Nat.mod_le ..
  have hprefix : f.name <+: (f.rewritten start).name :=
    List.prefix_of_prefix_length_le ⟨_, rfl⟩ ⟨_, h⟩ hle
  have hshort : (f.rewritten start).name.length ≤ f.name.length + 16 :=
    Text.Utf8.length_encode_decode_le hprefix
  omega

/-- What is written again starts with the bytes of the field only if nothing of it is lost. -/
theorem rewritten_bytes_iff (hf : f.Proper start) {x y : Bytes} :
    (f.rewritten start).bytes ++ x = f.bytes ++ y ↔ f.Canonical ∧ x = y := by
  constructor
  · intro h
    have hname := rewritten_name hf.toDescribed h
    have hproper : (f.rewritten start).Proper start :=
      ⟨⟨hname ▸ hf.readable, hf.stride_pos, hf.stride_lt, List.length_replicate⟩, hf.count_lt,
        hf.payload_length⟩
    obtain ⟨hsame, hrest⟩ := FieldReading.unique hproper hf h
    exact ⟨(rewritten_eq_iff hf.toDescribed).1 hsame, hrest⟩
  · rintro ⟨hcanonical, rfl⟩
    rw [(rewritten_eq_iff hf.toDescribed).2 hcanonical]

end FieldReading

/-- The same for fields one after another. -/
theorem rewrittenFrom_bytes_iff {fs : List FieldReading} {start : Nat} (hf : ProperFrom start fs)
    {x y : Bytes} :
    (rewrittenFrom start fs).flatMap FieldReading.bytes ++ x = fs.flatMap FieldReading.bytes ++ y ↔
      (∀ f ∈ fs, f.Canonical) ∧ x = y := by
  induction fs generalizing start with
  | nil =>
    unfold rewrittenFrom
    simp
  | cons f fs ih =>
    unfold rewrittenFrom
    rw [List.flatMap_cons, List.flatMap_cons, List.append_assoc, List.append_assoc,
      FieldReading.rewritten_bytes_iff hf.1, List.forall_mem_cons, and_assoc]
    refine and_congr_right fun hcanonical => ?_
    rw [(FieldReading.rewritten_eq_iff hf.1.toDescribed).2 hcanonical]
    exact ih hf.2

/-- The same for a bundle, which has nothing behind it where it is written again. -/
theorem Reading.rewritten_bytes_iff {r : Reading} (hr : r.Proper) {rest : Bytes} :
    Reading.header r.fields.length 0 ++
        (rewrittenFrom headerBytes r.fields).flatMap FieldReading.bytes = r.bytes ++ rest ↔
      r.Canonical ∧ rest = [] := by
  have h32 : (2 : Nat) ^ 32 = 256 ^ 4 := by decide
  have hfields := rewrittenFrom_bytes_iff hr.fields (x := []) (y := rest)
  rw [List.append_nil] at hfields
  unfold Reading.bytes
  rw [List.append_assoc]
  constructor
  · intro h
    obtain ⟨hheader, h⟩ := List.append_inj h (by rw [Reading.length_header, Reading.length_header])
    unfold Reading.header at hheader
    simp only [List.append_cancel_left_eq] at hheader
    have hspare := congrArg Word.decode hheader
    rw [Word.decode_encode_of_lt (by decide), Word.decode_encode_of_lt (h32 ▸ hr.spare_lt)] at hspare
    obtain ⟨hall, hrest⟩ := hfields.1 h
    exact ⟨⟨hspare.symm, hall⟩, hrest.symm⟩
  · rintro ⟨⟨hspare, hall⟩, hrest⟩
    rw [hspare, hfields.2 ⟨hall, hrest.symm⟩]

end LeaseVec.Bundle

namespace LeaseVec.World

open Number Number.Binary64 LeaseVec.Bundle

variable {w w' : World}

section Placed

variable {buffers start : Nat} {source : ByteRange} {lender : Option Nat} {inPlace : Bool}

/-- A decoded field is written again with its text as its name and zeros as its padding. -/
theorem Placed.writeSource_ok {f : FieldReading} {field : Bundle.Field} {writer : Writer}
    {before : Bytes} (h : w.Placed buffers source lender inPlace start f field) (hf : f.Proper start)
    (hw : writer.Holds w.memory before) :
    ∃ writer', Bundle.writeSource w writer field.source = .ok writer' ∧
      writer'.Holds w.memory (before ++ (f.rewritten before.length).bytes) := by
  obtain ⟨view, hview, hkind, hcovers, hbytes⟩ := h.shows.view
  have hstride : Whole field.source.stride f.stride := by
    change Whole (ofNat field.stride) f.stride
    rw [h.stride_eq]
    exact whole_stride hf.toDescribed
  have hread : (w.memory.read view.range).length = view.byteLength := length_bytes hcovers
  have hsize : (w.vec field.vec).size = f.size := by
    have hlength : view.length * f.kind.width = f.size * f.kind.width := by
      rw [← hf.payload_length, ← hbytes, ← hkind]
      exact hread.symm
    rw [← length_of_viewOf hview]
    exact Nat.eq_of_mul_eq_mul_right f.kind.width_pos hlength
  have hcount : f.count = (w.vec field.vec).size / f.stride := by
    rw [hsize]
    exact (Nat.mul_div_cancel f.count hf.stride_pos).symm
  have hname : (f.rewritten before.length).name = Text.Utf8.encode field.source.name := by
    change _ = Text.Utf8.encode field.name
    rw [h.name_eq]
    rfl
  exact writeSource_of_view hw hname h.shows.kind_eq.symm hstride hf.stride_pos hf.stride_lt rfl
    (hsize ▸ Dvd.intro_left f.count rfl) hcount (hf.count_lt.trans (by decide)) hview hread hbytes.symm

theorem PlacedFrom.writeSources_ok {fs : List FieldReading} {fields : List Bundle.Field}
    {writer : Writer} {before : Bytes}
    (h : w.PlacedFrom buffers source lender inPlace start fs fields) (hf : ProperFrom start fs)
    (hw : writer.Holds w.memory before) :
    ∃ writer', (fields.map Field.source).foldlM (Bundle.writeSource w) writer = .ok writer' ∧
      writer'.Holds w.memory
        (before ++ (rewrittenFrom before.length fs).flatMap FieldReading.bytes) := by
  induction fs generalizing start fields writer before with
  | nil =>
    obtain rfl : fields = [] := h
    refine ⟨writer, rfl, ?_⟩
    unfold rewrittenFrom
    rwa [List.flatMap_nil, List.append_nil]
  | cons f fs ih =>
    obtain ⟨field, rest, rfl, hfield, hrest⟩ := h
    obtain ⟨writer₁, hfirst, hw₁⟩ := hfield.writeSource_ok hf.1 hw
    obtain ⟨writer₂, hall, hw₂⟩ := ih hrest hf.2 hw₁
    refine ⟨writer₂, ?_, ?_⟩
    · rw [List.map_cons, List.foldlM_cons, hfirst]
      exact hall
    · unfold rewrittenFrom
      rwa [List.flatMap_cons, ← List.append_assoc, ← List.length_append]

theorem PlacedFrom.length_eq {fs : List FieldReading} {fields : List Bundle.Field}
    (h : w.PlacedFrom buffers source lender inPlace start fs fields) : fields.length = fs.length := by
  induction fs generalizing start fields with
  | nil =>
    obtain rfl : fields = [] := h
    rfl
  | cons f fs ih =>
    obtain ⟨field, rest, rfl, -, hrest⟩ := h
    rw [List.length_cons, List.length_cons, ih hrest]

/-- The fields of a decoded bundle are encoded as a bundle. -/
theorem PlacedFrom.encode_ok {r : Reading} {fields : List Bundle.Field}
    (h : w.PlacedFrom buffers source lender inPlace headerBytes r.fields fields) (hr : r.Proper) :
    Bundle.encode w (fields.map Field.source) = .ok (Reading.header r.fields.length 0 ++
      (rewrittenFrom headerBytes r.fields).flatMap FieldReading.bytes) := by
  have hheader := holds_writeHeader w.memory r.fields.length
  obtain ⟨writer, hrun, hw⟩ := h.writeSources_ok hr.fields hheader
  rw [Reading.length_header] at hw
  unfold Bundle.encode
  rw [List.length_map, h.length_eq, hrun, ← hw.toBytes_eq]
  rfl

end Placed

/-- The fields are decoded from bytes with just one reading, and they are encoded. They are encoded as these
bytes when nothing of the reading is lost and nothing stands behind it, and only then. -/
structure EncodesBack (w : World) (fields : List Bundle.Field) (bytes : Bytes) (r : Reading) : Prop where
  reads : r.Proper ∧ r.bytes <+: bytes
  unique : ∀ r' : Reading, r'.Proper → r'.bytes <+: bytes → r' = r
  encoded : ∃ written, Bundle.encode w (fields.map Field.source) = .ok written ∧
    (written = bytes ↔ r.Canonical ∧ r.bytes = bytes)

/-- For bytes that are a bundle and no more, what matters is whether it is canonical. -/
theorem EncodesBack.encode_eq_iff {fields : List Bundle.Field} {r r' : Reading}
    (h : w.EncodesBack fields r.bytes r') (hr : r.Proper) :
    Bundle.encode w (fields.map Field.source) = .ok r.bytes ↔ r.Canonical := by
  obtain rfl := h.unique r hr List.prefix_rfl
  obtain ⟨written, hencode, hiff⟩ := h.encoded
  rw [hencode, Except.ok.injEq, hiff]
  exact and_iff_left rfl

/-- A reader in front of all its bytes decodes fields that are encoded back. -/
theorem encodesBack_of_decode {reader : Nat} {policy : Policy} {fields : List Bundle.Field}
    {bytes : Bytes} (h : w.At reader [] bytes) (hd : Bundle.decode reader policy w = .ok fields w') :
    ∃ r, w'.EncodesBack fields bytes r := by
  obtain ⟨r, rest, rfl, hcount, hspare, hf, -, -, hplaced⟩ := placedFrom_of_decode h hd
  rw [List.length_nil, Nat.zero_add] at hf hplaced
  have hr : r.Proper := ⟨hcount, hspare, hf⟩
  refine ⟨r, ⟨hr, List.prefix_append ..⟩, ?_, _, hplaced.encode_ok hr, ?_⟩
  · rintro r' hr' ⟨rest', hrest'⟩
    exact Reading.unique hr' hr hrest'
  · rw [Reading.rewritten_bytes_iff hr, List.self_eq_append_right]

/-- Whatever bytes are decoded, encoding the decoded fields undoes decoding exactly when the bytes are
canonical. This is so when the fields are copied, and as well when they are borrowed from an open region. -/
theorem decoded_encodes_back :
    (∀ (w : World) (source : ByteRange) (fields : List Bundle.Field) (w' : World),
      w.memory.Covers source → (w.memory.buffer source.buffer).length < exactBound →
      decodeCopy source {} w = .ok fields w' → ∃ r, w'.EncodesBack fields (w.bytes source) r) ∧
    ∀ (w : World) (region : Nat) (held : ByteRange) (fields : List Bundle.Field) (w' : World),
      w.lentBytes region = .ok held → w.memory.Covers held →
      (w.memory.buffer held.buffer).length < exactBound →
      (newBorrower region >>= fun reader => Bundle.decode reader {}) w = .ok fields w' →
      ∃ r, w'.EncodesBack fields (w.bytes held) r := by
  constructor
  · intro w source fields w' hc hshort hd
    obtain ⟨w₁, hnew, hat, -⟩ := at_newReader hc hshort
    rw [decodeCopy_eq, Action.bind_ok hnew] at hd
    exact encodesBack_of_decode hat hd
  · intro w region held fields w' hopen hc hshort hd
    rw [Action.bind_ok (newBorrower_ok hopen)] at hd
    exact encodesBack_of_decode (at_pushReader (some region) hc hshort) hd

/-- A field of one NaN with a payload, and a field without a name and without elements. -/
def noted (spare : Nat) : Reading :=
  ⟨spare, [⟨[0xc3, 0xa9], .f32, 1, [0, 0], 1, [1, 0, 0xa0, 0x7f]⟩, ⟨[], .f64, 3, [], 0, []⟩]⟩

theorem proper_noted {spare : Nat} (h : spare < 2 ^ 32) : (noted spare).Proper :=
  ⟨(by decide : 2 < 2 ^ 32), h,
    ⟨⟨by decide, by decide, by decide, by decide⟩, by decide, by decide⟩,
    ⟨⟨by decide, by decide, by decide, by decide⟩, by decide, by decide⟩, trivial⟩

theorem canonical_noted : (noted 0).Canonical := by
  refine ⟨rfl, List.forall_mem_cons.2 ⟨?_, List.forall_mem_singleton.2 ?_⟩⟩
  · have hname : Text.Utf8.encode (Text.Utf8.decode [0xc3, 0xa9]) = [0xc3, 0xa9] := by decide +kernel
    obtain ⟨hvalid, hmark⟩ := Text.Utf8.encode_decode_eq_iff.1 hname
    exact ⟨by simp, hvalid, hmark⟩
  · have hname : Text.Utf8.encode (Text.Utf8.decode []) = [] := by decide +kernel
    obtain ⟨hvalid, hmark⟩ := Text.Utf8.encode_decode_eq_iff.1 hname
    exact ⟨by simp, hvalid, hmark⟩

/-- A region over such a bundle. -/
def noting (spare : Nat) : World :=
  { (default : World) with
    memory := ⟨#[(noted spare).bytes], 0, default⟩
    regions := #[⟨[], 64, some ⟨0, 0, 64, false⟩⟩] }

theorem decoded_encodes_back_noted :
    (∃ fields w', decodeCopy ⟨0, 0, 64, false⟩ {} (noting 0) = .ok fields w' ∧
      Bundle.encode w' (fields.map Field.source) = .ok (noted 0).bytes) ∧
    (∃ fields w', decodeCopy ⟨0, 0, 64, false⟩ {} (noting 1) = .ok fields w' ∧
      Bundle.encode w' (fields.map Field.source) ≠ .ok (noted 1).bytes) ∧
    ∃ fields w', (newBorrower 0 >>= fun reader => Bundle.decode reader {}) (noting 0) =
        .ok fields w' ∧ (∀ field ∈ fields, field.attached = .borrowed) ∧
      Bundle.encode w' (fields.map Field.source) = .ok (noted 0).bytes := by
  have hcopied : answer? (decodeCopy ⟨0, 0, 64, false⟩ {} (noting 0)) =
      some [⟨[233], 1, 0, .owned⟩, ⟨[], 3, 1, .owned⟩] := by decide +kernel
  have hspare : answer? (decodeCopy ⟨0, 0, 64, false⟩ {} (noting 1)) =
      some [⟨[233], 1, 0, .owned⟩, ⟨[], 3, 1, .owned⟩] := by decide +kernel
  have hborrowed : answer? ((newBorrower 0 >>= fun reader => Bundle.decode reader {})
      (noting 0)) = some [⟨[233], 1, 0, .borrowed⟩, ⟨[], 3, 1, .borrowed⟩] := by decide +kernel
  obtain ⟨w₁, hd₁⟩ := exists_of_answer? hcopied
  obtain ⟨w₂, hd₂⟩ := exists_of_answer? hspare
  obtain ⟨w₃, hd₃⟩ := exists_of_answer? hborrowed
  have hc₀ : (noting 0).memory.Covers ⟨0, 0, 64, false⟩ := ⟨by decide, by decide⟩
  have hc₁ : (noting 1).memory.Covers ⟨0, 0, 64, false⟩ := ⟨by decide, by decide⟩
  obtain ⟨r₁, h₁⟩ := decoded_encodes_back.1 (noting 0) ⟨0, 0, 64, false⟩ _ w₁ hc₀ (by decide) hd₁
  obtain ⟨r₂, h₂⟩ := decoded_encodes_back.1 (noting 1) ⟨0, 0, 64, false⟩ _ w₂ hc₁ (by decide) hd₂
  obtain ⟨r₃, h₃⟩ := decoded_encodes_back.2 (noting 0) 0 ⟨0, 0, 64, false⟩ _ w₃ rfl hc₀ (by decide) hd₃
  have hbytes₀ : (noting 0).bytes ⟨0, 0, 64, false⟩ = (noted 0).bytes := by decide
  have hbytes₁ : (noting 1).bytes ⟨0, 0, 64, false⟩ = (noted 1).bytes := by decide
  rw [hbytes₀] at h₁ h₃
  rw [hbytes₁] at h₂
  refine ⟨⟨_, w₁, hd₁, ?_⟩, ⟨_, w₂, hd₂, ?_⟩, _, w₃, hd₃, by decide, ?_⟩
  · exact (h₁.encode_eq_iff (proper_noted (by decide))).2 canonical_noted
  · intro hencode
    exact absurd ((h₂.encode_eq_iff (proper_noted (by decide))).1 hencode).spare (by decide)
  · exact (h₃.encode_eq_iff (proper_noted (by decide))).2 canonical_noted

end LeaseVec.World
