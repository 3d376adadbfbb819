import LeaseVec.Proofs.Bundle.Acceptance

/-!
# Where decoded elements lie

A field's elements follow its description and its count, and the padding puts them at a multiple of the
alignment from the start of the input, whatever names and elements came before. A vector that takes them in
place gets the view of exactly these bytes, and one that copies them gets a new buffer that holds nothing
else. Nothing is asked of the input, of the bound on counts or of the lender: what is said here follows from
decoding having succeeded.
-/

namespace LeaseVec

open Number Number.Binary64

/-- The padding up to a multiple ends at that multiple. -/
theorem Scan.add_padding_mod {n : Nat} (offset : Nat) (hn : 0 < n) :
    (offset + Scan.padding n offset) % n = 0 := by
  have hlt := Nat.mod_lt offset hn
  unfold Scan.padding
  rw [Nat.add_mod, Nat.mod_mod]
  rcases Nat.eq_zero_or_pos (offset % n) with hz | hpos
  · rw [hz, Nat.sub_zero, Nat.mod_self, Nat.zero_add, Nat.zero_mod]
  · rw [Nat.mod_eq_of_lt (a := n - offset % n) (by omega), Nat.add_sub_cancel' hlt.le, Nat.mod_self]

namespace Bundle

/-- Where the elements of a field start when the field starts at an offset. -/
def FieldReading.elementsAt (f : FieldReading) (start : Nat) : Nat := start + f.description.length + 8

theorem FieldReading.length_bytes (f : FieldReading) :
    f.bytes.length = f.description.length + 8 + f.payload.length := by
  unfold bytes
  rw [List.length_append, List.length_append, Word.length_encode, Nat.add_assoc]

theorem FieldReading.length_description (f : FieldReading) :
    f.description.length = 12 + f.name.length + f.padding.length := by
  unfold description
  simp only [List.length_append, Word.length_encode]
  omega

/-- The padding puts the elements of a field on the boundary. -/
theorem FieldReading.Described.elementsAt_mod {f : FieldReading} {start : Nat}
    (hf : f.Described start) : f.elementsAt start % fieldAlign = 0 := by
  have hpadded := Scan.add_padding_mod (n := fieldAlign) (start + 12 + f.name.length) (by decide)
  unfold elementsAt
  rw [f.length_description, hf.padding_length,
    show start + (12 + f.name.length + Scan.padding fieldAlign (start + 12 + f.name.length)) =
      start + 12 + f.name.length + Scan.padding fieldAlign (start + 12 + f.name.length) by omega]
  rw [Nat.add_mod, hpadded]
  rfl

end Bundle

namespace World

open LeaseVec.Bundle

variable {w w' : World} {n : Nat}

variable {reader : Nat} {before after rest : Bytes}

/-- The elements of a field have been read into a vector from right behind their count. -/
structure ReadsElements (w : World) (reader vec : Nat) (inPlace : Bool) (before : Bytes) (n : Nat)
    (payload rest : Bytes) (w' : World) : Prop where
  extended : w.Extends vec w'
  size_eq : w'.vecs.size = w.vecs.size
  stands : w'.At reader (before ++ (Word.encode 8 n ++ payload)) rest
  held : HeldFrom w.memory.buffers.size
    ((w.reader reader).source.sub (before.length + 8) payload.length) (w.vec vec).kind
    (lenderInPlace (w.reader reader).lender inPlace (w.vec vec).kind
      ((w.reader reader).source.sub (before.length + 8) payload.length)) (w'.vec vec).holding
  shows : w'.ShowsBytes vec (w.vec vec).kind payload

/-- Reading a field finds whole elements behind a count below the ceiling, and takes just these. -/
theorem readsElements_of_readField {vec s : Nat} {stride : Binary64} {policy : ReadPolicy}
    {mode : Mode} (h : w.At reader before after) (hvec : vec < w.vecs.size) (hs : Whole stride s)
    (hread : readField reader vec stride policy w = .ok mode w') :
    ∃ n payload rest, after = Word.encode 8 n ++ (payload ++ rest) ∧ n < 2 ^ 40 ∧
      payload.length = n * s * (w.vec vec).kind.width ∧ mode = (w'.vec vec).mode ∧
      w.ReadsElements reader vec policy.inPlace before n payload rest w' := by
  obtain ⟨t, start, span, offset, ht, hfield⟩ := field_of_readField hread
  rw [h.bytes, h.offset] at hfield
  obtain ⟨n, payload, rest, rfl, ⟨limit, hlimit, hn⟩, hpay, rfl, rfl, rfl⟩ :=
    (Scan.field_ok hs h.length_lt).1 hfield
  have hceiling : (countCeiling : Int) = 2 ^ 40 := by decide
  have hcount := corruptFrom_le hlimit
  obtain ⟨w₁, hfound, hx, hvecs, hat, hcovers, hshort, hbytes⟩ := readField_found h ht hfield
  rw [hfound] at hread
  obtain ⟨u, w₂, htake, hmode⟩ := Action.bind_ok_iff.1 hread
  cases hmode
  have hv : w₁.vec vec = w.vec vec := by
    unfold World.vec
    rw [hvecs]
  have hwhole : payload.length % (w₁.vec vec).kind.width = 0 := by
    rw [hv, hpay, Nat.mul_mod_left]
  have hlodges := lodges_of_takeElements (by rw [hvecs]; exact hvec) hcovers hwhole hshort htake
  have hheld := hlodges.held
  have hshows := hlodges.shows
  rw [hv] at hheld
  rw [hbytes, hv] at hshows
  exact ⟨n, payload, rest, rfl, by omega, hpay, rfl, (hx vec).trans hlodges.takes.extended,
    by rw [hlodges.takes.size_eq, hvecs], hat.takes hlodges.takes, hheld.mono (hx 0).size_le, hshows⟩

/-- Where a decoded field is: it has what its reading has, its vector shows the bytes of the elements, and
these lie in the source of the reader, or in a buffer behind the given ones. -/
structure Placed (w : World) (buffers : Nat) (source : ByteRange) (lender : Option Nat)
    (inPlace : Bool) (start : Nat) (f : FieldReading) (field : Bundle.Field) : Prop where
  name_eq : field.name = Text.Utf8.decode f.name
  stride_eq : field.stride = f.stride
  vec_lt : field.vec < w.vecs.size
  attached_eq : field.attached = (w.vec field.vec).mode
  held : HeldFrom buffers (source.sub (f.elementsAt start) f.payload.length) f.kind
    (lenderInPlace lender inPlace f.kind (source.sub (f.elementsAt start) f.payload.length))
    (w.vec field.vec).holding
  shows : w.ShowsBytes field.vec f.kind f.payload

section Placed

variable {buffers start : Nat} {source : ByteRange} {lender : Option Nat} {inPlace : Bool}
  {f : FieldReading} {field : Bundle.Field}

theorem Placed.extends (h : w.Placed buffers source lender inPlace start f field)
    (hx : w.Extends n w') (hn : w.vecs.size ≤ n) :
    w'.Placed buffers source lender inPlace start f field := by
  have hlt := h.vec_lt.trans_le hn
  refine ⟨h.name_eq, h.stride_eq, h.vec_lt.trans_le hx.vecs_le, ?_, ?_, h.shows.extends hx hlt⟩
  · rw [hx.vec _ hlt]
    exact h.attached_eq
  · rw [hx.vec _ hlt]
    exact h.held

theorem Placed.mono {buffers' : Nat} (h : w.Placed buffers' source lender inPlace start f field)
    (hle : buffers ≤ buffers') : w.Placed buffers source lender inPlace start f field :=
  { h with held := h.held.mono hle }

end Placed

/-- Decoding a field places it. -/
theorem placed_of_decodeField {policy : Policy} {field : Bundle.Field} (h : w.At reader before after)
    (hd : decodeField reader policy w = .ok field w') :
    ∃ f rest, after = f.bytes ++ rest ∧ f.Proper before.length ∧ w.Extends w.vecs.size w' ∧
      w'.At reader (before ++ f.bytes) rest ∧
      w'.Placed w.memory.buffers.size (w.reader reader).source (w.reader reader).lender
        policy.read.inPlace before.length f field := by
  obtain ⟨head, w₁, hscan, -⟩ := Action.bind_ok_iff.1 (decodeField_eq reader policy ▸ hd)
  obtain ⟨offset, hs, -⟩ := scan_ok_iff.1 hscan
  rw [h.bytes, h.offset] at hs
  obtain ⟨p, tail, rfl, ⟨f, hf, rfl, rfl⟩, -⟩ := (reads_description before after head offset).1 hs
  obtain ⟨w₁, hdecode, hx, hat, hsize, hvec⟩ := decodeField_description policy h hf
  rw [hdecode] at hd
  obtain ⟨mode, w₂, hread, hd⟩ := Action.bind_ok_iff.1 hd
  cases hd
  obtain ⟨n, payload, rest, rfl, hn, hpay, rfl, hreads⟩ :=
    readsElements_of_readField hat hsize (whole_stride hf) hread
  have hheld := hreads.held
  have hshows := hreads.shows
  rw [hvec] at hpay hheld hshows
  rw [hx.source, hx.lender, List.length_append] at hheld
  refine ⟨{ f with count := n, payload := payload }, rest, ?_, ⟨⟨hf.readable, hf.stride_pos,
    hf.stride_lt, hf.padding_length⟩, hn, hpay⟩, hx.trans hreads.extended, ?_, ?_⟩
  · unfold FieldReading.bytes
    rw [List.append_assoc, List.append_assoc]
    rfl
  · have hstands := hreads.stands
    rwa [List.append_assoc] at hstands
  · exact ⟨rfl, rfl, by rw [hreads.size_eq]; exact hsize, rfl, hheld.mono hx.size_le, hshows⟩

/-- Fields one after another, each placed where it starts. -/
def PlacedFrom (w : World) (buffers : Nat) (source : ByteRange) (lender : Option Nat)
    (inPlace : Bool) : Nat → List FieldReading → List Bundle.Field → Prop
  | _, [], fields => fields = []
  | start, f :: fs, fields => ∃ field rest, fields = field :: rest ∧
    w.Placed buffers source lender inPlace start f field ∧
      w.PlacedFrom buffers source lender inPlace (start + f.bytes.length) fs rest

theorem PlacedFrom.mono {buffers buffers' start : Nat} {source : ByteRange} {lender : Option Nat}
    {inPlace : Bool} {fs : List FieldReading} {fields : List Bundle.Field}
    (h : w.PlacedFrom buffers' source lender inPlace start fs fields) (hle : buffers ≤ buffers') :
    w.PlacedFrom buffers source lender inPlace start fs fields := by
  induction fs generalizing start fields with
  | nil => exact h
  | cons f fs ih =>
    obtain ⟨field, rest, rfl, hfield, hrest⟩ := h
    exact ⟨field, rest, rfl, hfield.mono hle, ih hrest⟩

/-- Decoding fields places them one after another. -/
theorem placedFrom_of_decodeFields {policy : Policy} {count : Nat} {fields : List Bundle.Field}
    (h : w.At reader before after) (hd : decodeFields reader policy count w = .ok fields w') :
    ∃ fs rest, after = fs.flatMap FieldReading.bytes ++ rest ∧ fs.length = count ∧
      ProperFrom before.length fs ∧ w.Extends w.vecs.size w' ∧
      w'.At reader (before ++ fs.flatMap FieldReading.bytes) rest ∧
      w'.PlacedFrom w.memory.buffers.size (w.reader reader).source (w.reader reader).lender
        policy.read.inPlace before.length fs fields := by
  induction count generalizing w before after fields with
  | zero =>
    cases hd
    exact ⟨[], after, rfl, rfl, trivial, Extends.refl .., by simpa using h, rfl⟩
  | succ count ih =>
    rw [decodeFields_succ] at hd
    obtain ⟨field, w₁, hfirst, hd⟩ := Action.bind_ok_iff.1 hd
    obtain ⟨fields', w₂, hrest, hd⟩ := Action.bind_ok_iff.1 hd
    cases hd
    obtain ⟨f, tail, rfl, hf, hx, hat, hplaced⟩ := placed_of_decodeField h hfirst
    obtain ⟨fs, rest, rfl, rfl, hfs, hx₂, hat₂, hall⟩ := ih hat hrest
    rw [List.length_append] at hfs hall
    rw [hx.source, hx.lender] at hall
    refine ⟨f :: fs, rest, by rw [List.flatMap_cons, List.append_assoc], rfl, ⟨hf, hfs⟩,
      hx.trans (hx₂.mono hx.vecs_le), ?_, field, fields', rfl, hplaced.extends hx₂ le_rfl,
      hall.mono hx.size_le⟩
    rwa [List.flatMap_cons, ← List.append_assoc]

/-- A bundle is decoded only where there is room for its header. -/
theorem at_of_decode {policy : Policy} {fields : List Bundle.Field}
    (hc : w.memory.Covers (w.reader reader).source)
    (hshort : (w.memory.buffer (w.reader reader).source.buffer).length < exactBound)
    (hd : Bundle.decode reader policy w = .ok fields w') :
    ∃ before after, w.At reader before after := by
  rw [decode_eq] at hd
  obtain ⟨count, w₁, hscan, -⟩ := Action.bind_ok_iff.1 hd
  obtain ⟨offset, hs, -⟩ := scan_ok_iff.1 hscan
  have hroom : ¬ (w.bytes (w.reader reader).source).length - (w.reader reader).offset <
      headerBytes := by
    intro hlt
    rw [scanHeader_eq, if_pos hlt] at hs
    cases hs
  have hheader : headerBytes = 16 := rfl
  refine ⟨(w.bytes (w.reader reader).source).take (w.reader reader).offset,
    (w.bytes (w.reader reader).source).drop (w.reader reader).offset, ?_, hc, hshort,
    (List.take_append_drop ..).symm, ?_⟩
  · rcases Nat.lt_or_ge reader w.readers.size with hlt | hge
    · exact hlt
    · have hnone : (w.reader reader).source.length = 0 := by
        unfold World.reader
        rw [Array.getD_eq_getD_getElem?, Array.getElem?_eq_none hge]
        rfl
      rw [length_bytes hc, hnone] at hroom
      omega
  · rw [List.length_take]
    omega

/-- Decoding a bundle places its fields behind its header. -/
theorem placedFrom_of_decode {policy : Policy} {fields : List Bundle.Field}
    (h : w.At reader before after) (hd : Bundle.decode reader policy w = .ok fields w') :
    ∃ (r : Reading) (rest : Bytes), after = r.bytes ++ rest ∧ r.fields.length < 2 ^ 32 ∧
      r.spare < 2 ^ 32 ∧ ProperFrom (before.length + headerBytes) r.fields ∧
      w.Extends w.vecs.size w' ∧ w'.At reader (before ++ r.bytes) rest ∧
      w'.PlacedFrom w.memory.buffers.size (w.reader reader).source (w.reader reader).lender
        policy.read.inPlace (before.length + headerBytes) r.fields fields := by
  rw [decode_eq] at hd
  obtain ⟨count, w₁, hscan, hd⟩ := Action.bind_ok_iff.1 hd
  obtain ⟨offset, hs, -⟩ := scan_ok_iff.1 hscan
  rw [h.bytes, h.offset] at hs
  obtain ⟨p, tail, rfl, ⟨hcount, spare, hspare, rfl⟩, rfl⟩ :=
    (reads_header before after count offset).1 hs
  obtain ⟨w₁', hscan', hx, hvecs, hat⟩ := h.scan hs
  rw [hscan'] at hscan
  cases hscan
  obtain ⟨fs, rest, rfl, rfl, hfs, hx₂, hat₂, hall⟩ := placedFrom_of_decodeFields hat hd
  rw [List.length_append, Reading.length_header] at hfs hall
  rw [(hx 0).source, (hx 0).lender] at hall
  refine ⟨⟨spare, fs⟩, rest, (List.append_assoc ..).symm, hcount, hspare, hfs,
    (hx _).trans (hx₂.mono (hx 0).vecs_le), ?_, hall.mono (hx 0).size_le⟩
  rwa [List.append_assoc] at hat₂

end World

end LeaseVec
