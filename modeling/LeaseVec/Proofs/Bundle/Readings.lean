import LeaseVec.Proofs.Bundle.Placement

/-!
# What decoded fields were read from

A bundle that has been decoded stood in front of the reader: its header, and its fields one after another.
The decoded fields have what these parts describe, the reader stands behind them, and every count was below
the bound that was in force.
-/

namespace LeaseVec

open Number

/-- A count that is accepted under a bound. -/
def Permits (bound : Option Scalar) (count : Nat) : Prop :=
  ∃ limit : Int, corruptFrom bound = .ok limit ∧ (count : Int) < limit

namespace World

open LeaseVec.Bundle

variable {w w' : World} {reader : Nat} {before after rest : Bytes} {policy : Policy}

section Placed

variable {buffers start : Nat} {source : ByteRange} {lender : Option Nat} {inPlace : Bool}

/-- The words of a field are those of its bytes, whose number is exact. -/
theorem Placed.decoded {f : FieldReading} {field : Bundle.Field} (hf : f.Proper start)
    (h : w.Placed buffers source lender inPlace start f field) : w.Decoded f field where
  name_eq := h.name_eq
  stride_eq := h.stride_eq
  vec_lt := h.vec_lt
  shows := by
    have hshows := h.shows.showsWords
    rwa [hf.length_div] at hshows

theorem PlacedFrom.decoded {fs : List FieldReading} {fields : List Bundle.Field}
    (hfs : ProperFrom start fs) (h : w.PlacedFrom buffers source lender inPlace start fs fields) :
    List.Forall₂ w.Decoded fs fields := by
  induction fs generalizing start fields with
  | nil =>
    obtain rfl : fields = [] := h
    exact .nil
  | cons f fs ih =>
    obtain ⟨field, rest, rfl, hfirst, hrest⟩ := h
    exact .cons (hfirst.decoded hfs.1) (ih hfs.2 hrest)

end Placed

/-- A field is decoded only when its count may be read. -/
theorem permits_of_decodeField {f : FieldReading} {field : Bundle.Field}
    (h : w.At reader before (f.bytes ++ rest)) (hf : f.Proper before.length)
    (hd : decodeField reader policy w = .ok field w') : Permits policy.read.bound f.count := by
  have h64 : (2 : Nat) ^ 40 < 256 ^ 8 := by decide
  rw [FieldReading.bytes, List.append_assoc, List.append_assoc] at h
  obtain ⟨w₁, hrun, -, hat, -, hvec⟩ := decodeField_description policy h hf.toDescribed
  rw [hrun] at hd
  obtain ⟨mode, w₂, hread, -⟩ := Action.bind_ok_iff.1 hd
  obtain ⟨s, found, span, offset, -, hfield⟩ := field_of_readField hread
  rw [hat.bytes, hat.offset] at hfield
  obtain ⟨n, payload, rest', hbytes, ⟨limit, hlimit, hlt⟩, -⟩ :=
    (Scan.field_ok (whole_stride hf.toDescribed) hat.length_lt).1 hfield
  -- the count that is read is the one of the reading, as words in front of other bytes are told by them
  have hn : n < 2 ^ 40 := by
    have hceiling : (countCeiling : Int) = 2 ^ 40 := by decide
    have hle := corruptFrom_le hlimit
    omega
  obtain ⟨rfl, -⟩ := word_append_inj (hf.count_lt.trans h64) (hn.trans h64) hbytes
  exact ⟨limit, hlimit, hlt⟩

theorem permits_of_decodeFields {fs : List FieldReading} {fields : List Bundle.Field}
    (h : w.At reader before (fs.flatMap FieldReading.bytes ++ rest)) (hfs : ProperFrom before.length fs)
    (hd : decodeFields reader policy fs.length w = .ok fields w') :
    ∀ f ∈ fs, Permits policy.read.bound f.count := by
  induction fs generalizing w w' before fields with
  | nil => simp
  | cons f fs ih =>
    rw [List.flatMap_cons, List.append_assoc] at h
    rw [List.length_cons, decodeFields_succ] at hd
    obtain ⟨field, w₁, hfirst, hd⟩ := Action.bind_ok_iff.1 hd
    obtain ⟨fields', w₂, hrest, -⟩ := Action.bind_ok_iff.1 hd
    have hpermits := permits_of_decodeField h hfs.1 hfirst
    obtain ⟨g, tail, hbytes, hg, -, hat, -⟩ := placed_of_decodeField h hfirst
    obtain ⟨rfl, rfl⟩ := FieldReading.unique hfs.1 hg hbytes
    have htail : ProperFrom (before ++ f.bytes).length fs := by
      rw [List.length_append]
      exact hfs.2
    have hall := ih hat htail hrest
    intro g hg
    rcases List.mem_cons.1 hg with rfl | hg
    · exact hpermits
    · exact hall g hg

/-- What has been decoded: the parts of a bundle that stood in front of the reader. -/
structure ReadAs (w : World) (reader : Nat) (bound : Option Scalar) (before after : Bytes) (r : Reading)
    (fields : List Bundle.Field) : Prop where
  proper : ProperFrom (before.length + headerBytes) r.fields
  passed : ∃ rest, after = r.bytes ++ rest ∧ w.At reader (before ++ r.bytes) rest
  decoded : List.Forall₂ w.Decoded r.fields fields
  permitted : ∀ f ∈ r.fields, Permits bound f.count

/-- A bundle is decoded only from its parts. -/
theorem readAs_of_decode {fields : List Bundle.Field} (h : w.At reader before after)
    (hd : decode reader policy w = .ok fields w') :
    ∃ r, w'.ReadAs reader policy.read.bound before after r fields := by
  obtain ⟨r, rest, rfl, hcount, hspare, hproper, -, hat, hplaced⟩ := placedFrom_of_decode h hd
  have hdecoded := hplaced.decoded hproper
  refine ⟨r, hproper, ⟨rest, rfl, hat⟩, hdecoded, ?_⟩
  rw [Reading.bytes, List.append_assoc] at h
  obtain ⟨w₁, hscan, -, -, hfront⟩ := h.scan (reads_header.ok ⟨hcount, r.spare, hspare, rfl⟩ _)
  rw [decode_eq, Action.bind_ok hscan] at hd
  refine permits_of_decodeFields hfront ?_ hd
  rw [List.length_append, Reading.length_header]
  exact hproper

end World

end LeaseVec
