import LeaseVec.Bundle.Format
import LeaseVec.Proofs.Scan

/-!
# The grammar of bundles

A bundle as the parts that it is put together from, apart from how it is read. Where the padding of a
field ends depends on where the field starts, so a field is well formed at an offset. No byte sequence
goes on with two different readings.
-/

namespace LeaseVec.Bundle

/-- The parts of a field. -/
structure FieldReading where
  name : Bytes
  kind : Kind
  stride : Nat
  padding : Bytes
  count : Nat
  payload : Bytes

/-- The parts of a bundle. The word that is kept free may hold anything. -/
structure Reading where
  spare : Nat
  fields : List FieldReading

namespace FieldReading

/-- What stands in front of the count. -/
def description (f : FieldReading) : Bytes :=
  Word.encode 4 f.name.length ++ (f.name ++ (Word.encode 4 f.kind.code ++
    (Word.encode 4 f.stride ++ f.padding)))

/-- The number of elements. -/
def size (f : FieldReading) : Nat := f.count * f.stride

def bytes (f : FieldReading) : Bytes :=
  f.description ++ (Word.encode 8 f.count ++ f.payload)

/-- The description is well formed where it starts, with a name that the host makes a text of. Any bytes
may stand in the padding. -/
structure Described (f : FieldReading) (start : Nat) : Prop where
  readable : Text.Readable f.name
  stride_pos : 1 ≤ f.stride
  stride_lt : f.stride < 2 ^ 32
  padding_length : f.padding.length = Scan.padding fieldAlign (start + 12 + f.name.length)

theorem Described.name_lt {f : FieldReading} {start : Nat} (hf : f.Described start) :
    f.name.length < 2 ^ 32 := hf.readable.length_lt

/-- The field is well formed where it starts. -/
structure Proper (f : FieldReading) (start : Nat) : Prop extends f.Described start where
  count_lt : f.count < 2 ^ 40
  payload_length : f.payload.length = f.size * f.kind.width

/-- The elements of a field that is well formed are as many as its size says. -/
theorem Proper.length_div {f : FieldReading} {start : Nat} (hf : f.Proper start) :
    f.payload.length / f.kind.width = f.size := by
  rw [hf.payload_length, Nat.mul_div_cancel _ f.kind.width_pos]

end FieldReading

/-- Fields one after another, each well formed where it starts. -/
def ProperFrom : Nat → List FieldReading → Prop
  | _, [] => True
  | start, f :: rest => f.Proper start ∧ ProperFrom (start + f.bytes.length) rest

namespace Reading

/-- The four words in front of the fields. -/
def header (count spare : Nat) : Bytes :=
  Word.encode 4 magic ++ (Word.encode 4 version ++ (Word.encode 4 count ++ Word.encode 4 spare))

def bytes (r : Reading) : Bytes :=
  header r.fields.length r.spare ++ r.fields.flatMap FieldReading.bytes

/-- The bundle is well formed at the start of the input. -/
structure Proper (r : Reading) : Prop where
  count_lt : r.fields.length < 2 ^ 32
  spare_lt : r.spare < 2 ^ 32
  fields : ProperFrom headerBytes r.fields

end Reading

@[simp] theorem Reading.length_header (count spare : Nat) :
    (Reading.header count spare).length = headerBytes := by
  simp only [header, List.length_append, Word.length_encode]
  rfl

/-- A word in front of other bytes is told by them. -/
theorem word_append_inj {width a b : Nat} {x y : Bytes} (ha : a < 256 ^ width) (hb : b < 256 ^ width)
    (h : Word.encode width a ++ x = Word.encode width b ++ y) : a = b ∧ x = y := by
  obtain ⟨hw, hrest⟩ := List.append_inj h (by simp only [Word.length_encode])
  refine ⟨?_, hrest⟩
  rw [← Word.decode_encode_of_lt ha, hw, Word.decode_encode_of_lt hb]

theorem code_lt (k : Kind) : k.code < 256 ^ 4 := by cases k <;> decide

theorem code_inj {k l : Kind} (h : k.code = l.code) : k = l := by
  have hk := Kind.ofCode?_code k
  rw [h, Kind.ofCode?_code] at hk
  exact (Option.some.inj hk).symm

/-- Only one field can start at an offset. -/
theorem FieldReading.unique {f g : FieldReading} {start : Nat} {x y : Bytes} (hf : f.Proper start)
    (hg : g.Proper start) (h : f.bytes ++ x = g.bytes ++ y) : f = g ∧ x = y := by
  have h32 : (2 : Nat) ^ 32 = 256 ^ 4 := by decide
  have h40 : (2 : Nat) ^ 40 < 256 ^ 8 := by decide
  simp only [bytes, description, List.append_assoc] at h
  obtain ⟨hlength, h⟩ := word_append_inj (h32 ▸ hf.name_lt) (h32 ▸ hg.name_lt) h
  obtain ⟨hname, h⟩ := List.append_inj h hlength
  obtain ⟨hcode, h⟩ := word_append_inj (code_lt _) (code_lt _) h
  obtain ⟨hstride, h⟩ := word_append_inj (h32 ▸ hf.stride_lt) (h32 ▸ hg.stride_lt) h
  have hkind := code_inj hcode
  obtain ⟨hpadding, h⟩ := List.append_inj h (by rw [hf.padding_length, hg.padding_length, hlength])
  obtain ⟨hcount, h⟩ := word_append_inj (hf.count_lt.trans h40) (hg.count_lt.trans h40) h
  obtain ⟨hpayload, hrest⟩ := List.append_inj h (by
    rw [hf.payload_length, hg.payload_length, size, size, hcount, hstride, hkind])
  refine ⟨?_, hrest⟩
  cases f
  cases g
  simp only at hname hkind hstride hpadding hcount hpayload
  rw [hname, hkind, hstride, hpadding, hcount, hpayload]

theorem ProperFrom.unique {fs gs : List FieldReading} {start : Nat} {x y : Bytes}
    (hf : ProperFrom start fs) (hg : ProperFrom start gs) (hlength : fs.length = gs.length)
    (h : fs.flatMap FieldReading.bytes ++ x = gs.flatMap FieldReading.bytes ++ y) :
    fs = gs ∧ x = y := by
  induction fs generalizing gs start with
  | nil =>
    cases gs with
    | nil => exact ⟨rfl, h⟩
    | cons g gs => cases hlength
  | cons f fs ih =>
    cases gs with
    | nil => cases hlength
    | cons g gs =>
      simp only [List.flatMap_cons, List.append_assoc] at h
      obtain ⟨rfl, hnext⟩ := FieldReading.unique hf.1 hg.1 h
      obtain ⟨rfl, hrest⟩ := ih hf.2 hg.2 (Nat.succ.inj hlength) hnext
      exact ⟨rfl, hrest⟩

/-- Only one bundle can start an input. -/
theorem Reading.unique {r r' : Reading} {x y : Bytes} (hr : r.Proper) (hr' : r'.Proper)
    (h : r.bytes ++ x = r'.bytes ++ y) : r = r' := by
  have h32 : (2 : Nat) ^ 32 = 256 ^ 4 := by decide
  simp only [bytes, header, List.append_assoc, List.append_cancel_left_eq] at h
  obtain ⟨hcount, h⟩ := word_append_inj (h32 ▸ hr.count_lt) (h32 ▸ hr'.count_lt) h
  obtain ⟨hspare, h⟩ := word_append_inj (h32 ▸ hr.spare_lt) (h32 ▸ hr'.spare_lt) h
  obtain ⟨hfields, -⟩ := hr.fields.unique hr'.fields hcount h
  cases r
  cases r'
  simp only at hspare hfields
  rw [hspare, hfields]

theorem padding_add {n k start : Nat} (h : k % n = 0) :
    Scan.padding n (k + start) = Scan.padding n start := by
  unfold Scan.padding
  rw [Nat.add_mod, h, Nat.zero_add, Nat.mod_mod]

/-- Whether a field is well formed at an offset depends on how far that is from a boundary. -/
theorem FieldReading.proper_add {f : FieldReading} {start k : Nat} (hk : k % fieldAlign = 0) :
    f.Proper (k + start) ↔ f.Proper start := by
  have hpad : Scan.padding fieldAlign (k + start + 12 + f.name.length) =
      Scan.padding fieldAlign (start + 12 + f.name.length) := by
    rw [Nat.add_assoc k, Nat.add_assoc k, padding_add hk]
  constructor
  · intro h
    exact { h with padding_length := h.padding_length.trans hpad }
  · intro h
    exact { h with padding_length := h.padding_length.trans hpad.symm }

theorem properFrom_add {fs : List FieldReading} {start k : Nat} (hk : k % fieldAlign = 0) :
    ProperFrom (k + start) fs ↔ ProperFrom start fs := by
  induction fs generalizing start with
  | nil => exact Iff.rfl
  | cons f fs ih =>
    unfold ProperFrom
    rw [FieldReading.proper_add hk, Nat.add_assoc, ih]

end LeaseVec.Bundle
