import LeaseVec.Proofs.Pack.Opening

/-!
# The names of packed fields

A name is written as UTF-8 and read back from it. Two things are lost on the way: a surrogate that stands
alone is written as the replacement character, and a byte-order mark in front is dropped by the reader.
Names that have neither come back as they were, so they still differ from each other and each one finds its
own field. Any other name comes back changed, and it may then meet another one.
-/

namespace LeaseVec.Pack

open Number Number.Binary64 World Text

variable {w : World}

/-- A name that its bytes give back: its surrogates stand in pairs and no mark is in front. -/
def Kept (name : Text) : Prop := name.isWellFormed = true ∧ name.head? ≠ some 0xfeff

/-- Decoded fields carry the names of a document: in order, no name twice, and each name finds the field at
its own position. -/
structure Carries (specs : List FieldSpec) (fields : List Bundle.Field) : Prop where
  names_eq : fields.map (·.name) = specs.map (·.name)
  nodup : (fields.map (·.name)).Nodup
  found : ∀ i (hi : i < specs.length),
    ∃ field, fields[i]? = some field ∧ Bundle.find? fields specs[i].name = some (i, field)

/-- When no name occurs twice, a field is found under its name. -/
theorem find?_getElem {fields : List Bundle.Field} (h : (fields.map (·.name)).Nodup) {i : Nat}
    (hi : i < fields.length) : Bundle.find? fields fields[i].name = some (i, fields[i]) := by
  have hdiffer : fields.Pairwise fun f g => f.name ≠ g.name := List.pairwise_map.1 h
  have hfirst : fields.findIdx? (fun f => decide (f.name = fields[i].name)) = some i := by
    rw [List.findIdx?_eq_some_iff_getElem]
    refine ⟨hi, decide_eq_true rfl, fun j hji hsame => ?_⟩
    have hne := List.pairwise_iff_getElem.1 hdiffer j i (hji.trans hi) hi hji
    exact hne (of_decide_eq_true hsame)
  unfold Bundle.find?
  rw [hfirst]
  simp [hi]

/-- The names as they come back. -/
theorem names_of_unpacks {specs : List FieldSpec} {fields : List Bundle.Field}
    (h : List.Forall₂ (Unpacks w) specs fields) :
    fields.map (·.name) = specs.map fun f => Utf8.decode (Utf8.encode f.name) := by
  induction h with
  | nil => rfl
  | cons hfirst _ ih => rw [List.map_cons, List.map_cons, ih, hfirst.name_eq]

/-- Decoded fields carry the names of a document when every name is given back by its bytes, and only
then. -/
theorem carries_iff {specs : List FieldSpec} {fields : List Bundle.Field}
    (hnodup : (specs.map (·.name)).Nodup) (h : List.Forall₂ (Unpacks w) specs fields) :
    Carries specs fields ↔ ∀ f ∈ specs, Kept f.name := by
  have hnames := names_of_unpacks h
  constructor
  · intro hcarries f hf
    rw [hcarries.names_eq] at hnames
    exact Utf8.decode_encode_eq_iff.1 (List.map_inj_left.1 hnames f hf).symm
  · intro hkept
    have heq : fields.map (·.name) = specs.map (·.name) := by
      rw [hnames]
      exact List.map_congr_left fun f hf => Utf8.decode_encode_eq_iff.2 (hkept f hf)
    refine ⟨heq, by rwa [heq], fun i hi => ?_⟩
    have hi' : i < fields.length := by rwa [← h.length_eq]
    refine ⟨fields[i], List.getElem?_eq_getElem hi', ?_⟩
    have hname : fields[i].name = specs[i].name := by
      have := (h.get hi hi').name_eq
      rw [List.get_eq_getElem, List.get_eq_getElem] at this
      rw [this]
      exact Utf8.decode_encode_eq_iff.2 (hkept _ (List.getElem_mem hi))
    rw [← hname]
    exact find?_getElem (by rwa [heq]) hi'

/-- What a successful run has written is decoded to fields that carry the names of the document when every
name is given back by its bytes, and only then. -/
theorem packed_names_carry {store n size : Nat} {input output : Text} {contents : Bytes}
    {specs : List FieldSpec} {w' : World} (hread : w.fileBytes store input = .ok contents)
    (hspecs : read contents = .ok specs) (hcount : specs.length < 2 ^ 32)
    (hf : ∀ f ∈ specs, f.Fits) (hrun : run store input output w = .ok (n, size) w') :
    ∃ bytes, w'.fileBytes store output = .ok bytes ∧
      ∀ (v : World) (source : ByteRange) (policy : Bundle.Policy), source.shares = false →
        v.memory.Covers source → (v.memory.buffer source.buffer).length < exactBound → v.bytes source = bytes →
        policy.read.bound = none →
        ∃ fields v', Bundle.decodeCopy source policy v = .ok fields v' ∧
          fields.map (·.name) = specs.map (fun f => Utf8.decode (Utf8.encode f.name)) ∧
          (Carries specs fields ↔ ∀ f ∈ specs, Kept f.name) := by
  obtain ⟨-, bytes, -, hwritten, hopens⟩ := run_opens hread hspecs hcount hf hrun
  have hnodup := (accepted_of_read hspecs).2
  refine ⟨bytes, hwritten, ?_⟩
  intro v source policy hplain hc hshort hbytes hbound
  obtain ⟨fields, v', hdecode, hunpacks⟩ := hopens v source policy hplain hc hshort hbytes hbound
  exact ⟨fields, v', hdecode, names_of_unpacks hunpacks, carries_iff hnodup hunpacks⟩

/-- A name with an accent and a pair of surrogates, and one with a mark inside. -/
def accented : String :=
  "\x7b\"fields\":[\x7b\"name\":\"é𝒳\",\"kind\":\"u8\",\"values\":[7]\x7d," ++
  "\x7b\"name\":\"b\\ufeff\",\"kind\":\"u8\",\"values\":[]\x7d]\x7d"

/-- The fields of that document. -/
def accentedFields : List FieldSpec :=
  [⟨[0xe9, 0xd835, 0xdcb3], .u8, ofNat 1, [.number 7]⟩, ⟨[0x62, 0xfeff], .u8, ofNat 1, []⟩]

theorem fits_of_mem_accented : ∀ f ∈ accentedFields, f.Fits := by
  have hone : Whole (ofNat 1) 1 := whole_ofNat (by decide)
  intro f hf
  rcases List.mem_cons.1 hf with rfl | hf
  · exact FieldSpec.fits_of_whole hone (by decide) (by decide) (by decide)
  · obtain rfl := List.mem_singleton.1 hf
    exact FieldSpec.fits_of_whole hone (by decide) (by decide) (by decide)

theorem packed_names_carry_accented :
    ∃ w' bytes, run 0 input output (holdingDocument accented) = .ok (2, 80) w' ∧
      w'.fileBytes 0 output = .ok bytes ∧
      ∀ (v : World) (source : ByteRange), source.shares = false → v.memory.Covers source →
        (v.memory.buffer source.buffer).length < exactBound → v.bytes source = bytes →
        ∃ fields v', Bundle.decodeCopy source {} v = .ok fields v' ∧ Carries accentedFields fields := by
  have hread : (holdingDocument accented).fileBytes 0 input =
      .ok (Utf8.encode (ofString accented)) := Outcome.of_toOption (by decide +kernel)
  have hspecs : read (Utf8.encode (ofString accented)) = .ok accentedFields :=
    Outcome.of_toOption (by decide +kernel)
  have hanswer : answer? (run 0 input output (holdingDocument accented)) = some (2, 80) := by
    decide +kernel
  have hkept : ∀ f ∈ accentedFields, Kept f.name := by
    intro f hf
    rcases List.mem_cons.1 hf with rfl | hf
    · exact ⟨by decide, by decide⟩
    · obtain rfl := List.mem_singleton.1 hf
      exact ⟨by decide, by decide⟩
  obtain ⟨w', hrun⟩ := exists_of_answer? hanswer
  obtain ⟨bytes, hwritten, hdecode⟩ :=
    packed_names_carry hread hspecs (by decide) fits_of_mem_accented hrun
  refine ⟨w', bytes, hrun, hwritten, fun v source hplain hc hshort hbytes => ?_⟩
  obtain ⟨fields, v', hfields, -, hcarries⟩ := hdecode v source {} hplain hc hshort hbytes rfl
  exact ⟨fields, v', hfields, hcarries.2 hkept⟩

/-- Four names that differ. -/
def colliding : String :=
  "\x7b\"fields\":[\x7b\"name\":\"a\",\"kind\":\"u8\",\"values\":[]\x7d," ++
  "\x7b\"name\":\"\\ufeffa\",\"kind\":\"u8\",\"values\":[]\x7d," ++
  "\x7b\"name\":\"\\ud800\",\"kind\":\"u8\",\"values\":[]\x7d," ++
  "\x7b\"name\":\"\\udfff\",\"kind\":\"u8\",\"values\":[]\x7d]\x7d"

/-- What is written for that document. -/
def collidingBundle : Bytes :=
  (⟨0, [⟨Utf8.encode [0x61], .u8, 1, [0, 0, 0], 0, []⟩,
    ⟨Utf8.encode [0xfeff, 0x61], .u8, 1, [], 0, []⟩,
    ⟨Utf8.encode [0xd800], .u8, 1, [0], 0, []⟩,
    ⟨Utf8.encode [0xdfff], .u8, 1, [0], 0, []⟩]⟩ : Bundle.Reading).bytes

/-- The document is accepted and packed. Of the names that come back two are the same and then two again,
and no field is found under the second name or the third. -/
theorem changed_names_collide :
    (∃ specs, read (Utf8.encode (ofString colliding)) = .ok specs ∧
      specs.map (·.name) = [[0x61], [0xfeff, 0x61], [0xd800], [0xdfff]]) ∧
      (∃ w', run 0 input output (holdingDocument colliding) = .ok (4, 112) w' ∧
        w'.fileBytes 0 output = .ok collidingBundle) ∧
      ∃ fields w', Bundle.decodeCopy ⟨0, 0, 112, false⟩ {}
          { (default : World) with memory := ⟨#[collidingBundle], 0, default⟩ } = .ok fields w' ∧
        fields.map (·.name) = [[0x61], [0x61], [0xfffd], [0xfffd]] ∧
        Bundle.find? fields [0xfeff, 0x61] = none ∧ Bundle.find? fields [0xd800] = none := by
  refine ⟨⟨_, Outcome.of_toOption (a := [⟨[0x61], .u8, ofNat 1, []⟩, ⟨[0xfeff, 0x61], .u8, ofNat 1, []⟩,
    ⟨[0xd800], .u8, ofNat 1, []⟩, ⟨[0xdfff], .u8, ofNat 1, []⟩]) (by decide +kernel), rfl⟩, ?_, ?_⟩
  · have hanswer : answer? (run 0 input output (holdingDocument colliding)) = some (4, 112) := by
      decide +kernel
    have hwritten : (((run 0 input output).after (holdingDocument colliding)).fileBytes 0
        output).toOption = some collidingBundle := by decide +kernel
    obtain ⟨w', hrun⟩ := exists_of_answer? hanswer
    rw [Action.after_ok hrun] at hwritten
    exact ⟨w', hrun, Outcome.of_toOption hwritten⟩
  · have hanswer : answer? (Bundle.decodeCopy ⟨0, 0, 112, false⟩ {}
        { (default : World) with memory := ⟨#[collidingBundle], 0, default⟩ }) =
        some [⟨[0x61], 1, 0, .owned⟩, ⟨[0x61], 1, 1, .owned⟩, ⟨[0xfffd], 1, 2, .owned⟩,
          ⟨[0xfffd], 1, 3, .owned⟩] := by decide +kernel
    obtain ⟨w', hdecode⟩ := exists_of_answer? hanswer
    exact ⟨_, w', hdecode, rfl, by decide, by decide⟩

end LeaseVec.Pack
