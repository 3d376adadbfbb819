import LeaseVec.Proofs.Bundle.Agreement
import LeaseVec.Proofs.Pack.Packing

/-!
# Packed files can be opened

When the numbers of an accepted document fit the words of the format, packing fails only where a disk
does, and what has been packed can be opened: field by field the kind, the stride and the elements are those
of the document. That the strides fit is not asked of a document. A stride of `2 ^ 32` divides a field
without values into groups and is written as zero, which is no stride.
-/

namespace LeaseVec.Pack

open Number Number.Binary64 World

variable {w : World}

/-- A successful run writes a bundle that opens, and a run that fails has been failed by a disk. -/
theorem packed_can_be_opened {store : Nat} {input : Text} (output : Text) {contents : Bytes}
    {specs : List FieldSpec} (hread : w.fileBytes store input = .ok contents)
    (hspecs : read contents = .ok specs) (hcount : specs.length < 2 ^ 32)
    (hf : ∀ f ∈ specs, f.Fits) :
    (∀ n size w', run store input output w = .ok (n, size) w' →
      n = specs.length ∧ ∃ bytes, size = bytes.length ∧ w'.fileBytes store output = .ok bytes ∧
        Opens bytes specs) ∧
    ((∀ f ∈ specs, f.values.length ≤ exactBound) →
      ∀ e w', run store input output w = .error e w' →
        ∃ (d : Disk) (bytes : Bytes), w.store store = .disk d ∧
          (d.replaceImposing output bytes []).1.outcome = .error e ∧ Opens bytes specs) := by
  refine ⟨?_, ?_⟩
  · intro n size w' hrun
    exact run_opens hread hspecs hcount hf hrun
  · intro hshort e w' hrun
    exact run_fails hread hspecs hcount hf hshort hrun

/-- The path of the document. -/
def input : Text := Text.ofString "in"

/-- The path of the bundle. -/
def output : Text := Text.ofString "out"

/-- A memory store with a document in it. -/
def holdingDocument (document : String) : World :=
  let contents := Text.Utf8.encode (Text.ofString document)
  { (default : World) with
    memory := ⟨#[contents], 0, default⟩
    stores := #[.memory [(input, ⟨0, 0, contents.length, false⟩)]] }

/-- Two elements in one group, and a field without values. -/
def pairAndNone : String :=
  "\x7b\"fields\":[\x7b\"name\":\"a\",\"kind\":\"u16\",\"stride\":2,\"values\":[1,258]\x7d," ++
  "\x7b\"name\":\"b\",\"kind\":\"i64\",\"values\":[]\x7d]\x7d"

theorem FieldSpec.fits_of_whole {name : Text} {kind : Kind} {stride : Binary64} {values : List Scalar}
    {s : Nat} (hs : Whole stride s) (hname : Text.Readable (Text.Utf8.encode name))
    (hlt : s < 2 ^ 32) (hcount : values.length / s < 2 ^ 40) :
    (⟨name, kind, stride, values⟩ : FieldSpec).Fits := by
  refine ⟨hname, fun t ht => ?_, fun t ht => ?_⟩
  · rwa [ht.unique hs]
  · rwa [ht.unique hs]

/-- The fields of that document. -/
def pairAndNoneFields : List FieldSpec :=
  [⟨[97], .u16, ofNat 2, [.number 1, .number 258]⟩, ⟨[98], .i64, ofNat 1, []⟩]

theorem fits_of_mem_pairAndNone : ∀ f ∈ pairAndNoneFields, f.Fits := by
  have htwo : Whole (ofNat 2) 2 := whole_ofNat (by decide)
  have hone : Whole (ofNat 1) 1 := whole_ofNat (by decide)
  intro f hf
  rcases List.mem_cons.1 hf with rfl | hf
  · exact FieldSpec.fits_of_whole htwo (by decide) (by decide) (by decide)
  · obtain rfl := List.mem_singleton.1 hf
    exact FieldSpec.fits_of_whole hone (by decide) (by decide) (by decide)

theorem packed_can_be_opened_pairAndNone :
    (holdingDocument pairAndNone).fileBytes 0 input =
        .ok (Text.Utf8.encode (Text.ofString pairAndNone)) ∧
      read (Text.Utf8.encode (Text.ofString pairAndNone)) = .ok pairAndNoneFields ∧
      (∀ f ∈ pairAndNoneFields, f.Fits) ∧
      ∃ w' bytes, run 0 input output (holdingDocument pairAndNone) = .ok (2, 72) w' ∧
        bytes.length = 72 ∧ w'.fileBytes 0 output = .ok bytes ∧ Opens bytes pairAndNoneFields := by
  have hread : (holdingDocument pairAndNone).fileBytes 0 input =
      .ok (Text.Utf8.encode (Text.ofString pairAndNone)) := Outcome.of_toOption (by decide +kernel)
  have hspecs : read (Text.Utf8.encode (Text.ofString pairAndNone)) = .ok pairAndNoneFields :=
    Outcome.of_toOption (by decide +kernel)
  have hanswer : answer? (run 0 input output (holdingDocument pairAndNone)) = some (2, 72) := by
    decide +kernel
  refine ⟨hread, hspecs, fits_of_mem_pairAndNone, ?_⟩
  obtain ⟨w', hrun⟩ := exists_of_answer? hanswer
  obtain ⟨-, bytes, hsize, hwritten, hopens⟩ := (packed_can_be_opened output hread hspecs
    (by decide) fits_of_mem_pairAndNone).1 2 72 w' hrun
  exact ⟨w', bytes, hrun, hsize.symm, hwritten, hopens⟩

/-- A stride of `2 ^ 32` for no values at all. -/
def wideStride : String :=
  "\x7b\"fields\":[\x7b\"name\":\"a\",\"kind\":\"u8\",\"stride\":4294967296,\"values\":[]\x7d]\x7d"

/-- What is written for that document. -/
def zeroStride : Bytes := (⟨0, [⟨[97], .u8, 0, [0, 0, 0], 0, []⟩]⟩ : Bundle.Reading).bytes

/-- The field for which a run has failed, and what is wrong with it. -/
def flawed? {α : Type} : EStateM.Result Fault World α → Option (Text × FieldFlaw)
  | .error (.badField name flaw) _ => some (name, flaw)
  | _ => none

theorem exists_of_flawed? {α : Type} {x : EStateM.Result Fault World α} {name : Text} {flaw : FieldFlaw}
    (h : flawed? x = some (name, flaw)) : ∃ w', x = .error (.badField name flaw) w' := by
  unfold flawed? at h
  split at h
  · cases h
    exact ⟨_, rfl⟩
  · cases h

/-- The document is accepted and packed, and what has been packed cannot be opened. -/
theorem wide_stride_does_not_open :
    read (Text.Utf8.encode (Text.ofString wideStride)) = .ok [⟨[97], .u8, ofNat 4294967296, []⟩] ∧
      (∃ w', run 0 input output (holdingDocument wideStride) = .ok (1, 40) w' ∧
        w'.fileBytes 0 output = .ok zeroStride) ∧
      ∃ w', Bundle.decodeCopy ⟨0, 0, 40, false⟩ {} { (default : World) with memory := ⟨#[zeroStride], 0, default⟩ } =
        .error (.badField [97] .zeroStride) w' := by
  refine ⟨Outcome.of_toOption (by decide +kernel), ?_, ?_⟩
  · have hanswer : answer? (run 0 input output (holdingDocument wideStride)) = some (1, 40) := by
      decide +kernel
    have hwritten : (((run 0 input output).after (holdingDocument wideStride)).fileBytes 0
        output).toOption = some zeroStride := by decide +kernel
    obtain ⟨w', hrun⟩ := exists_of_answer? hanswer
    rw [Action.after_ok hrun] at hwritten
    exact ⟨w', hrun, Outcome.of_toOption hwritten⟩
  · exact exists_of_flawed? (by decide +kernel)

end LeaseVec.Pack
