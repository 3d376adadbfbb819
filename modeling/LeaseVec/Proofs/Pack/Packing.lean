import LeaseVec.Pack.Basic
import LeaseVec.Proofs.Bundle.Acceptance
import LeaseVec.Proofs.Bundle.Encoding
import LeaseVec.Proofs.Pack.Documents
import LeaseVec.Proofs.Scalar.Stored
import LeaseVec.Proofs.World.Stores

/-!
# Packing a document

A run reads the document, builds a vector for every field, encodes the vectors and stores the bytes. Building
cannot fail, encoding fails only when the values of a field do not divide into groups, and storing fails as
the store does. So there are two steps: `encode_opens` says that the vectors of an accepted document whose
numbers fit are encoded to bytes that open again, and `run_opens` and `run_fails` carry that through the run.
-/

namespace LeaseVec.Pack

open Number Number.Binary64 World

variable {w w' : World}

/-- A vector has been built from the values of a field: it owns a buffer that holds their words and nothing
else. -/
structure Built (w : World) (f : FieldSpec) (id : Nat) : Prop where
  lt : id < w.vecs.size
  kind_eq : (w.vec id).kind = f.kind
  stored : ∃ a : Growable, (w.vec id).holding = .owned a ∧ a.kind = f.kind ∧ a.offset = 0 ∧
    a.length = f.values.length ∧ a.buffer < w.memory.buffers.size ∧
    w.memory.buffer a.buffer = Word.concat f.kind.width (f.values.map f.kind.store)

theorem Built.extends {n id : Nat} {f : FieldSpec} (h : Built w f id) (hx : w.Extends n w')
    (hid : id < n) : Built w' f id := by
  obtain ⟨a, hheld, hkind, hoffset, hlength, hlt, hbuffer⟩ := h.stored
  refine ⟨h.lt.trans_le hx.vecs_le, ?_, a, ?_, hkind, hoffset, hlength, hlt.trans_le hx.size_le, ?_⟩
  · rw [hx.vec id hid]
    exact h.kind_eq
  · rw [hx.vec id hid]
    exact hheld
  · rw [hx.buffer _ hlt]
    exact hbuffer

theorem Built.size_eq {id : Nat} {f : FieldSpec} (h : Built w f id) :
    (w.vec id).size = f.values.length := by
  obtain ⟨a, hheld, -, -, hlength, -⟩ := h.stored
  unfold Vec.size
  rw [hheld]
  exact hlength

/-- The elements of such a vector are there, and they are the words of the values. -/
theorem Built.view {id : Nat} {f : FieldSpec} (h : Built w f id) :
    ∃ view, w.viewOf (w.vec id) = .ok view ∧ view.kind = f.kind ∧ view.length = f.values.length ∧
      (w.memory.read view.range).length = view.byteLength ∧
      w.memory.words view = f.values.map f.kind.store := by
  obtain ⟨a, hheld, hkind, hoffset, hlength, -, hbuffer⟩ := h.stored
  have hview : w.viewOf (w.vec id) = .ok (a.data w.memory.views) := viewOf_of_owned hheld
  have hbytes : (Word.concat f.kind.width (f.values.map f.kind.store)).length =
      f.values.length * f.kind.width := by
    rw [Word.length_concat, List.length_map]
  have hread : w.memory.read (a.data w.memory.views).range =
      Word.concat f.kind.width (f.values.map f.kind.store) := by
    change (w.memory.buffer a.buffer).slice a.offset (a.length * a.kind.width) = _
    rw [hoffset, hbuffer, hlength, hkind, ← hbytes]
    unfold Bytes.slice
    rw [List.drop_zero, List.take_length]
  refine ⟨_, hview, hkind, hlength, ?_, ?_⟩
  · rw [hread, hbytes]
    change _ = a.length * a.kind.width
    rw [hlength, hkind]
  · unfold Memory.words
    rw [hread]
    change Word.split a.kind.width a.length _ = _
    have hsize : f.values.length = (f.values.map f.kind.store).length := (List.length_map ..).symm
    rw [hkind, hlength, hsize]
    refine Word.split_concat f.kind.width _ fun n hn => ?_
    obtain ⟨x, -, rfl⟩ := List.mem_map.1 hn
    exact f.kind.store_lt x

/-- They are the values, each as its kind holds it. -/
theorem Built.elements {id : Nat} {f : FieldSpec} (h : Built w f id) :
    w.elements (w.vec id) = .ok (f.values.map f.kind.held) := by
  obtain ⟨view, hview, hkind, -, -, hwords⟩ := h.view
  unfold World.elements
  rw [hview]
  change Except.ok ((w.memory.words view).map view.kind.load) = _
  rw [hwords, hkind, List.map_map]
  rfl

/-- Building a vector adds it and its buffer, and changes nothing else. -/
theorem build_ok {f : FieldSpec} (hf : f.Accepted) (w : World) :
    ∃ w', f.build w = .ok w.vecs.size w' ∧ w.Extends w.vecs.size w' ∧ w'.stores = w.stores ∧
      w'.vecs.size = w.vecs.size + 1 ∧ Built w' f w.vecs.size := by
  let m := (w.memory.alloc (Word.concat f.kind.width (f.values.map f.kind.store))).2
  let a : Growable := ⟨f.kind, w.memory.buffers.size, 0, (f.values.map f.kind.store).length,
    (f.values.map f.kind.store).length, false⟩
  have hgrows : w.memory.Grows m := Memory.grows_alloc ..
  have hvec := vec_push { w with memory := m } ⟨f.kind, false, .owned a⟩
  have hnew := (hvec w.vecs.size).trans (if_pos rfl)
  have hbuild : f.build w = .ok w.vecs.size
      { w with vecs := w.vecs.push ⟨f.kind, false, .owned a⟩, memory := m } := by
    change (Action.demand (f.values.all f.kind.admits) >>= _) w = _
    rw [hf.admitted]
    rfl
  refine ⟨_, hbuild, ?_, rfl, Array.size_push _, ?_⟩
  · refine ⟨hgrows.size_le, fun b hb => Memory.buffer_alloc_of_lt _ hb, rfl, ?_, ?_, rfl,
      fun _ => rfl, fun _ => rfl⟩
    · rw [Array.size_push]
      omega
    · intro id hid
      exact (hvec id).trans (if_neg (by change ¬ id = w.vecs.size; omega))
  · refine ⟨?_, ?_, a, ?_, rfl, rfl, List.length_map .., ?_, Memory.buffer_alloc_self ..⟩
    · rw [Array.size_push]
      omega
    · exact congrArg Vec.kind hnew
    · exact congrArg Vec.holding hnew
    · exact w.memory.lt_size_alloc _

/-- One vector is built for each field, and they are numbered in the order of the fields. -/
theorem mapM_build_ok {specs : List FieldSpec} (hs : ∀ f ∈ specs, f.Accepted) (w : World) :
    ∃ w', specs.mapM FieldSpec.build w = .ok (List.range' w.vecs.size specs.length) w' ∧
      w.Extends w.vecs.size w' ∧ w'.stores = w.stores ∧
      w'.vecs.size = w.vecs.size + specs.length ∧
      List.Forall₂ (Built w') specs (List.range' w.vecs.size specs.length) := by
  induction specs generalizing w with
  | nil => exact ⟨w, rfl, Extends.refl .., rfl, rfl, .nil⟩
  | cons f specs ih =>
    obtain ⟨hf, hs⟩ := List.forall_mem_cons.1 hs
    obtain ⟨w₁, hfirst, hx, hstores, hsize, hbuilt⟩ := build_ok hf w
    obtain ⟨w₂, hrest, hx₂, hstores₂, hsize₂, hall⟩ := ih hs w₁
    rw [hsize] at hrest hall hsize₂
    rw [List.length_cons, List.range'_succ]
    refine ⟨w₂, ?_, hx.trans (hx₂.mono hx.vecs_le), hstores₂.trans hstores, by omega,
      .cons (hbuilt.extends hx₂ hbuilt.lt) hall⟩
    rw [List.mapM_cons, Action.bind_ok hfirst, Action.bind_ok hrest]
    rfl

/-- The fields to be encoded, from the fields of a document and the vectors built for them. -/
def sources (specs : List FieldSpec) (vectors : List Nat) : List Bundle.Source :=
  (specs.zip vectors).map fun (f, v) => ⟨f.name, v, f.stride⟩

/-- What is encoded stands for a field of the document. -/
structure StandsFor (w : World) (f : FieldSpec) (source : Bundle.Source) : Prop where
  name_eq : source.name = f.name
  stride_eq : source.stride = f.stride
  built : Built w f source.vec

theorem standsFor_sources {specs : List FieldSpec} {vectors : List Nat}
    (h : List.Forall₂ (Built w) specs vectors) :
    List.Forall₂ (StandsFor w) specs (sources specs vectors) := by
  induction h with
  | nil => exact .nil
  | cons hbuilt _ ih => exact .cons ⟨rfl, rfl, hbuilt⟩ ih

/-- A field of a document whose numbers fit the words that they are written as, and whose name the host makes
a text of again. -/
structure FieldSpec.Fits (f : FieldSpec) : Prop where
  readable : Text.Readable (Text.Utf8.encode f.name)
  stride_lt : ∀ s, Whole f.stride s → s < 2 ^ 32
  count_lt : ∀ s, Whole f.stride s → f.values.length / s < 2 ^ 40

theorem StandsFor.fitting {f : FieldSpec} {source : Bundle.Source} (h : StandsFor w f source)
    (ha : f.Accepted) (hf : f.Fits) (hdvd : ∀ s, Whole f.stride s → s ∣ f.values.length) :
    w.Fitting source := by
  obtain ⟨s, hs, hpos, -⟩ := ha.stride
  obtain ⟨view, hview, hkind, hlength, hread, -⟩ := h.built.view
  refine ⟨?_, ⟨s, ?_, hpos, hf.stride_lt s hs, ?_, ?_⟩, view, hview, ?_, ?_, hread⟩
  · rw [h.name_eq]
    exact hf.readable
  · rw [h.stride_eq]
    exact hs
  · rw [h.built.size_eq]
    exact hdvd s hs
  · rw [h.built.size_eq]
    exact hf.count_lt s hs
  · rw [hkind, h.built.kind_eq]
  · rw [hlength, h.built.size_eq]

/-- What a file is read as is a document that has been accepted. -/
theorem accepted_of_read {contents : Bytes} {specs : List FieldSpec} (h : read contents = .ok specs) :
    (∀ f ∈ specs, f.Accepted) ∧ (specs.map (·.name)).Nodup := by
  unfold read at h
  obtain ⟨text, -, h⟩ := Outcome.bind_ok_iff.1 h
  cases hp : Json.parse? text with
  | none =>
    rw [hp] at h
    cases h
  | some raw =>
    rw [hp] at h
    exact accepted_of_fields (Outcome.mapError_ok_iff.1 h)

/-- A decoded field is the one of the document: it has the stride and the kind, and its elements are what
the values are stored as. The name is what decoding makes of the encoded name. -/
structure Unpacks (w : World) (f : FieldSpec) (field : Bundle.Field) : Prop where
  name_eq : field.name = Text.Utf8.decode (Text.Utf8.encode f.name)
  stride_eq : Whole f.stride field.stride
  shows : w.ShowsWords field.vec f.kind (f.values.map f.kind.store)

/-- The elements of such a field are the values, each as its kind holds it. -/
theorem Unpacks.elements_eq {f : FieldSpec} {field : Bundle.Field} (h : Unpacks w f field) :
    w.elements (w.vec field.vec) = .ok (f.values.map f.kind.held) := by
  rw [h.shows.elements, List.map_map]
  rfl

theorem unpacks_of_decoded {w₂ : World} {f : FieldSpec} {source : Bundle.Source}
    {r : Bundle.FieldReading} {field : Bundle.Field} (hs : StandsFor w f source)
    (he : w.Encoded source r) (hd : w₂.Decoded r field) : Unpacks w₂ f field := by
  obtain ⟨view, hview, hkind, hwords⟩ := he.words_eq
  obtain ⟨view', hview', -, -, -, hwords'⟩ := hs.built.view
  rw [hview] at hview'
  cases hview'
  have hshows := hd.shows
  refine ⟨?_, ?_, ?_⟩
  · rw [hd.name_eq, he.name_eq, hs.name_eq]
  · rw [hd.stride_eq, ← hs.stride_eq]
    exact he.stride_eq
  · rwa [he.kind_eq, hs.built.kind_eq, ← hwords, hwords'] at hshows

theorem unpacks_of_decodedAll {w₂ : World} {specs : List FieldSpec} {sources : List Bundle.Source}
    {rs : List Bundle.FieldReading} {fields : List Bundle.Field}
    (hs : List.Forall₂ (StandsFor w) specs sources) (he : List.Forall₂ w.Encoded sources rs)
    (hd : List.Forall₂ w₂.Decoded rs fields) : List.Forall₂ (Unpacks w₂) specs fields := by
  induction hs generalizing rs fields with
  | nil =>
    cases he
    cases hd
    exact .nil
  | cons hfirst _ ih =>
    cases he with
    | cons he hrest =>
      cases hd with
      | cons hd hrest' => exact .cons (unpacks_of_decoded hfirst he hd) (ih hrest hrest')

theorem run_eq (store : Nat) (input output : Text) :
    run store input output = (fetch store input >>= fun r => (get : Action World) >>= fun w =>
      Action.ofExcept (read (w.bytes r)) >>= fun specs =>
        specs.mapM FieldSpec.build >>= fun vectors =>
          storeBundle store output (sources specs vectors) >>= fun bytes =>
            pure (specs.length, bytes)) := rfl

/-- Up to the writing of the bundle a run that reads an accepted document does not fail, and the stores
are as they were. -/
theorem run_reads {store : Nat} {input : Text} (output : Text) {contents : Bytes}
    {specs : List FieldSpec} (hread : w.fileBytes store input = .ok contents)
    (hspecs : read contents = .ok specs) :
    ∃ vectors w₁, run store input output w =
        (storeBundle store output (sources specs vectors) >>= fun bytes =>
          pure (specs.length, bytes)) w₁ ∧
      w₁.stores = w.stores ∧ List.Forall₂ (Built w₁) specs vectors := by
  obtain ⟨r, m, hfetch, -, -, hbytes⟩ := fetch_ok hread
  obtain ⟨w₁, hbuild, -, hstores, -, hall⟩ := mapM_build_ok (accepted_of_read hspecs).1 { w with memory := m }
  refine ⟨_, w₁, ?_, hstores, hall⟩
  rw [run_eq, Action.bind_ok hfetch]
  change (Action.ofExcept (read (m.read r)) >>= _) _ = _
  rw [hbytes, hspecs]
  change (specs.mapM FieldSpec.build >>= _) _ = _
  rw [Action.bind_ok hbuild]

/-- Bytes that decode to the fields of a document, wherever they are read from the start, as plain bytes. -/
def Opens (bytes : Bytes) (specs : List FieldSpec) : Prop :=
  ∀ (w : World) (source : ByteRange) (policy : Bundle.Policy), source.shares = false →
    w.memory.Covers source → (w.memory.buffer source.buffer).length < exactBound → w.bytes source = bytes →
    policy.read.bound = none →
    ∃ fields w', Bundle.decodeCopy source policy w = .ok fields w' ∧
      List.Forall₂ (Unpacks w') specs fields

/-- Vectors whose values divide into groups are encoded, and what is written opens again. -/
theorem encode_opens {specs : List FieldSpec} {vectors : List Nat}
    (ha : ∀ f ∈ specs, f.Accepted) (hf : ∀ f ∈ specs, f.Fits)
    (hdvd : ∀ f ∈ specs, ∀ s, Whole f.stride s → s ∣ f.values.length)
    (hcount : specs.length < 2 ^ 32) (hall : List.Forall₂ (Built w) specs vectors) :
    ∃ bytes, Bundle.encode w (sources specs vectors) = .ok bytes ∧ Opens bytes specs := by
  have hstand := standsFor_sources hall
  have hfitting : ∀ source ∈ sources specs vectors, w.Fitting source := by
    intro source hsource
    obtain ⟨⟨f, v⟩, hzip, rfl⟩ := List.mem_map.1 hsource
    have hmem := (List.of_mem_zip hzip).1
    have hs : StandsFor w f ⟨f.name, v, f.stride⟩ := ⟨rfl, rfl, List.forall₂_zip hall hzip⟩
    exact hs.fitting (ha f hmem) (hf f hmem) (hdvd f hmem)
  have hlength : (sources specs vectors).length < 2 ^ 32 := by rwa [← hstand.length_eq]
  obtain ⟨r, hencode, hproper, hencoded⟩ := encode_of_fitting hfitting hlength
  refine ⟨r.bytes, hencode, ?_⟩
  intro w₂ source policy hplain hc hshort hbytes hbound
  obtain ⟨w₃, hnew, hat, hl⟩ := Bundle.at_newReader hc hshort
  rw [hbytes, ← List.append_nil r.bytes] at hat
  obtain ⟨fields, w₄, hdecode, -, -, hdecoded⟩ := decode_ok hat (hl hplain _) hproper rfl hbound
  refine ⟨fields, w₄, ?_, unpacks_of_decodedAll hstand hencoded hdecoded⟩
  rw [Bundle.decodeCopy_eq, Action.bind_ok hnew, hdecode]

theorem dvd_of_encode_sources {specs : List FieldSpec} {vectors : List Nat} {bytes : Bytes}
    (hall : List.Forall₂ (Built w) specs vectors)
    (h : Bundle.encode w (sources specs vectors) = .ok bytes) :
    ∀ f ∈ specs, ∀ s, Whole f.stride s → s ∣ f.values.length := by
  have hstand := standsFor_sources hall
  intro f hf s hs
  obtain ⟨i, hi, rfl⟩ := List.getElem_of_mem hf
  have hi' : i < (sources specs vectors).length := by rwa [← hstand.length_eq]
  have hfits : StandsFor w specs[i] (sources specs vectors)[i] := hstand.get hi hi'
  rw [← hfits.built.size_eq]
  refine dvd_of_encode h _ (List.getElem_mem hi') s ?_
  rw [hfits.stride_eq]
  exact hs

/-- A successful run has written the bundle of the document, and it opens again. -/
theorem run_opens {store n size : Nat} {input output : Text} {contents : Bytes}
    {specs : List FieldSpec} (hread : w.fileBytes store input = .ok contents)
    (hspecs : read contents = .ok specs) (hcount : specs.length < 2 ^ 32)
    (hf : ∀ f ∈ specs, f.Fits) (hrun : run store input output w = .ok (n, size) w') :
    n = specs.length ∧ ∃ bytes, size = bytes.length ∧ w'.fileBytes store output = .ok bytes ∧
      Opens bytes specs := by
  obtain ⟨vectors, w₁, hrun₁, hstores, hall⟩ := run_reads output hread hspecs
  rw [hrun₁] at hrun
  obtain ⟨size', w₂, hstore, hdone⟩ := Action.bind_ok_iff.1 hrun
  cases hdone
  obtain ⟨bytes, hencode, rfl, hbytes⟩ := storeBundle_ok (hstores ▸ lt_of_fileBytes hread) hstore
  have hdvd := dvd_of_encode_sources hall hencode
  obtain ⟨bytes', hencode', hopens⟩ := encode_opens (accepted_of_read hspecs).1 hf hdvd hcount hall
  rw [hencode] at hencode'
  cases hencode'
  exact ⟨rfl, bytes, rfl, hbytes, hopens⟩

/-- A run of an accepted document that fails has been failed by the disk. -/
theorem run_fails {store : Nat} {input output : Text} {contents : Bytes} {specs : List FieldSpec}
    {e : Fault} (hread : w.fileBytes store input = .ok contents)
    (hspecs : read contents = .ok specs) (hcount : specs.length < 2 ^ 32)
    (hf : ∀ f ∈ specs, f.Fits) (hshort : ∀ f ∈ specs, f.values.length ≤ exactBound)
    (hrun : run store input output w = .error e w') :
    ∃ (d : Disk) (bytes : Bytes), w.store store = .disk d ∧
      (d.replaceImposing output bytes []).1.outcome = .error e ∧ Opens bytes specs := by
  obtain ⟨vectors, w₁, hrun₁, hstores, hall⟩ := run_reads output hread hspecs
  have ha := (accepted_of_read hspecs).1
  have hdvd : ∀ f ∈ specs, ∀ s, Whole f.stride s → s ∣ f.values.length := by
    intro f hmem s hs
    obtain ⟨t, ht, -, hdvd⟩ := (ha f hmem).stride
    rw [hs.unique ht]
    exact hdvd (hshort f hmem)
  obtain ⟨bytes, hencode, hopens⟩ := encode_opens ha hf hdvd hcount hall
  have hstore : w₁.store store = w.store store := by
    unfold World.store
    rw [hstores]
  rw [hrun₁] at hrun
  have hsave : storeBundle store output (sources specs vectors) w₁ = .error e w' := by
    cases hs : storeBundle store output (sources specs vectors) w₁ with
    | ok size w₂ =>
      rw [Action.bind_ok hs] at hrun
      cases hrun
    | error e' w₂ =>
      rw [Action.bind_error hs] at hrun
      cases hrun
      rfl
  obtain ⟨d, hd, hfailed⟩ := disk_of_storeBundle hencode hsave
  exact ⟨d, bytes, hstore.symm.trans hd, hfailed, hopens⟩

end LeaseVec.Pack
