import LeaseVec.Proofs.Pack.Packing
import LeaseVec.Proofs.Pack.Values

/-!
# Valid documents

`Valid` says of a JSON value that it is a document and which entries it has, by its members alone. `accept` is the
part of packing between the reading of the JSON text and the writing of the bundle. It succeeds exactly on valid
documents, and it leaves one new vector for each entry, in order, whose elements keep the numbers of the entry.
-/

namespace LeaseVec

open Number Number.Binary64 World

/-- Every array in a JSON value is short enough for its length to be known exactly. No longer array can be
made: lengths end at `2 ^ 32 - 1`. -/
inductive Json.Countable : Json → Prop
  | null : Countable .null
  | bool (b : Bool) : Countable (.bool b)
  | number (x : Binary64) : Countable (.number x)
  | string (t : Text) : Countable (.string t)
  | array {items : List Json} (hlength : items.length ≤ exactBound) (h : ∀ v ∈ items, Countable v) :
    Countable (.array items)
  | object {members : List (Text × Json)} (h : ∀ m ∈ members, Countable m.2) :
    Countable (.object members)

theorem Json.countable_array_iff {items : List Json} :
    (Json.array items).Countable ↔ items.length ≤ exactBound ∧ ∀ v ∈ items, v.Countable := by
  constructor
  · intro h
    cases h with
    | array hlength h => exact ⟨hlength, h⟩
  · rintro ⟨hlength, h⟩
    exact .array hlength h

theorem Json.countable_object_iff {members : List (Text × Json)} :
    (Json.object members).Countable ↔ ∀ m ∈ members, m.2.Countable := by
  constructor
  · intro h
    cases h with
    | object h => exact h
  · exact .object

theorem Json.Countable.get? {raw v : Json} {name : Text} (h : raw.Countable)
    (hv : raw.get? name = some v) : v.Countable := by
  cases raw with
  | object members =>
    obtain ⟨m, hm, rfl⟩ := Option.map_eq_some_iff.1 hv
    exact Json.countable_object_iff.1 h m (List.mem_of_find?_eq_some hm)
  | _ => cases hv

namespace Pack

variable {w w' : World}

/-- What an entry of a document says. -/
structure Entry where
  name : Text
  kind : Kind
  stride : Nat
  values : List Json

/-- The stride is one when it is left out, and else a positive whole number. -/
inductive StrideOf : Option Json → Nat → Prop
  | absent : StrideOf none 1
  | given {x : Binary64} {n : Nat} (hx : Whole x n) (hpos : 1 ≤ n) : StrideOf (some (.number x)) n

/-- A JSON value is a valid entry. -/
structure Describes (raw : Json) (e : Entry) : Prop where
  name_eq : raw.get? (Text.ofString "name") = some (.string e.name)
  name_ne : e.name ≠ []
  kind_eq : raw.get? (Text.ofString "kind") = some (.string (Text.ofString e.kind.name))
  stride_of : StrideOf (raw.get? (Text.ofString "stride")) e.stride
  values_eq : raw.get? (Text.ofString "values") = some (.array e.values)
  groups : e.stride ∣ e.values.length
  suits : ∀ v ∈ e.values, Suits e.kind v

/-- A JSON value is a valid document with the given entries. -/
structure Valid (raw : Json) (entries : List Entry) : Prop where
  fields : ∃ items, raw.get? (Text.ofString "fields") = some (.array items) ∧
    List.Forall₂ Describes items entries
  names : (entries.map (·.name)).Nodup

/-- What has been read of an entry. -/
structure Reads (e : Entry) (f : FieldSpec) : Prop where
  name_eq : f.name = e.name
  kind_eq : f.kind = e.kind
  stride_eq : Whole f.stride e.stride
  keeps : List.Forall₂ (Keeps e.kind) e.values (f.values.map e.kind.held)

theorem StrideOf.pos {raw : Option Json} {n : Nat} (h : StrideOf raw n) : 1 ≤ n := by
  cases h with
  | absent => exact le_rfl
  | given _ hpos => exact hpos

theorem strideOf_of_stride {i : Nat} {raw : Option Json} {x : Binary64} (h : stride i raw = .ok x) :
    ∃ n, StrideOf raw n ∧ Whole x n := by
  rcases stride_ok_iff.1 h with ⟨rfl, hone⟩ | ⟨rfl, n, hx, hpos⟩
  · rw [hone]
    exact ⟨1, .absent, whole_ofNat (by decide)⟩
  · exact ⟨n, .given hx hpos, hx⟩

theorem stride_of_strideOf {raw : Option Json} {n : Nat} (h : StrideOf raw n) (i : Nat) :
    ∃ x, stride i raw = .ok x ∧ Whole x n := by
  cases h with
  | absent => exact ⟨1, rfl, whole_ofNat (by decide)⟩
  | @given x _ hx hpos => exact ⟨x, stride_ok_iff.2 (Or.inr ⟨rfl, n, hx, hpos⟩), hx⟩

theorem describes_of_field {i : Nat} {raw : Json} {f : FieldSpec} (hraw : raw.Countable)
    (h : field i raw = .ok f) : ∃ e, Describes raw e ∧ Reads e f := by
  obtain ⟨items, h⟩ := field_ok_iff.1 h
  obtain ⟨kindName, hkindName, hkind⟩ := h.kind_eq
  obtain ⟨n, hn, hx⟩ := strideOf_of_stride h.stride_ok
  obtain ⟨hsuits, hkeeps⟩ := suits_and_keeps_of_values h.values_ok
  have hlength := (Json.countable_array_iff.1 (hraw.get? h.values_eq)).1
  have hgroups := ((whole_ofNat hlength).isZero_mod hx hn.pos hlength).1 h.groups
  rw [← Kind.name_of_ofName? hkind] at hkindName
  exact ⟨⟨f.name, f.kind, n, items⟩,
    ⟨h.name_eq, h.name_ne, hkindName, hn, h.values_eq, hgroups, hsuits⟩, rfl, rfl, hx, hkeeps⟩

theorem field_of_describes {raw : Json} {e : Entry} (hraw : raw.Countable) (h : Describes raw e)
    (i : Nat) : ∃ f, field i raw = .ok f ∧ Reads e f := by
  obtain ⟨x, hx, hwhole⟩ := stride_of_strideOf h.stride_of i
  obtain ⟨xs, hxs⟩ := values_of_suits h.suits i 0
  have hlength := (Json.countable_array_iff.1 (hraw.get? h.values_eq)).1
  have hcontainer : raw.isContainer = true := by
    have hname := h.name_eq
    cases raw with
    | object members => rfl
    | _ => cases hname
  have hgroups := ((whole_ofNat hlength).isZero_mod hwhole h.stride_of.pos hlength).2 h.groups
  refine ⟨⟨e.name, e.kind, x, xs⟩, field_ok_iff.2 ⟨e.values, hcontainer, h.name_eq, h.name_ne,
    ⟨_, h.kind_eq, Kind.ofName?_name e.kind⟩, hx, h.values_eq, hgroups, hxs⟩, rfl, rfl, hwhole, ?_⟩
  exact (suits_and_keeps_of_values hxs).2

theorem describes_of_fieldsFrom {i : Nat} {items : List Json} {fs : List FieldSpec}
    (hitems : ∀ raw ∈ items, raw.Countable) (h : fieldsFrom i items = .ok fs) :
    ∃ entries, List.Forall₂ Describes items entries ∧ List.Forall₂ Reads entries fs := by
  induction items generalizing i fs with
  | nil =>
    cases h
    exact ⟨[], .nil, .nil⟩
  | cons raw items ih =>
    obtain ⟨f, hf, h⟩ := Outcome.bind_ok_iff.1 h
    obtain ⟨rest, hrest, h⟩ := Outcome.bind_ok_iff.1 h
    cases h
    obtain ⟨hraw, hitems⟩ := List.forall_mem_cons.1 hitems
    obtain ⟨e, hdescribes, hreads⟩ := describes_of_field hraw hf
    obtain ⟨entries, hdescribes', hreads'⟩ := ih hitems hrest
    exact ⟨e :: entries, .cons hdescribes hdescribes', .cons hreads hreads'⟩

theorem fieldsFrom_of_describes {items : List Json} {entries : List Entry}
    (hitems : ∀ raw ∈ items, raw.Countable) (h : List.Forall₂ Describes items entries) (i : Nat) :
    ∃ fs, fieldsFrom i items = .ok fs ∧ List.Forall₂ Reads entries fs := by
  induction h generalizing i with
  | nil => exact ⟨[], rfl, .nil⟩
  | cons hfirst _ ih =>
    obtain ⟨hraw, hitems⟩ := List.forall_mem_cons.1 hitems
    obtain ⟨f, hf, hreads⟩ := field_of_describes hraw hfirst i
    obtain ⟨fs, hfs, hreads'⟩ := ih hitems (i + 1)
    exact ⟨f :: fs, Outcome.bind_ok_iff.2 ⟨f, hf, Outcome.bind_ok_iff.2 ⟨fs, hfs, rfl⟩⟩,
      .cons hreads hreads'⟩

theorem map_name_eq {entries : List Entry} {fs : List FieldSpec} (h : List.Forall₂ Reads entries fs) :
    fs.map (·.name) = entries.map (·.name) := by
  induction h with
  | nil => rfl
  | cons hfirst _ ih => rw [List.map_cons, List.map_cons, hfirst.name_eq, ih]

theorem valid_of_fields {raw : Json} {fs : List FieldSpec} (hraw : raw.Countable)
    (h : fields raw = .ok fs) : ∃ entries, Valid raw entries := by
  obtain ⟨items, hitems, hfs, hnodup⟩ := fields_ok_iff.1 h
  obtain ⟨entries, hdescribes, hreads⟩ :=
    describes_of_fieldsFrom (Json.countable_array_iff.1 (hraw.get? hitems)).2 hfs
  rw [map_name_eq hreads] at hnodup
  exact ⟨entries, ⟨items, hitems, hdescribes⟩, hnodup⟩

theorem fields_of_valid {raw : Json} {entries : List Entry} (hraw : raw.Countable)
    (h : Valid raw entries) : ∃ fs, fields raw = .ok fs ∧ List.Forall₂ Reads entries fs := by
  obtain ⟨items, hitems, hdescribes⟩ := h.fields
  obtain ⟨fs, hfs, hreads⟩ :=
    fieldsFrom_of_describes (Json.countable_array_iff.1 (hraw.get? hitems)).2 hdescribes 0
  have hnodup := h.names
  rw [← map_name_eq hreads] at hnodup
  exact ⟨fs, fields_ok_iff.2 ⟨items, hitems, hfs, hnodup⟩, hreads⟩

/-- The fields that a JSON value describes, with a vector built for each. -/
def accept (raw : Json) : Action (List Bundle.Source) := do
  let specs ← Action.ofExcept ((fields raw).mapError .document)
  let vectors ← specs.mapM (·.build)
  return sources specs vectors

/-- The JSON value in a file's contents. -/
def parsed (contents : Bytes) : Except Fault Json := do
  match Json.parse? (← Text.ofBytes contents) with
  | none => .error .notJson
  | some raw => .ok raw

theorem read_eq (contents : Bytes) :
    read contents = (parsed contents >>= fun raw => (fields raw).mapError .document) := by
  unfold read parsed
  cases Text.ofBytes contents with
  | error e => rfl
  | ok text =>
    change (match Json.parse? text with
      | none => Except.error Fault.notJson
      | some raw => (fields raw).mapError .document) =
        (match Json.parse? text with
          | none => Except.error Fault.notJson
          | some raw => .ok raw) >>= _
    cases Json.parse? text <;> rfl

/-- What is got for an entry: a vector of its own with elements that keep the numbers of the entry. -/
structure Stored (w : World) (e : Entry) (source : Bundle.Source) : Prop where
  name_eq : source.name = e.name
  stride_eq : Whole source.stride e.stride
  lt : source.vec < w.vecs.size
  owned : (w.vec source.vec).mode = .owned
  kind_eq : (w.vec source.vec).kind = e.kind
  elements : ∃ ys, w.elements (w.vec source.vec) = .ok ys ∧ List.Forall₂ (Keeps e.kind) e.values ys

theorem stored_of_standsFor {e : Entry} {f : FieldSpec} {source : Bundle.Source} (h : Reads e f)
    (hs : StandsFor w f source) : Stored w e source := by
  obtain ⟨a, hheld, -⟩ := hs.built.stored
  refine ⟨hs.name_eq.trans h.name_eq, ?_, hs.built.lt, Vec.mode_eq_owned.2 ⟨a, hheld⟩,
    hs.built.kind_eq.trans h.kind_eq, _, hs.built.elements, ?_⟩
  · rw [hs.stride_eq]
    exact h.stride_eq
  · rw [h.kind_eq]
    exact h.keeps

theorem forall₂_stored {entries : List Entry} {fs : List FieldSpec} {got : List Bundle.Source}
    (h : List.Forall₂ Reads entries fs) (hs : List.Forall₂ (StandsFor w) fs got) :
    List.Forall₂ (Stored w) entries got := by
  induction h generalizing got with
  | nil =>
    cases hs
    exact .nil
  | cons hfirst _ ih =>
    cases hs with
    | cons hstands hrest => exact .cons (stored_of_standsFor hfirst hstands) (ih hrest)

theorem accept_ok {raw : Json} {fs : List FieldSpec} {vectors : List Nat} (h : fields raw = .ok fs)
    (hbuild : fs.mapM FieldSpec.build w = .ok vectors w') :
    accept raw w = .ok (sources fs vectors) w' := by
  unfold accept
  rw [h]
  exact Action.bind_ok hbuild

theorem accept_error {raw : Json} {e : DocumentFault} (h : fields raw = .error e) (w : World) :
    accept raw w = .error (.document e) w := by
  unfold accept
  rw [h]
  rfl

theorem length_sources {specs : List FieldSpec} {vectors : List Nat}
    (h : specs.length = vectors.length) : (sources specs vectors).length = specs.length := by
  unfold sources
  rw [List.length_map, List.length_zip, ← h, Nat.min_self]

theorem map_vec_sources {specs : List FieldSpec} {vectors : List Nat}
    (h : specs.length = vectors.length) : (sources specs vectors).map (·.vec) = vectors := by
  unfold sources
  rw [List.map_map]
  exact List.map_snd_zip h.ge

/-- A run accepts the value that it reads, and writes a bundle of what it has got. -/
theorem run_eq_accept (store : Nat) (input output : Text) :
    run store input output = (fetch store input >>= fun r => (get : Action World) >>= fun w =>
      Action.ofExcept (parsed (w.bytes r)) >>= fun raw => accept raw >>= fun got =>
        storeBundle store output got >>= fun bytes => pure (got.length, bytes)) := by
  rw [run_eq]
  congr 1
  funext r
  congr 1
  funext w
  rw [read_eq]
  cases parsed (w.bytes r) with
  | error e => rfl
  | ok raw =>
    funext w₁
    change (Action.ofExcept ((fields raw).mapError .document) >>= _) w₁ = (accept raw >>= _) w₁
    cases hfs : fields raw with
    | error e =>
      rw [Action.bind_error (accept_error hfs w₁)]
      rfl
    | ok fs =>
      obtain ⟨w₂, hbuild, -⟩ := mapM_build_ok (accepted_of_fields hfs).1 w₁
      rw [Action.bind_ok (accept_ok hfs hbuild), length_sources (List.length_range' ..).symm]
      exact Action.bind_ok hbuild

/-- Exactly the valid documents are accepted, and each entry gets one new vector, in order, which owns elements
that are the numbers of the entry. -/
theorem accepts_valid {raw : Json} (hraw : raw.Countable) (w : World) :
    ((∃ got w', accept raw w = .ok got w') ↔ ∃ entries, Valid raw entries) ∧
      ∀ entries, Valid raw entries → ∃ got w', accept raw w = .ok got w' ∧
        got.map (·.vec) = List.range' w.vecs.size entries.length ∧
        w'.vecs.size = w.vecs.size + entries.length ∧ List.Forall₂ (Stored w') entries got := by
  have hgets : ∀ entries, Valid raw entries → ∃ got w', accept raw w = .ok got w' ∧
      got.map (·.vec) = List.range' w.vecs.size entries.length ∧
      w'.vecs.size = w.vecs.size + entries.length ∧ List.Forall₂ (Stored w') entries got := by
    intro entries hvalid
    obtain ⟨fs, hfs, hreads⟩ := fields_of_valid hraw hvalid
    obtain ⟨w', hbuild, -, -, hsize, hbuilt⟩ := mapM_build_ok (accepted_of_fields hfs).1 w
    rw [hreads.length_eq]
    exact ⟨_, w', accept_ok hfs hbuild, map_vec_sources (List.length_range' ..).symm, hsize,
      forall₂_stored hreads (standsFor_sources hbuilt)⟩
  refine ⟨⟨?_, ?_⟩, hgets⟩
  · rintro ⟨got, w', haccept⟩
    cases hfs : fields raw with
    | error e =>
      rw [accept_error hfs] at haccept
      cases haccept
    | ok fs => exact valid_of_fields hraw hfs
  · rintro ⟨entries, hvalid⟩
    obtain ⟨got, w', haccept, -⟩ := hgets entries hvalid
    exact ⟨got, w', haccept⟩

/-- A document with eight-byte integers, one of them written as a text, with a pair of bytes, and with numbers of single
precision, one of which it does not hold exactly. -/
def threeFields : Json :=
  .object [(Text.ofString "fields", .array [
    .object [(Text.ofString "name", .string (Text.ofString "ids")),
      (Text.ofString "kind", .string (Text.ofString "i64")),
      (Text.ofString "values", .array [.number 1, .string (Text.ofString "-9223372036854775808")])],
    .object [(Text.ofString "name", .string (Text.ofString "codes")),
      (Text.ofString "kind", .string (Text.ofString "u8")),
      (Text.ofString "stride", .number 2),
      (Text.ofString "values", .array [.number 0, .number 255])],
    .object [(Text.ofString "name", .string (Text.ofString "sizes")),
      (Text.ofString "kind", .string (Text.ofString "f32")),
      (Text.ofString "values", .array [.number (ofDecimal true 1 (-1)), .number Binary32.largest])]])]

def threeEntries : List Entry :=
  [⟨Text.ofString "ids", .i64, 1, [.number 1, .string (Text.ofString "-9223372036854775808")]⟩,
    ⟨Text.ofString "codes", .u8, 2, [.number 0, .number 255]⟩,
    ⟨Text.ofString "sizes", .f32, 1, [.number (ofDecimal true 1 (-1)), .number Binary32.largest]⟩]

theorem accepts_valid_threeFields :
    threeFields.Countable ∧ Valid threeFields threeEntries ∧
      ((∃ got w', accept threeFields .empty = .ok got w') ↔ ∃ entries, Valid threeFields entries) ∧
      ∀ entries, Valid threeFields entries → ∃ got w', accept threeFields .empty = .ok got w' ∧
        got.map (·.vec) = List.range' World.empty.vecs.size entries.length ∧
        w'.vecs.size = World.empty.vecs.size + entries.length ∧
        List.Forall₂ (Stored w') entries got := by
  have hwhole : Whole 2 2 := whole_ofNat (by decide)
  have hids : ∀ v ∈ [Json.number 1, .string (Text.ofString "-9223372036854775808")], Suits .i64 v := by
    have hone : (1 : Binary64).toInt? = some 1 := by decide +kernel
    have hleast : Spells (Text.ofString "-9223372036854775808") (-9223372036854775808) :=
      spells_iff.2 (by decide)
    simp only [List.forall_mem_cons, List.not_mem_nil, false_implies, implies_true, and_true]
    exact ⟨.safe rfl (toInt?_eq_some_iff.1 hone) (by decide) ⟨by decide, by decide⟩,
      .decimal rfl hleast ⟨by decide, by decide⟩⟩
  have hcodes : ∀ v ∈ [Json.number 0, .number 255], Suits .u8 v := by
    simp only [List.forall_mem_cons, List.not_mem_nil, false_implies, implies_true, and_true]
    exact ⟨(suits_integer_iff rfl rfl).2 ⟨0, by decide +kernel, by decide, by decide⟩,
      (suits_integer_iff rfl rfl).2 ⟨255, by decide +kernel, by decide, by decide⟩⟩
  have hsizes : ∀ v ∈ [Json.number (ofDecimal true 1 (-1)), .number Binary32.largest],
      Suits .f32 v := by
    simp only [List.forall_mem_cons, List.not_mem_nil, false_implies, implies_true, and_true]
    exact ⟨suits_single_iff.2 (by decide +kernel), suits_single_iff.2 (by decide +kernel)⟩
  have hvalid : Valid threeFields threeEntries :=
    ⟨⟨_, rfl, .cons ⟨rfl, by decide, rfl, .absent, rfl, by decide, hids⟩
      (.cons ⟨rfl, by decide, rfl, .given hwhole (by decide), rfl, by decide, hcodes⟩
        (.cons ⟨rfl, by decide, rfl, .absent, rfl, by decide, hsizes⟩ .nil))⟩, by decide⟩
  have hcountable : threeFields.Countable := by
    simp [threeFields, Json.countable_array_iff, Json.countable_object_iff, Json.Countable.number,
      Json.Countable.string, exactBound]
  exact ⟨hcountable, hvalid, accepts_valid hcountable .empty⟩

end Pack

end LeaseVec
