import LeaseVec.Pack.Document
import LeaseVec.Proofs.Number.Whole
import LeaseVec.Proofs.Outcome

/-!
# What field documents promise

A document that is accepted describes fields whose names are there and differ from each other, and whose
strides are positive whole numbers that divide the number of values. The division is one of doubles, so it
is known to be exact only for as many values as doubles can count.
-/

namespace LeaseVec.Pack

open Number Number.Binary64

/-- What is known of a field that has been accepted. -/
structure FieldSpec.Accepted (f : FieldSpec) : Prop where
  name_ne : f.name ≠ []
  stride : ∃ s, Whole f.stride s ∧ 1 ≤ s ∧ (f.values.length ≤ exactBound → s ∣ f.values.length)
  admitted : f.values.all f.kind.admits = true

theorem stride_ok_iff {i : Nat} {raw : Option Json} {x : Binary64} :
    stride i raw = .ok x ↔
      (raw = none ∧ x = 1) ∨ (raw = some (.number x) ∧ ∃ n, Whole x n ∧ 1 ≤ n) := by
  unfold stride
  cases raw with
  | none =>
    constructor
    · intro h
      exact Or.inl ⟨rfl, (Except.ok.inj h).symm⟩
    · rintro (⟨-, hx⟩ | ⟨⟨⟩, -⟩)
      rw [hx]
  | some v =>
    cases v with
    | number y =>
      constructor
      · intro h
        cases hy : y.toNat? with
        | none => simp [hy] at h
        | some n =>
          simp only [hy] at h
          by_cases hn : 1 ≤ n
          · obtain rfl := Except.ok.inj ((if_pos hn).symm.trans h)
            exact Or.inr ⟨rfl, n, whole_of_toNat? hy, hn⟩
          · cases (if_neg hn).symm.trans h
      · rintro (⟨⟨⟩, -⟩ | ⟨hxy, n, hx, hn⟩)
        cases hxy
        simp only [hx.toNat?]
        exact if_pos hn
    | _ =>
      constructor
      · intro h
        cases h
      · rintro (⟨⟨⟩, -⟩ | ⟨⟨⟩, -⟩)

theorem stride_ok {i : Nat} {raw : Option Json} {x : Binary64} (h : stride i raw = .ok x) :
    ∃ s, Whole x s ∧ 1 ≤ s := by
  rcases stride_ok_iff.1 h with ⟨-, hone⟩ | ⟨-, hx⟩
  · rw [hone]
    exact ⟨1, whole_ofNat (by decide), le_rfl⟩
  · exact hx

theorem wideValue_ok {kind : Kind} {i j : Nat} {v : Json} {x : Scalar} (h : wideValue kind i j v = .ok x) :
    ∃ n, x = .integer n := by
  unfold wideValue at h
  split at h
  · cases h
  · split_ifs at h
    cases h
    exact ⟨_, rfl⟩

theorem numberValue_ok {kind : Kind} {i j : Nat} {v : Json} {x : Scalar}
    (h : numberValue kind i j v = .ok x) : ∃ y, x = .number y := by
  unfold numberValue at h
  split at h
  · split_ifs at h
    · cases h
      exact ⟨_, rfl⟩
    · split at h
      · split_ifs at h
        cases h
        exact ⟨_, rfl⟩
      · cases h
  · cases h

/-- A value is of the sort that its kind has. -/
theorem admits_of_value {kind : Kind} {i j : Nat} {v : Json} {x : Scalar} (h : value kind i j v = .ok x) :
    kind.admits x = true := by
  unfold value at h
  split_ifs at h with hwide
  · obtain ⟨n, rfl⟩ := wideValue_ok h
    exact hwide
  · obtain ⟨y, rfl⟩ := numberValue_ok h
    show (!kind.isWide) = true
    rw [Bool.eq_false_of_not_eq_true hwide]
    rfl

theorem admits_of_values {kind : Kind} {i index : Nat} {items : List Json} {xs : List Scalar}
    (h : values kind i index items = .ok xs) : xs.all kind.admits = true := by
  induction items generalizing index xs with
  | nil =>
    cases h
    rfl
  | cons v items ih =>
    obtain ⟨x, hx, h⟩ := Outcome.bind_ok_iff.1 h
    obtain ⟨rest, hrest, h⟩ := Outcome.bind_ok_iff.1 h
    cases h
    rw [List.all_cons, admits_of_value hx, ih hrest, Bool.and_self]

/-- No value is left out. -/
theorem length_values {kind : Kind} {i index : Nat} {items : List Json} {xs : List Scalar}
    (h : values kind i index items = .ok xs) : xs.length = items.length := by
  induction items generalizing index xs with
  | nil =>
    cases h
    rfl
  | cons v items ih =>
    obtain ⟨x, -, h⟩ := Outcome.bind_ok_iff.1 h
    obtain ⟨rest, hrest, h⟩ := Outcome.bind_ok_iff.1 h
    cases h
    rw [List.length_cons, List.length_cons, ih hrest]

/-- What a field passes on the way: the members of the value that it is read from, and their values. -/
structure FieldSpec.ReadFrom (f : FieldSpec) (i : Nat) (raw : Json) (items : List Json) : Prop where
  container : raw.isContainer = true
  name_eq : raw.get? (Text.ofString "name") = some (.string f.name)
  name_ne : f.name ≠ []
  kind_eq : ∃ kindName, raw.get? (Text.ofString "kind") = some (.string kindName) ∧
    Kind.ofName? kindName = some f.kind
  stride_ok : Pack.stride i (raw.get? (Text.ofString "stride")) = .ok f.stride
  values_eq : raw.get? (Text.ofString "values") = some (.array items)
  groups : (Binary64.ofNat items.length % f.stride).isZero = true
  values_ok : Pack.values f.kind i 0 items = .ok f.values

theorem field_ok_iff {i : Nat} {raw : Json} {f : FieldSpec} :
    field i raw = .ok f ↔ ∃ items, f.ReadFrom i raw items := by
  constructor
  · intro h
    obtain ⟨hcontainer, h⟩ := Outcome.check_ok_iff.1 h
    split at h
    · next name hname =>
      obtain ⟨hne, h⟩ := Outcome.check_ok_iff.1 h
      split at h
      · next kindName hkindName =>
        split at h
        · cases h
        · next kind hkind =>
          obtain ⟨x, hx, h⟩ := Outcome.bind_ok_iff.1 h
          split at h
          · next items hitems =>
            obtain ⟨hgroups, h⟩ := Outcome.check_ok_iff.1 h
            obtain ⟨xs, hxs, h⟩ := Outcome.bind_ok_iff.1 h
            cases h
            exact ⟨items, by simpa using hcontainer, hname, by simpa using hne,
              ⟨kindName, hkindName, hkind⟩, hx, hitems, by simpa using hgroups, hxs⟩
          · cases h
      · cases h
    · cases h
  · rintro ⟨items, h⟩
    obtain ⟨kindName, hkindName, hkind⟩ := h.kind_eq
    unfold field
    rw [Outcome.check_ok_iff, h.name_eq]
    refine ⟨by simpa using h.container, Outcome.check_ok_iff.2 ⟨by simpa using h.name_ne, ?_⟩⟩
    simp only [hkindName, hkind]
    refine Outcome.bind_ok_iff.2 ⟨f.stride, h.stride_ok, ?_⟩
    simp only [h.values_eq]
    refine Outcome.check_ok_iff.2 ⟨by simpa using h.groups, ?_⟩
    exact Outcome.bind_ok_iff.2 ⟨f.values, h.values_ok, rfl⟩

theorem accepted_of_field {i : Nat} {raw : Json} {f : FieldSpec} (h : field i raw = .ok f) :
    f.Accepted := by
  obtain ⟨items, h⟩ := field_ok_iff.1 h
  obtain ⟨s, hs, hpos⟩ := stride_ok h.stride_ok
  refine ⟨h.name_ne, ⟨s, hs, hpos, fun hle => ?_⟩, admits_of_values h.values_ok⟩
  rw [length_values h.values_ok] at hle ⊢
  exact ((whole_ofNat hle).isZero_mod hs hpos hle).1 h.groups

theorem accepted_of_fieldsFrom {i : Nat} {items : List Json} {fs : List FieldSpec}
    (h : fieldsFrom i items = .ok fs) : ∀ f ∈ fs, f.Accepted := by
  induction items generalizing i fs with
  | nil =>
    cases h
    simp
  | cons raw items ih =>
    obtain ⟨f, hf, h⟩ := Outcome.bind_ok_iff.1 h
    obtain ⟨rest, hrest, h⟩ := Outcome.bind_ok_iff.1 h
    cases h
    intro g hg
    rcases List.mem_cons.1 hg with rfl | hg
    · exact accepted_of_field hf
    · exact ih hrest g hg

/-- No name is found a second time when the names differ from each other and from those seen before. -/
theorem repeated?_eq_none_iff {seen names : List Text} :
    repeated? seen names = none ↔ names.Nodup ∧ ∀ name ∈ names, name ∉ seen := by
  induction names generalizing seen with
  | nil => simp [repeated?]
  | cons name names ih =>
    unfold repeated?
    by_cases hseen : name ∈ seen
    · simp [hseen]
    · rw [if_neg hseen, ih, List.nodup_cons]
      constructor
      · rintro ⟨hnodup, hfresh⟩
        refine ⟨⟨fun hmem => hfresh name hmem List.mem_cons_self, hnodup⟩, ?_⟩
        intro other hother
        rcases List.mem_cons.1 hother with rfl | hother
        · exact hseen
        · exact fun hmem => hfresh other hother (List.mem_cons_of_mem _ hmem)
      · rintro ⟨⟨hnew, hnodup⟩, hfresh⟩
        refine ⟨hnodup, fun other hother hmem => ?_⟩
        rcases List.mem_cons.1 hmem with rfl | hmem
        · exact hnew hother
        · exact hfresh other (List.mem_cons_of_mem _ hother) hmem

theorem fields_ok_iff {raw : Json} {fs : List FieldSpec} :
    fields raw = .ok fs ↔ ∃ items, raw.get? (Text.ofString "fields") = some (.array items) ∧
      fieldsFrom 0 items = .ok fs ∧ (fs.map (·.name)).Nodup := by
  have hnames : ∀ fs : List FieldSpec,
      repeated? [] (fs.map (·.name)) = none ↔ (fs.map (·.name)).Nodup := by
    intro fs
    rw [repeated?_eq_none_iff]
    simp
  unfold fields
  constructor
  · intro h
    split at h
    · next items hitems =>
      obtain ⟨fs', hfs, h⟩ := Outcome.bind_ok_iff.1 h
      cases hr : repeated? [] (fs'.map (·.name)) with
      | some name =>
        rw [hr] at h
        cases h
      | none =>
        rw [hr] at h
        cases h
        exact ⟨items, hitems, hfs, (hnames fs).1 hr⟩
    · cases h
  · rintro ⟨items, hitems, hfs, hnodup⟩
    rw [hitems]
    refine Outcome.bind_ok_iff.2 ⟨fs, hfs, ?_⟩
    rw [(hnames fs).2 hnodup]
    rfl

/-- The fields of a document that has been accepted. -/
theorem accepted_of_fields {raw : Json} {fs : List FieldSpec} (h : fields raw = .ok fs) :
    (∀ f ∈ fs, f.Accepted) ∧ (fs.map (·.name)).Nodup := by
  obtain ⟨items, -, hfs, hnodup⟩ := fields_ok_iff.1 h
  exact ⟨accepted_of_fieldsFrom hfs, hnodup⟩

end LeaseVec.Pack
