import LeaseVec.Bundle.Rows
import LeaseVec.Proofs.Bundle.Bounds
import LeaseVec.Proofs.Bundle.Effort
import LeaseVec.Proofs.Lifetime.Rounds

/-!
# Rows of a bundle that has been decoded

The rows of a bundle show what its bytes say: the counts, how many bytes the elements take, and the first
elements. The counts are not kept but got back by a division, which is exact for sizes that fit a file. The first
elements are taken from an iteration that is left early, so building the rows begins iterations and does nothing
else.
-/

namespace LeaseVec

open Number Number.Binary64

namespace Bundle

/-- Values with commas between them, and an ellipsis when there are more. -/
def shown (values : List Scalar) (more : Bool) : Text :=
  Text.join (Text.ofString ", ") (values.map fun x => Text.ofString x.render) ++
    if more then Text.ofString ", …" else []

/-- Take up to a number of elements from an iteration, and tell whether it had one more. The iteration is not asked
again after that. -/
def glance (it : Nat) : Nat → Action (List Scalar × Bool)
  | 0 => do return ([], (← World.next it).isSome)
  | most + 1 => do
    match ← World.next it with
    | none => return ([], false)
    | some x =>
      let (values, more) ← glance it most
      return (x :: values, more)

/-- The row of a field, with its first values written out. -/
def Field.rowShowing (w : World) (f : Field) (preview : Text) : Row where
  name := f.name
  kind := Text.ofString (w.vec f.vec).kind.name
  stride := ofNat f.stride
  count := (w.vec f.vec).count / ofNat f.stride
  mode := Text.ofString f.attached.name
  bytes := ofNat ((w.vec f.vec).size * (w.vec f.vec).kind.width)
  preview := preview

theorem Field.row_eq (w : World) (f : Field) :
    f.row w = (w.elements (w.vec f.vec)).map fun values => f.rowShowing w (preview values previewLength) := by
  unfold Field.row
  dsimp only
  cases w.elements (w.vec f.vec) <;> rfl

/-- Build the row of a field, with its first values from an iteration over its vector. -/
def Field.inspect (f : Field) : Action Row := do
  let w ← get
  let it ← World.iterate f.vec
  let (values, more) ← glance it 4
  return f.rowShowing w (shown values more)

/-- Build the rows of a bundle one after the other. -/
def inspection (fields : List Field) : Action (List Row) := fields.mapM Field.inspect

theorem whole_previewLength : Whole previewLength 4 := by
  have hfour : Whole (ofNat 4) 4 := whole_ofNat (by decide)
  exact hfour

/-- A preview shows the first four values. -/
theorem preview_eq (values : List Scalar) :
    preview values previewLength = shown (values.take 4) (decide (4 < values.length)) := by
  unfold preview shown
  simp only [whole_previewLength.toNat?]
  by_cases hmore : 4 < values.length
  · rw [if_pos hmore, decide_eq_true hmore, if_pos rfl, List.map_take]
  · rw [if_neg hmore, decide_eq_false hmore, if_neg Bool.false_ne_true, List.append_nil,
      List.take_of_length_le (Nat.le_of_not_lt hmore)]

end Bundle

namespace World

variable {w w' w'' : World} {it p : Nat} {view : View}

/-- Iterations have been begun or moved, and nothing else has happened. -/
def OnlyIterates (w w' : World) : Prop := w' = { w with iterations := w'.iterations }

theorem OnlyIterates.refl (w : World) : w.OnlyIterates w := rfl

theorem OnlyIterates.trans (h : w.OnlyIterates w') (h' : w'.OnlyIterates w'') : w.OnlyIterates w'' := by
  unfold OnlyIterates at h h' ⊢
  rw [h', h]

theorem onlyIterates_setIteration (w : World) (it : Nat) (i : Iteration) :
    w.OnlyIterates (w.setIteration it i) := rfl

/-- Asking an iteration moves it and does nothing else. -/
theorem onlyIterates_next {x : Option Scalar} (h : next it w = .ok x w') : w.OnlyIterates w' := by
  have hdeliver : ∀ {id : Nat} {view : View} {p : Nat}, deliver it id view p w = .ok x w' →
      w.OnlyIterates w' := by
    intro id view p hd
    cases hx : w.memory.elementAt? view p with
    | some y =>
      rw [deliver_of_some hx] at hd
      cases hd
      exact onlyIterates_setIteration ..
    | none =>
      rw [deliver_of_none hx] at hd
      cases hd
      exact onlyIterates_setIteration ..
  cases hi : w.iteration it with
  | finished id =>
    rw [next_of_finished hi] at h
    cases h
    exact .refl w
  | running id view p => exact hdeliver (next_of_running hi ▸ h)
  | fresh id =>
    cases hv : w.viewOf (w.vec id) with
    | ok view => exact hdeliver (next_of_fresh hi hv ▸ h)
    | error e =>
      rw [next_of_fresh_error hi hv] at h
      cases h

open LeaseVec.Bundle

/-- What is taken from an iteration is what comes next along its view. -/
theorem glance_of_due (most : Nat) (hit : it < w.iterations.size) (h : w.Due it view p) :
    ∃ w', glance it most w = .ok (((w.memory.elements view).drop p).take most,
      decide (most < (w.memory.elements view).length - p)) w' ∧ w.OnlyIterates w' := by
  induction most generalizing w p with
  | zero =>
    obtain ⟨w₁, hnext, -, -⟩ := next_of_due hit h
    rw [Memory.elementAt?_eq] at hnext
    refine ⟨w₁, ?_, onlyIterates_next hnext⟩
    have hglance : glance it 0 w = .ok ([], (w.memory.elements view)[p]?.isSome) w₁ := Action.bind_ok hnext
    have hsome : (w.memory.elements view)[p]?.isSome = decide (0 < (w.memory.elements view).length - p) := by
      rw [Bool.eq_iff_iff, isSome_getElem?, decide_eq_true_iff]
      omega
    rw [hglance, List.take_zero, hsome]
  | succ most ih =>
    obtain ⟨w₁, hnext, hm, hdue⟩ := next_of_due hit h
    have hway := (h.ask hit).2.2
    rw [perform_next_ok hnext] at hway
    rw [Memory.elementAt?_eq] at hnext
    have honly := onlyIterates_next hnext
    cases hx : (w.memory.elements view)[p]? with
    | none =>
      rw [hx] at hnext
      have hend := List.getElem?_eq_none_iff.1 hx
      have hglance : glance it (most + 1) w = .ok ([], false) w₁ := Action.bind_ok hnext
      refine ⟨w₁, ?_, honly⟩
      rw [hglance, List.drop_of_length_le hend, List.take_nil, decide_eq_false (by omega)]
    | some x =>
      rw [hx] at hnext
      obtain ⟨hlt, hat⟩ := List.getElem?_eq_some_iff.1 hx
      obtain ⟨w₂, hrest, hthen⟩ := ih hway.lt hdue
      rw [hm] at hrest
      have hglance : glance it (most + 1) w = (glance it most >>= fun found =>
          pure (x :: found.1, found.2)) w₁ := Action.bind_ok hnext
      refine ⟨w₂, ?_, honly.trans hthen⟩
      rw [hglance, Action.bind_ok hrest, List.drop_eq_getElem_cons hlt, hat, List.take_succ_cons]
      have hmore : decide (most < (w.memory.elements view).length - (p + 1)) =
          decide (most + 1 < (w.memory.elements view).length - p) := by
        rw [decide_eq_decide]
        omega
      rw [hmore]
      rfl

/-- Rows do not tell of iterations. -/
theorem OnlyIterates.row_eq (h : w.OnlyIterates w') (f : Field) : f.row w' = f.row w := by
  have hrow : f.row { w with iterations := w'.iterations } = f.row w := rfl
  rwa [← h] at hrow

theorem OnlyIterates.rows_eq (h : w.OnlyIterates w') (fields : List Field) :
    rows w' fields = rows w fields := by
  have hrows : rows { w with iterations := w'.iterations } fields = rows w fields := rfl
  rwa [← h] at hrows

/-- A row is built by beginning an iteration, and that is all that is done. -/
theorem inspect_of_row {field : Field} {row : Row} (h : field.row w = .ok row) :
    ∃ w', field.inspect w = .ok row w' ∧ w.OnlyIterates w' := by
  rw [Field.row_eq] at h
  unfold elements at h
  cases hv : w.viewOf (w.vec field.vec) with
  | error e =>
    rw [hv] at h
    cases h
  | ok view =>
    rw [hv] at h
    cases h
    let w₁ : World := { w with iterations := w.iterations.push (.fresh field.vec) }
    have hlt : w.iterations.size < w₁.iterations.size := by
      change _ < (w.iterations.push _).size
      rw [Array.size_push]
      omega
    have hfresh : w₁.iteration w.iterations.size = .fresh field.vec := by
      rw [iteration_push, if_pos rfl]
    obtain ⟨w', hglance, honly⟩ := glance_of_due 4 hlt (.first hfresh hv)
    have hinspect : field.inspect w = (glance w.iterations.size 4 >>= fun found =>
        pure (field.rowShowing w (shown found.1 found.2))) w₁ := rfl
    refine ⟨w', ?_, honly⟩
    rw [hinspect, Action.bind_ok hglance]
    change EStateM.Result.ok (field.rowShowing w (shown ((w.memory.elements view).take 4)
      (decide (4 < (w.memory.elements view).length)))) w' = _
    rw [← preview_eq]

/-- The same rows are built one after the other. -/
theorem inspection_of_rows {fields : List Field} {rs : List Row} (h : rows w fields = .ok rs) :
    ∃ w', inspection fields w = .ok rs w' ∧ w.OnlyIterates w' := by
  induction fields generalizing w rs with
  | nil =>
    cases h
    exact ⟨w, rfl, .refl w⟩
  | cons field fields ih =>
    unfold rows at h
    rw [List.mapM_cons] at h
    cases hrow : field.row w with
    | error e =>
      rw [hrow] at h
      cases h
    | ok row =>
      cases hrest : rows w fields with
      | error e =>
        unfold rows at hrest
        rw [hrow, hrest] at h
        cases h
      | ok rest =>
        obtain ⟨w₁, hfirst, honly⟩ := inspect_of_row hrow
        obtain ⟨w₂, hthen, honly₂⟩ := ih (honly.rows_eq fields ▸ hrest)
        unfold rows at hrest
        rw [hrow, hrest] at h
        cases h
        refine ⟨w₂, ?_, honly.trans honly₂⟩
        unfold inspection at hthen ⊢
        rw [List.mapM_cons, Action.bind_ok hfirst, Action.bind_ok hthen]
        rfl

/-- What a row says of a field: what the bytes say that the field was read from, and the mode that its vector
has. -/
structure RowOf (w : World) (f : FieldReading) (field : Field) (row : Row) : Prop where
  name_eq : row.name = Text.Utf8.decode f.name
  kind_eq : row.kind = Text.ofString f.kind.name
  stride_eq : row.stride = ofNat f.stride
  count_eq : row.count = ofNat f.count
  count_whole : Whole row.count f.count
  mode_eq : row.mode = Text.ofString (w.vec field.vec).mode.name
  bytes_eq : row.bytes = ofNat (f.count * f.stride * f.kind.width)
  bytes_whole : Whole row.bytes (f.count * f.stride * f.kind.width)
  vecKind_eq : (w.vec field.vec).kind = f.kind
  size_eq : (w.vec field.vec).size = f.count * f.stride
  elements_eq : w.elements (w.vec field.vec) = .ok (f.words.map f.kind.load)
  preview_eq : row.preview = shown ((f.words.map f.kind.load).take 4) (decide (4 < f.count * f.stride))

/-- There is one row for each field, in the order of the fields. -/
inductive Tabulated (w : World) : List FieldReading → List Field → List Row → Prop where
  | nil : Tabulated w [] [] []
  | cons {f : FieldReading} {field : Field} {row : Row} {fs : List FieldReading} {fields : List Field}
      {rs : List Row} (first : w.RowOf f field row) (rest : Tabulated w fs fields rs) :
    Tabulated w (f :: fs) (field :: fields) (row :: rs)

section Placed

variable {buffers start : Nat} {source : ByteRange} {lender : Option Nat} {inPlace : Bool}

/-- Elements that have just been taken are counted by a natural number, without a sign. -/
theorem count_of_heldFrom {r : ByteRange} {kind : Kind} {v : Vec} (h : HeldFrom buffers r kind lender v.holding) :
    v.count = ofNat v.size := by
  cases lender with
  | some region =>
    obtain ⟨serial, hv⟩ := h
    simp only [Vec.count, Vec.size, hv]
  | none =>
    unfold HeldFrom at h
    split_ifs at h with hshares
    · simp only [Vec.count, Vec.size, h, Growable.over, Growable.size, Bool.false_eq_true, if_false]
    · obtain ⟨buffer, -, hv⟩ := h
      simp only [Vec.count, Vec.size, hv, Growable.size, Bool.false_eq_true, if_false]

/-- The number of elements of a field is got back exactly. -/
theorem count_div_stride {f : FieldReading} {field : Field} (hf : f.Proper start)
    (hle : f.payload.length ≤ exactBound) (h : w.Placed buffers source lender inPlace start f field) :
    (w.vec field.vec).count / ofNat field.stride = ofNat f.count ∧ Whole (ofNat f.count) f.count := by
  have hsize : (w.vec field.vec).size = f.count * f.stride := by
    rw [(h.decoded hf).shows.size_eq, FieldReading.words, Word.length_split, FieldReading.size]
  rw [hf.payload_length] at hle
  have hfits : f.count * f.stride ≤ exactBound := (Nat.le_mul_of_pos_right f.size f.kind.width_pos).trans hle
  have hstride : f.stride ≤ exactBound := by
    have hbig : 2 ^ 32 ≤ exactBound := by decide
    exact hf.stride_lt.le.trans hbig
  rw [count_of_heldFrom h.held, hsize, h.stride_eq]
  exact ⟨ofNat_mul_div hf.stride_pos hstride hfits,
    whole_ofNat ((Nat.le_mul_of_pos_right f.count hf.stride_pos).trans hfits)⟩

/-- The row of a field that is where it was read. -/
theorem rowOf_of_placed {f : FieldReading} {field : Field} (hf : f.Proper start)
    (hle : f.payload.length ≤ exactBound)
    (h : w.Placed buffers source lender inPlace start f field) :
    ∃ row, field.row w = .ok row ∧ w.RowOf f field row := by
  have hshows := (h.decoded hf).shows
  have hlength : f.words.length = f.count * f.stride := Word.length_split ..
  have hsize : (w.vec field.vec).size = f.count * f.stride := hshows.size_eq.trans hlength
  obtain ⟨hcount, hwhole⟩ := count_div_stride hf hle h
  rw [hf.payload_length, FieldReading.size] at hle
  -- with the parts of the row as variables, no number is computed when they are taken from it
  have hparts : ∀ {name kind mode preview : Text} {stride count bytes : Binary64},
      name = Text.Utf8.decode f.name → kind = Text.ofString f.kind.name → stride = ofNat f.stride →
      count = ofNat f.count → mode = Text.ofString (w.vec field.vec).mode.name →
      bytes = ofNat (f.count * f.stride * f.kind.width) →
      preview = shown ((f.words.map f.kind.load).take 4) (decide (4 < f.count * f.stride)) →
      w.RowOf f field ⟨name, kind, stride, count, mode, bytes, preview⟩ := by
    intro name kind mode preview stride count bytes hname hkind hstride hcount hmode hbytes hpreview
    have hexact : Whole count f.count := by
      rw [hcount]
      exact hwhole
    have htaken : Whole bytes (f.count * f.stride * f.kind.width) := by
      rw [hbytes]
      exact whole_ofNat hle
    exact ⟨hname, hkind, hstride, hcount, hexact, hmode, hbytes, htaken, hshows.kind_eq, hsize, hshows.elements,
      hpreview⟩
  refine ⟨field.rowShowing w (preview (f.words.map f.kind.load) previewLength), ?_,
    hparts h.name_eq ?_ ?_ hcount ?_ ?_ ?_⟩
  · rw [Field.row_eq, hshows.elements]
    rfl
  · rw [hshows.kind_eq]
  · rw [h.stride_eq]
  · rw [h.attached_eq]
  · rw [hsize, hshows.kind_eq]
  · rw [preview_eq, List.length_map, hlength]

theorem tabulated_of_placedFrom {fs : List FieldReading} {fields : List Field} (hfs : ProperFrom start fs)
    (hle : (fs.flatMap FieldReading.bytes).length ≤ exactBound)
    (h : w.PlacedFrom buffers source lender inPlace start fs fields) :
    ∃ rs, rows w fields = .ok rs ∧ w.Tabulated fs fields rs := by
  induction fs generalizing start fields with
  | nil =>
    obtain rfl : fields = [] := h
    exact ⟨[], rfl, .nil⟩
  | cons f fs ih =>
    obtain ⟨field, fields, rfl, hfirst, hrest⟩ := h
    rw [List.flatMap_cons, List.length_append, f.length_bytes] at hle
    obtain ⟨row, hrow, hof⟩ := rowOf_of_placed hfs.1 (by omega) hfirst
    obtain ⟨rs, hrows, htab⟩ := ih hfs.2 (by omega) hrest
    refine ⟨row :: rs, ?_, .cons hof htab⟩
    unfold rows at hrows ⊢
    rw [List.mapM_cons, hrow, hrows]
    rfl

end Placed

/-- The sizes that rows give are those of the elements. -/
theorem Tabulated.whole_bytes {fs : List FieldReading} {fields : List Field} {rs : List Row}
    (h : w.Tabulated fs fields rs) :
    List.Forall₂ (fun row n => Whole row.bytes n) rs
      (fields.map fun f => (w.vec f.vec).size * (w.vec f.vec).kind.width) := by
  induction h with
  | nil => exact .nil
  | cons first _ ih =>
    refine .cons ?_ ih
    dsimp only
    rw [first.size_eq, first.vecKind_eq]
    exact first.bytes_whole

/-- The rows of a bundle that has been read: one for each field, with what the bytes say. They sum up to no more
bytes than there were, and building them begins iterations and does nothing else. -/
structure Inspected (w : World) (room : Nat) (fs : List FieldReading) (fields : List Field) (rs : List Row) :
    Prop where
  rows_eq : rows w fields = .ok rs
  tabulated : w.Tabulated fs fields rs
  sum_le : ∃ sizes, List.Forall₂ (fun row n => Whole row.bytes n) rs sizes ∧ sizes.sum ≤ room
  readOnly : ∃ w', inspection fields w = .ok rs w' ∧ w.OnlyIterates w'

/-- Whatever is decoded, its rows show what stood in front of the reader. -/
theorem inspected_of_decode {reader : Nat} {policy : Policy} {before after : Bytes} {fields : List Field}
    (h : w.At reader before after) (hd : decode reader policy w = .ok fields w') :
    ∃ r rest rs, after = Reading.bytes r ++ rest ∧ ProperFrom (before.length + headerBytes) r.fields ∧
      w'.Inspected after.length r.fields fields rs := by
  obtain ⟨r, rest, rfl, -, -, hproper, -, -, hplaced⟩ := placedFrom_of_decode h hd
  have hlength : (r.bytes ++ rest).length =
      headerBytes + (r.fields.flatMap FieldReading.bytes).length + rest.length := by
    rw [Reading.bytes, List.length_append, List.length_append, Reading.length_header]
  have hlt := h.length_lt
  rw [List.length_append] at hlt
  obtain ⟨rs, hrows, htab⟩ := tabulated_of_placedFrom hproper (by omega) hplaced
  have hused := le_length_of_decoded hproper (hplaced.decoded hproper)
  refine ⟨r, rest, rs, rfl, hproper, hrows, htab, ⟨_, htab.whole_bytes, ?_⟩, inspection_of_rows hrows⟩
  change elementBytes w' fields ≤ _
  omega

/-- Two fields are read in place by one reader and copied by the other, and both times their rows show them. -/
theorem inspected_of_decode_twoAndFive :
    twoAndFive.At 0 [] (twoAndFive.bytes ⟨0, 0, 69, false⟩) ∧ twoAndFive.At 1 [] (twoAndFive.bytes ⟨0, 0, 69, false⟩) ∧
      (∃ fields w' r rs, decode 0 {} twoAndFive = .ok fields w' ∧
        w'.Inspected 69 (Reading.fields r) fields rs) ∧
      ∃ fields w' r rs, decode 1 {} twoAndFive = .ok fields w' ∧
        w'.Inspected 69 (Reading.fields r) fields rs := by
  have hlending : twoAndFive.At 0 [] (twoAndFive.bytes ⟨0, 0, 69, false⟩) :=
    ⟨by decide, ⟨by decide, by decide⟩, by decide, rfl, rfl⟩
  have hcopying : twoAndFive.At 1 [] (twoAndFive.bytes ⟨0, 0, 69, false⟩) :=
    ⟨by decide, ⟨by decide, by decide⟩, by decide, rfl, rfl⟩
  have hlength : (twoAndFive.bytes ⟨0, 0, 69, false⟩).length = 69 := by decide
  have hinspected : ∀ reader, twoAndFive.At reader [] (twoAndFive.bytes ⟨0, 0, 69, false⟩) →
      (answer? (decode reader {} twoAndFive)).isSome = true →
      ∃ fields w' r rs, decode reader {} twoAndFive = .ok fields w' ∧
        w'.Inspected 69 (Reading.fields r) fields rs := by
    intro reader hat hsome
    obtain ⟨fields, hfields⟩ := Option.isSome_iff_exists.1 hsome
    obtain ⟨w', hd⟩ := exists_of_answer? hfields
    obtain ⟨r, rest, rs, -, -, hinspected⟩ := inspected_of_decode hat hd
    rw [hlength] at hinspected
    exact ⟨fields, w', r, rs, hd, hinspected⟩
  exact ⟨hlending, hcopying, hinspected 0 hlending (by decide +kernel), hinspected 1 hcopying (by decide +kernel)⟩

end World

end LeaseVec
