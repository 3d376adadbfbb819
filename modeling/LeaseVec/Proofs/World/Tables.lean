import LeaseVec.World.Command
import Mathlib.Tactic.SplitIfs

/-!
# Looking up after replacing

The tables of a world are looked up by position, and the files of a memory store by their path. Replacing
an entry that does not exist does nothing, and every other entry is found as it was.
-/

namespace LeaseVec.World

variable (w : World) (id : Nat)

theorem vec_setHolding (h : Holding) (j : Nat) :
    (w.setHolding id h).vec j =
      if j = id ∧ id < w.vecs.size then { w.vec id with holding := h } else w.vec j := by
  unfold setHolding setVec vec
  simp only [Array.getD_eq_getD_getElem?, Array.getElem?_setIfInBounds]
  by_cases hj : id = j
  · subst hj
    by_cases hlt : id < w.vecs.size
    · simp [hlt]
    · simp [hlt]
  · simp [hj, Ne.symm hj]

theorem vec_setHolding_self {id : Nat} (h : Holding) (hid : id < w.vecs.size) :
    (w.setHolding id h).vec id = { w.vec id with holding := h } := by
  rw [vec_setHolding, if_pos ⟨rfl, hid⟩]

theorem vec_setHolding_of_ne (h : Holding) {j : Nat} (hj : j ≠ id) :
    (w.setHolding id h).vec j = w.vec j := by
  rw [vec_setHolding, if_neg fun he => hj he.1]

/-- A vector that does not exist has no storage. -/
theorem vec_of_size_le {id : Nat} (h : w.vecs.size ≤ id) : w.vec id = default := by
  unfold vec
  rw [Array.getD_eq_getD_getElem?, Array.getElem?_eq_none h, Option.getD_none]

@[simp] theorem kind_vec_setHolding (h : Holding) (j : Nat) :
    ((w.setHolding id h).vec j).kind = (w.vec j).kind := by
  rw [vec_setHolding]
  split_ifs with hj
  · rw [hj.1]
  · rfl

@[simp] theorem checked_vec_setHolding (h : Holding) (j : Nat) :
    ((w.setHolding id h).vec j).checked = (w.vec j).checked := by
  rw [vec_setHolding]
  split_ifs with hj
  · rw [hj.1]
  · rfl

theorem setHolding_setHolding (h h' : Holding) :
    (w.setHolding id h).setHolding id h' = w.setHolding id h' := by
  change { w with
    vecs := (w.vecs.setIfInBounds id { w.vec id with holding := h }).setIfInBounds id
      ⟨((w.setHolding id h).vec id).kind, ((w.setHolding id h).vec id).checked, h'⟩ } = _
  rw [Array.setIfInBounds_setIfInBounds, kind_vec_setHolding, checked_vec_setHolding]
  rfl

@[simp] theorem size_vecs_setHolding (h : Holding) :
    (w.setHolding id h).vecs.size = w.vecs.size := Array.size_setIfInBounds

theorem array_of_getElem? {a : Growable} {id : Nat} (h : w.arrays[id]? = some a) :
    w.array id = a := by
  unfold array
  rw [Array.getD_eq_getD_getElem?, h, Option.getD_some]

theorem getElem?_arrays {id : Nat} (h : id < w.arrays.size) :
    w.arrays[id]? = some (w.array id) := by
  unfold array
  rw [Array.getD_eq_getD_getElem?, Array.getElem?_eq_getElem h, Option.getD_some]

theorem getElem?_setArray (a : Growable) (j : Nat) :
    (w.setArray id a).arrays[j]? =
      if j = id ∧ id < w.arrays.size then some a else w.arrays[j]? := by
  unfold setArray
  rw [Array.getElem?_setIfInBounds]
  by_cases hj : id = j
  · subst hj
    by_cases hlt : id < w.arrays.size
    · simp [hlt]
    · simp [hlt]
  · simp [hj, Ne.symm hj]

theorem getElem?_setArray_of_ne (a : Growable) {j : Nat} (hj : j ≠ id) :
    (w.setArray id a).arrays[j]? = w.arrays[j]? := by
  rw [getElem?_setArray, if_neg fun he => hj he.1]

theorem array_setArray_self {id : Nat} (a : Growable) (hid : id < w.arrays.size) :
    (w.setArray id a).array id = a := by
  apply array_of_getElem?
  rw [getElem?_setArray, if_pos ⟨rfl, hid⟩]

theorem array_setArray_of_ne (a : Growable) {j : Nat} (hj : j ≠ id) :
    (w.setArray id a).array j = w.array j := by
  unfold array
  rw [Array.getD_eq_getD_getElem?, Array.getD_eq_getD_getElem?, getElem?_setArray_of_ne w id a hj]

@[simp] theorem size_arrays_setArray (a : Growable) :
    (w.setArray id a).arrays.size = w.arrays.size := Array.size_setIfInBounds

theorem reader_setReader (r : Reader) (j : Nat) :
    (w.setReader id r).reader j = if j = id ∧ id < w.readers.size then r else w.reader j := by
  unfold setReader reader
  simp only [Array.getD_eq_getD_getElem?, Array.getElem?_setIfInBounds]
  by_cases hj : id = j
  · subst hj
    by_cases hlt : id < w.readers.size
    · simp [hlt]
    · simp [hlt]
  · simp [hj, Ne.symm hj]

theorem reader_setReader_self {id : Nat} (r : Reader) (hid : id < w.readers.size) :
    (w.setReader id r).reader id = r := by
  rw [reader_setReader, if_pos ⟨rfl, hid⟩]

/-- Only the offset of the reader that moves is different. -/
@[simp] theorem source_setOffset (offset j : Nat) :
    ((w.setReader id { w.reader id with offset := offset }).reader j).source =
      (w.reader j).source := by
  rw [reader_setReader]
  split_ifs with hj
  · rw [hj.1]
  · rfl

@[simp] theorem lender_setOffset (offset j : Nat) :
    ((w.setReader id { w.reader id with offset := offset }).reader j).lender =
      (w.reader j).lender := by
  rw [reader_setReader]
  split_ifs with hj
  · rw [hj.1]
  · rfl

@[simp] theorem size_readers_setReader (r : Reader) :
    (w.setReader id r).readers.size = w.readers.size := Array.size_setIfInBounds

theorem writer_setWriter_self {id : Nat} (x : Writer) (hid : id < w.writers.size) :
    (w.setWriter id x).writer id = x := by
  unfold setWriter writer
  simp [hid]

@[simp] theorem size_writers_setWriter (id : Nat) (x : Writer) :
    (w.setWriter id x).writers.size = w.writers.size := Array.size_setIfInBounds

theorem iteration_setIteration (i : Iteration) (j : Nat) :
    (w.setIteration id i).iteration j =
      if j = id ∧ id < w.iterations.size then i else w.iteration j := by
  unfold setIteration iteration
  simp only [Array.getD_eq_getD_getElem?, Array.getElem?_setIfInBounds]
  by_cases hj : id = j
  · subst hj
    by_cases hlt : id < w.iterations.size
    · simp [hlt]
    · simp [hlt]
  · simp [hj, Ne.symm hj]

theorem iteration_setIteration_self {id : Nat} (i : Iteration) (hid : id < w.iterations.size) :
    (w.setIteration id i).iteration id = i := by
  rw [iteration_setIteration, if_pos ⟨rfl, hid⟩]

theorem iteration_setIteration_of_ne (i : Iteration) {j : Nat} (hj : j ≠ id) :
    (w.setIteration id i).iteration j = w.iteration j := by
  rw [iteration_setIteration, if_neg fun he => hj he.1]

@[simp] theorem size_iterations_setIteration (id : Nat) (i : Iteration) :
    (w.setIteration id i).iterations.size = w.iterations.size := Array.size_setIfInBounds

theorem vec_push (v : Vec) (j : Nat) :
    { w with vecs := w.vecs.push v }.vec j = if j = w.vecs.size then v else w.vec j := by
  unfold vec
  simp only [Array.getD_eq_getD_getElem?, Array.getElem?_push]
  split_ifs <;> rfl

theorem reader_push (r : Reader) (j : Nat) :
    { w with readers := w.readers.push r }.reader j =
      if j = w.readers.size then r else w.reader j := by
  unfold reader
  simp only [Array.getD_eq_getD_getElem?, Array.getElem?_push]
  split_ifs <;> rfl

theorem iteration_push (i : Iteration) (j : Nat) :
    { w with iterations := w.iterations.push i }.iteration j =
      if j = w.iterations.size then i else w.iteration j := by
  unfold iteration
  simp only [Array.getD_eq_getD_getElem?, Array.getElem?_push]
  split_ifs <;> rfl

theorem region_push (r : Region) (j : Nat) :
    { w with regions := w.regions.push r }.region j =
      if j = w.regions.size then r else w.region j := by
  unfold region
  simp only [Array.getD_eq_getD_getElem?, Array.getElem?_push]
  split_ifs <;> rfl

theorem store_push (s : Store) (j : Nat) :
    { w with stores := w.stores.push s }.store j =
      if j = w.stores.size then s else w.store j := by
  unfold store
  simp only [Array.getD_eq_getD_getElem?, Array.getElem?_push]
  split_ifs <;> rfl

theorem store_setStore (s : Store) (j : Nat) :
    (w.setStore id s).store j = if j = id ∧ id < w.stores.size then s else w.store j := by
  unfold setStore store
  simp only [Array.getD_eq_getD_getElem?, Array.getElem?_setIfInBounds]
  by_cases hj : id = j
  · subst hj
    by_cases hlt : id < w.stores.size
    · simp [hlt]
    · simp [hlt]
  · simp [hj, Ne.symm hj]

end LeaseVec.World

namespace LeaseVec.Store

variable (files : List (Text × ByteRange))

theorem find?_without (p q : Text) :
    find? (without files p) q = if q = p then none else find? files q := by
  unfold find? without
  rw [List.find?_filter]
  split_ifs with h
  · subst h
    simp
  · congr 2
    funext f
    by_cases hf : f.1 = q
    · simp [hf, h]
    · simp [hf]

theorem find?_keep (p q : Text) (r : ByteRange) :
    find? (keep files p r) q = if q = p then some r else find? files q := by
  by_cases h : q = p
  · subst h
    simp [find?, keep]
  · have hne : ¬ p = q := fun he => h he.symm
    rw [if_neg h]
    have hrest := find?_without files p q
    rw [if_neg h] at hrest
    rw [← hrest]
    simp [find?, keep, hne]

end LeaseVec.Store
