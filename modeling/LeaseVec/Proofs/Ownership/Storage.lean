import LeaseVec.Proofs.Ownership.Basic
import LeaseVec.Proofs.World.Changes

/-!
# Storage after a change of the tables

How the storage of owners and the ranges that are lent follow from the tables of a world, for each way in
which a step changes the tables.
-/

namespace LeaseVec.World

open Number

variable {w w' : World}

theorem storage?_congr (hv : w'.vecs = w.vecs) (ha : w'.arrays = w.arrays) (o : Owner) :
    w'.storage? o = w.storage? o := by
  cases o with
  | vec id =>
    unfold storage? vec
    rw [hv]
  | array id =>
    unfold storage?
    rw [ha]

theorem storage?_vec_of_owned {id : Nat} {a : Growable} (h : (w.vec id).holding = .owned a) :
    w.storage? (.vec id) = some a := by
  unfold storage?
  simp only [h]

theorem owned_of_storage? {id : Nat} {a : Growable} (h : w.storage? (.vec id) = some a) :
    (w.vec id).holding = .owned a := by
  unfold storage? at h
  cases hh : (w.vec id).holding with
  | empty => simp [hh] at h
  | borrowed view region => simp [hh] at h
  | owned b =>
    simp only [hh, Option.some.injEq] at h
    rw [h]

theorem lt_size_of_storage? {id : Nat} {a : Growable} (h : w.storage? (.vec id) = some a) :
    id < w.vecs.size := by
  rcases Nat.lt_or_ge id w.vecs.size with hlt | hge
  · exact hlt
  · have hown := owned_of_storage? h
    rw [vec_of_size_le w hge] at hown
    cases hown

theorem storage?_array {id : Nat} (h : id < w.arrays.size) :
    w.storage? (.array id) = some (w.array id) := w.getElem?_arrays h

theorem storage?_setHolding {id : Nat} {h : Holding} {o : Owner} {a : Growable}
    (ha : (w.setHolding id h).storage? o = some a) :
    o = .vec id ∧ h = .owned a ∨ o ≠ .vec id ∧ w.storage? o = some a := by
  cases o with
  | array j => exact Or.inr ⟨by simp, ha⟩
  | vec j =>
    have hown := owned_of_storage? ha
    by_cases hj : j = id
    · subst hj
      by_cases hlt : j < w.vecs.size
      · rw [vec_setHolding_self w h hlt] at hown
        exact Or.inl ⟨rfl, hown⟩
      · rw [vec_of_size_le _ (by simpa using hlt)] at hown
        cases hown
    · rw [vec_setHolding_of_ne w id h hj] at hown
      exact Or.inr ⟨by simpa using hj, storage?_vec_of_owned hown⟩

theorem storage?_setArray {id : Nat} {b : Growable} {o : Owner} {a : Growable}
    (ha : (w.setArray id b).storage? o = some a) :
    o = .array id ∧ a = b ∨ o ≠ .array id ∧ w.storage? o = some a := by
  cases o with
  | vec j => exact Or.inr ⟨by simp, ha⟩
  | array j =>
    change (w.setArray id b).arrays[j]? = some a at ha
    rw [getElem?_setArray] at ha
    split_ifs at ha with hj
    · cases ha
      exact Or.inl ⟨by rw [hj.1], rfl⟩
    · by_cases he : j = id
      · subst he
        have hsize : w.arrays.size ≤ j := by simpa using hj
        rw [Array.getElem?_eq_none hsize] at ha
        cases ha
      · exact Or.inr ⟨by simpa using he, ha⟩

theorem storage?_setArray_of_ne {id : Nat} (a : Growable) {o : Owner} (ho : o ≠ .array id) :
    (w.setArray id a).storage? o = w.storage? o := by
  cases o with
  | vec j => rfl
  | array j =>
    have hj : j ≠ id := fun he => ho (by rw [he])
    exact getElem?_setArray_of_ne w id a hj

theorem Lends.congr {r : ByteRange} (h : w'.Lends r) (hr : w'.regions = w.regions)
    (hs : w'.readers = w.readers) (hv : w'.vecs = w.vecs) (ht : w'.stores = w.stores) : w.Lends r := by
  cases h with
  | held id r h =>
    unfold region at h
    rw [hr] at h
    exact .held id r h
  | source id h =>
    unfold reader
    rw [hs] at h ⊢
    exact .source id h
  | stored id files path r hf h =>
    unfold store at hf
    rw [ht] at hf
    exact .stored id files path r hf h
  | borrowed id view reg h =>
    unfold vec at h
    rw [hv] at h
    exact .borrowed id view reg h

theorem Lends.of_setHolding {id : Nat} {h : Holding} {r : ByteRange}
    (hl : (w.setHolding id h).Lends r) :
    w.Lends r ∨ ∃ view reg, h = .borrowed view reg ∧ r = view.range := by
  cases hl with
  | held j r h => exact Or.inl (.held j r h)
  | source j h => exact Or.inl (.source j h)
  | stored j files path r hs h => exact Or.inl (.stored j files path r hs h)
  | borrowed j view reg hh =>
    rw [vec_setHolding] at hh
    split_ifs at hh with hj
    · exact Or.inr ⟨view, reg, hh, rfl⟩
    · exact Or.inl (.borrowed j view reg hh)

theorem Renews.refl {o : Owner} {a : Growable} (h : w.storage? o = some a) :
    w.Renews o w.memory a where
  grows := Memory.Grows.refl _
  frame := Memory.Frame.refl _ _
  buffer_cases := Or.inl ⟨a, h, rfl⟩
  buffer_lt := fun he => he.stored o a h
  fits := fun _ hi => hi.fits o a h
  kind_eq := by
    rintro hi id rfl -
    exact hi.kind_eq id a h

theorem Renews.fresh {o : Owner} {m : Memory} {a : Growable} (h : Growable.Fresh w.memory m a)
    (hk : ∀ id, o = .vec id → id < w.vecs.size → a.kind = (w.vec id).kind) : w.Renews o m a where
  grows := h.grows
  frame := h.frame.mono fun _ _ hf => hf.elim
  buffer_cases := Or.inr h.size_le
  buffer_lt := fun _ => h.buffer_lt
  fits := fun _ _ => h.fits
  kind_eq := fun _ => hk

/-- A step of the array continues what has been done for the owner. -/
theorem Renews.update {o : Owner} {m m' : Memory} {a a' : Growable} (h : w.Renews o m a)
    (hu : Growable.Updates m a m' a') : w.Renews o m' a' where
  grows := h.grows.trans hu.grows
  frame := by
    intro b hb hne
    have ha : b ≠ a.buffer := by
      rcases h.buffer_cases with ⟨c, hc, he⟩ | hge
      · rintro rfl
        exact hne ⟨c, hc, he.symm⟩
      · omega
    rw [hu.frame b (hb.trans_le h.grows.size_le) ha]
    exact h.frame b hb hne
  buffer_cases := by
    rcases hu.buffer_cases with he | hge
    · rw [he]
      exact h.buffer_cases
    · exact Or.inr (h.grows.size_le.trans hge)
  buffer_lt := fun he => hu.buffer_lt (h.buffer_lt he)
  fits := by
    intro hm hi
    have hm' := hm.of_grows hu.grows
    exact hu.fits hm' (h.fits hm' hi)
  kind_eq := by
    intro hi id ho hlt
    rw [hu.kind_eq]
    exact h.kind_eq hi id ho hlt

theorem Renews.places_vec {id : Nat} {m : Memory} {a : Growable} (h : w.Renews (.vec id) m a)
    (promotions : Array Promotion) : w.Places (w.withOwned id a m promotions) (.vec id) a where
  renews := h
  others := by
    intro o b hb
    rcases storage?_setHolding hb with ⟨rfl, he⟩ | ⟨hne, hold⟩
    · cases he
      exact Or.inl ⟨rfl, rfl⟩
    · refine Or.inr ⟨hne, ?_⟩
      rw [← hold]
      exact (storage?_congr rfl rfl o).symm
  lends := by
    intro r hr
    rcases hr.of_setHolding with hold | ⟨view, reg, he, -⟩
    · exact hold.congr rfl rfl rfl rfl
    · cases he
  kind_eq := by
    intro hi j b hb
    unfold withOwned
    rw [kind_vec_setHolding]
    change b.kind = (w.vec j).kind
    rcases storage?_setHolding hb with ⟨he, hown⟩ | ⟨-, hold⟩
    · cases hown
      cases he
      have hlt := lt_size_of_storage? hb
      exact h.kind_eq hi id rfl (by simpa using hlt)
    · refine hi.kind_eq j b ?_
      rw [← hold]
      exact (storage?_congr rfl rfl _).symm

theorem Renews.places_array {id : Nat} {m : Memory} {a : Growable} (h : w.Renews (.array id) m a) :
    w.Places ({ w with memory := m }.setArray id a) (.array id) a where
  renews := h
  others := by
    intro o b hb
    rcases storage?_setArray hb with ⟨rfl, rfl⟩ | ⟨hne, hold⟩
    · exact Or.inl ⟨rfl, rfl⟩
    · refine Or.inr ⟨hne, ?_⟩
      rw [← hold]
      exact (storage?_congr rfl rfl o).symm
  lends := fun r hr => hr.congr rfl rfl rfl rfl
  kind_eq := by
    intro hi j b hb
    rcases storage?_setArray hb with ⟨he, -⟩ | ⟨-, hold⟩
    · cases he
    · refine hi.kind_eq j b ?_
      rw [← hold]
      exact (storage?_congr rfl rfl _).symm

end LeaseVec.World
