import LeaseVec.Proofs.Ownership.Vectors

/-!
# Changes of arrays, and new owners

An array is changed where it is. A new array or a new vector with elements brings its own buffer, so it
cannot take anything from those that exist.
-/

namespace LeaseVec.World

open Number

variable {w w' : World} {id : Nat}

theorem changeArray_ok {change : Memory → Growable → Except Fault (Growable × Memory)} {a : Growable}
    {m : Memory} (hc : change w.memory (w.array id) = .ok (a, m)) :
    changeArray id change w = .ok () ({ w with memory := m }.setArray id a) := by
  change (Action.ofExcept (change w.memory (w.array id)) >>= _) w = _
  rw [hc]
  rfl

theorem changeArray_error {change : Memory → Growable → Except Fault (Growable × Memory)} {e : Fault}
    (hc : change w.memory (w.array id) = .error e) : changeArray id change w = .error e w := by
  change (Action.ofExcept (change w.memory (w.array id)) >>= _) w = _
  rw [hc]
  rfl

theorem reserveArray_ok {extra : Binary64} {moved : Bool} {a : Growable} {m : Memory}
    (hr : (w.array id).reserve w.memory extra = .ok (moved, a, m)) :
    reserve id extra w = .ok moved ({ w with memory := m }.setArray id a) := by
  change (Action.ofExcept ((w.array id).reserve w.memory extra) >>= _) w = _
  rw [hr]
  rfl

theorem reserveArray_error {extra : Binary64} {e : Fault}
    (hr : (w.array id).reserve w.memory extra = .error e) : reserve id extra w = .error e w := by
  change (Action.ofExcept ((w.array id).reserve w.memory extra) >>= _) w = _
  rw [hr]
  rfl

/-- The worlds in which a change of an array can end. -/
def RewritesArray (w : World) (id : Nat) (w' : World) : Prop :=
  w' = w ∨ ∃ a m, w' = { w with memory := m }.setArray id a ∧ w.Renews (.array id) m a

theorem RewritesArray.advances (h : w.RewritesArray id w') : w.Advances w' := by
  rcases h with rfl | ⟨a, m, rfl, hr⟩
  · exact Advances.refl _
  · exact hr.places_array.advances

theorem renews_array (hid : id < w.arrays.size) {a : Growable} {m : Memory}
    (h : Growable.Updates w.memory (w.array id) m a) : w.Renews (.array id) m a :=
  (Renews.refl (storage?_array hid)).update h

theorem rewrites_changeArray (hid : id < w.arrays.size)
    {change : Memory → Growable → Except Fault (Growable × Memory)}
    (hc : ∀ m a a' m', change m a = .ok (a', m') → Growable.Updates m a m' a') :
    w.RewritesArray id ((changeArray id change).after w) := by
  change w.RewritesArray id ((Action.ofExcept (change w.memory (w.array id)) >>= fun r =>
    (set ({ w with memory := r.2 }.setArray id r.1) : Action Unit)).after w)
  cases h : change w.memory (w.array id) with
  | error e => exact Or.inl rfl
  | ok r => exact Or.inr ⟨r.1, r.2, rfl, renews_array hid (hc _ _ _ _ h)⟩

theorem rewrites_reserve (hid : id < w.arrays.size) (extra : Binary64) :
    w.RewritesArray id ((reserve id extra).after w) := by
  cases h : (w.array id).reserve w.memory extra with
  | error e => exact Or.inl (Action.after_error (reserveArray_error h))
  | ok r =>
    obtain ⟨moved, a, m⟩ := r
    exact Or.inr ⟨a, m, Action.after_ok (reserveArray_ok h), renews_array hid (Growable.updates_reserve h)⟩

theorem rewrites_pushArray (hid : id < w.arrays.size) (x : Scalar) :
    w.RewritesArray id ((pushArray id x).after w) := by
  unfold Action.after
  rw [pushArray_eq]
  split_ifs
  · exact rewrites_changeArray hid fun _ _ _ _ h => Growable.updates_push h
  · have hafter := Action.after_bind_throw (β := Unit) (reserve id 1) .sortRefused w
    have hreserve := rewrites_reserve hid 1
    rwa [← hafter] at hreserve

theorem rewrites_resizeArray (hid : id < w.arrays.size) (length : Binary64) (fill : Scalar) :
    w.RewritesArray id ((resizeArray id length fill).after w) := by
  unfold Action.after
  rw [resizeArray_eq]
  split_ifs
  · exact rewrites_changeArray hid fun _ _ _ _ h => Growable.updates_resize h
  · have hafter := Action.after_bind_throw (β := Unit) (reserve id (length - (w.array id).size)) .sortRefused w
    have hreserve := rewrites_reserve hid (length - (w.array id).size)
    rwa [← hafter] at hreserve

theorem rewrites_popArray (hid : id < w.arrays.size) :
    w.RewritesArray id ((popArray id).after w) :=
  Or.inr ⟨((w.array id).pop w.memory).2, w.memory, rfl,
    renews_array hid (Growable.updates_pop w.memory (w.array id))⟩

/-- A step that changes only memory, and there no length. -/
theorem advances_memory {m : Memory} (hg : w.memory.Grows m) :
    w.Advances { w with memory := m } :=
  Advances.of_lose hg (fun o a ha => by rw [← ha]; exact (storage?_congr rfl rfl o).symm)
    (fun _ _ _ => rfl) (fun _ hr => Or.inl (hr.congr rfl rfl rfl rfl))

theorem exchanges_arrays {other : Nat} (hid : id < w.arrays.size) (hother : other < w.arrays.size)
    (hne : id ≠ other) :
    w.Exchanges ((w.setArray id (w.array other)).setArray other (w.array id))
      (.array id) (.array other) where
  memory_eq := rfl
  ne := by simpa using hne
  first := by
    intro b hb
    rcases storage?_setArray hb with ⟨he, -⟩ | ⟨-, hold⟩
    · exact absurd he (by simpa using hne)
    · rcases storage?_setArray hold with ⟨-, rfl⟩ | ⟨ho, -⟩
      · exact storage?_array hother
      · exact absurd rfl ho
  second := by
    intro b hb
    rcases storage?_setArray hb with ⟨-, rfl⟩ | ⟨ho, -⟩
    · exact storage?_array hid
    · exact absurd rfl ho
  others := by
    intro q b h₁ h₂ hb
    rwa [storage?_setArray_of_ne _ h₂, storage?_setArray_of_ne _ h₁] at hb
  lends := fun r hr => hr.congr rfl rfl rfl rfl
  kind_eq := fun j b hi hb => hi.kind_eq j b hb

/-- Two arrays of one kind change places; an array and itself stay as they are. -/
theorem advances_swapArrays {other : Nat} (hid : id < w.arrays.size)
    (hother : other < w.arrays.size) : w.Advances ((swapArrays id other).after w) := by
  change w.Advances ((Action.ofExcept ((w.array id).swap (w.array other)) >>= fun r =>
    (set ((w.setArray id r.1).setArray other r.2) : Action Unit)).after w)
  unfold Growable.swap
  split_ifs with hk
  · change w.Advances ((w.setArray id (w.array other)).setArray other (w.array id))
    by_cases hne : id = other
    · subst hne
      refine Advances.of_lose (Memory.Grows.refl _) (fun o a ha => ?_) (fun _ _ _ => rfl)
        fun r hr => Or.inl (hr.congr rfl rfl rfl rfl)
      rcases storage?_setArray ha with ⟨rfl, rfl⟩ | ⟨ho, hold⟩
      · exact storage?_array hid
      · rwa [storage?_setArray_of_ne _ ho] at hold
    · exact (exchanges_arrays hid hother hne).advances
  · exact Advances.refl w

theorem places_addArray {a : Growable} {m : Memory} (h : Growable.Fresh w.memory m a) :
    w.Places ((addArray a m).after w) (.array w.arrays.size) a where
  renews := Renews.fresh h fun j hj _ => by cases hj
  others := by
    intro o b hb
    cases o with
    | vec j => exact Or.inr ⟨by simp, hb⟩
    | array j =>
      change (w.arrays.push a)[j]? = some b at hb
      rw [Array.getElem?_push] at hb
      split_ifs at hb with hj
      · cases hb
        exact Or.inl ⟨by rw [hj], rfl⟩
      · exact Or.inr ⟨by simpa using hj, hb⟩
  lends := fun r hr => hr.congr rfl rfl rfl rfl
  kind_eq := fun hi j b hb => hi.kind_eq j b hb

/-- A new vector that has its storage in a buffer of its own. -/
theorem places_addVec {a : Growable} {m : Memory} (checked : Bool)
    (h : Growable.Fresh w.memory m a) :
    w.Places ((addVec a m checked).after w) (.vec w.vecs.size) a := by
  have hvec : ∀ j, ((addVec a m checked).after w).vec j =
      if j = w.vecs.size then ⟨a.kind, checked, .owned a⟩ else w.vec j := fun j => w.vec_push _ j
  refine ⟨Renews.fresh h fun j hj hlt => ?_, ?_, ?_, ?_⟩
  · cases hj
    exact absurd hlt (lt_irrefl _)
  · intro o b hb
    cases o with
    | array j => exact Or.inr ⟨by simp, hb⟩
    | vec j =>
      have hown := owned_of_storage? hb
      rw [hvec] at hown
      split_ifs at hown with hj
      · cases hown
        exact Or.inl ⟨by rw [hj], rfl⟩
      · exact Or.inr ⟨by simpa using hj, storage?_vec_of_owned hown⟩
  · intro r hr
    cases hr with
    | held j r h => exact .held j r h
    | source j h => exact .source j h
    | stored j files path r hs h => exact .stored j files path r hs h
    | borrowed j view reg hh =>
      rw [hvec] at hh
      split_ifs at hh
      exact .borrowed j view reg hh
  · intro hi j b hb
    have hown := owned_of_storage? hb
    rw [hvec] at hown ⊢
    split_ifs at hown ⊢ with hj
    · cases hown
      rfl
    · exact hi.kind_eq j b (storage?_vec_of_owned hown)

theorem advances_newVec (kind : Kind) (checked : Bool) :
    w.Advances ((newVec kind checked).after w) := by
  have hvec : ∀ j, ((newVec kind checked).after w).vec j =
      if j = w.vecs.size then .new kind checked else w.vec j := fun j => w.vec_push _ j
  have hs : ∀ o a, ((newVec kind checked).after w).storage? o = some a → w.storage? o = some a := by
    intro o a ha
    cases o with
    | array j => exact ha
    | vec j =>
      have hown := owned_of_storage? ha
      rw [hvec] at hown
      split_ifs at hown
      · cases hown
      · exact storage?_vec_of_owned hown
  refine Advances.of_lose (Memory.Grows.refl _) hs (fun j a ha => ?_) fun r hr => ?_
  · rw [hvec, if_neg]
    exact (lt_size_of_storage? (hs _ a ha)).ne
  · cases hr with
    | held j r h => exact Or.inl (.held j r h)
    | source j h => exact Or.inl (.source j h)
    | stored j files path r hs h => exact Or.inl (.stored j files path r hs h)
    | borrowed j view reg hh =>
      rw [hvec] at hh
      split_ifs at hh
      · cases hh
      · exact Or.inl (.borrowed j view reg hh)

end LeaseVec.World
