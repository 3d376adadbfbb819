import LeaseVec.Proofs.Ownership.Storage

/-!
# Changes of vectors and arrays

A change of a vector ends in the world it started in or in one where that vector alone has got storage,
and likewise for an array. A swap exchanges two storages after that. Each of these keeps ownership exclusive.
-/

namespace LeaseVec.World

open Number

variable {w w' : World} {id : Nat}

/-- The worlds in which a change of a vector can end. -/
def Rewrites (w : World) (id : Nat) (w' : World) : Prop :=
  w' = w ∨ ∃ a m p, w' = w.withOwned id a m p ∧ w.Renews (.vec id) m a

theorem Rewrites.advances (h : w.Rewrites id w') : w.Advances w' := by
  rcases h with rfl | ⟨a, m, p, rfl, hr⟩
  · exact Advances.refl _
  · exact (hr.places_vec p).advances

/-- Owned storage is what a vector has, or it is new. -/
theorem own_ok {a : Growable} (h : own id w = .ok a w') :
    ∃ m p, w' = w.withOwned id a m p ∧ w.Renews (.vec id) m a := by
  have howning := owning_own w id
  rw [h] at howning
  cases howning with
  | owned hh =>
    exact ⟨w.memory, w.promotions, (withOwned_self hh).symm, Renews.refl (storage?_vec_of_owned hh)⟩
  | empty =>
    refine ⟨_, _, rfl, Renews.fresh (Growable.fresh_ofWords ..) ?_⟩
    intro j hj _
    cases hj
    rfl
  | promoted p =>
    refine ⟨_, p, rfl, Renews.fresh (Growable.fresh_ofWords ..) ?_⟩
    intro j hj _
    cases hj
    rfl

theorem own_error {e : Fault} (h : own id w = .error e w') : w' = w := by
  have howning := owning_own w id
  rw [h] at howning
  cases howning with
  | ended => rfl
  | otherSort => rfl

/-- A vector has as many elements in owned storage as it had before. -/
theorem length_of_own {a : Growable} (h : own id w = .ok a w') : a.length = (w.vec id).size := by
  have howning := owning_own w id
  rw [h] at howning
  unfold Vec.size
  cases howning with
  | owned hh => rw [hh]
  | empty hh =>
    rw [hh]
    rfl
  | promoted p hh =>
    rw [hh]
    simp [Growable.ofView, Growable.ofWords, Memory.wordsAs]

theorem storage?_withOwned_self (hid : id < w.vecs.size) (a : Growable) (m : Memory)
    (p : Array Promotion) : (w.withOwned id a m p).storage? (.vec id) = some a := by
  apply storage?_vec_of_owned
  rw [vec_withOwned_self a m p hid]

theorem rewrites_own : w.Rewrites id ((own id).after w) := by
  cases h : own id w with
  | ok a w' =>
    rw [Action.after_ok h]
    obtain ⟨m, p, rfl, hr⟩ := own_ok h
    exact Or.inr ⟨a, m, p, rfl, hr⟩
  | error e w' =>
    rw [Action.after_error h]
    exact Or.inl (own_error h)

/-- A change that is a step of the array is a change of the vector alone. -/
theorem rewrites_changeOwned (change : Memory → Growable → Except Fault (Growable × Memory))
    (hc : ∀ m a a' m', change m a = .ok (a', m') → Growable.Updates m a m' a') :
    w.Rewrites id ((changeOwned id change).after w) := by
  cases h : own id w with
  | error e w' =>
    rw [Action.after_error (changeOwned_of_error h)]
    exact Or.inl (own_error h)
  | ok a w' =>
    obtain ⟨m, p, rfl, hr⟩ := own_ok h
    cases hstep : change m a with
    | error e =>
      rw [Action.after_error (changeOwned_error h hstep)]
      exact Or.inr ⟨a, m, p, rfl, hr⟩
    | ok r =>
      obtain ⟨a', m'⟩ := r
      rw [Action.after_ok (changeOwned_ok h hstep), withOwned_withOwned]
      exact Or.inr ⟨a', m', _, rfl, hr.update (hc _ _ _ _ hstep)⟩

theorem reserve_of_makeRoom {extra : Growable → Binary64} {m m' : Memory} {a a' : Growable}
    (h : makeRoom extra m a = .ok (a', m')) : ∃ moved, a.reserve m (extra a) = .ok (moved, a', m') := by
  unfold makeRoom at h
  cases hr : a.reserve m (extra a) with
  | error e =>
    rw [hr] at h
    cases h
  | ok r =>
    obtain ⟨moved, b, n⟩ := r
    rw [hr] at h
    cases h
    exact ⟨moved, rfl⟩

theorem error_of_makeRoom {extra : Growable → Binary64} {m : Memory} {a : Growable} {e : Fault}
    (h : makeRoom extra m a = .error e) : a.reserve m (extra a) = .error e := by
  unfold makeRoom at h
  cases hr : a.reserve m (extra a) with
  | error e =>
    rw [hr] at h
    cases h
    rfl
  | ok r =>
    rw [hr] at h
    cases h

theorem updates_makeRoom {extra : Growable → Binary64} {m m' : Memory} {a a' : Growable}
    (h : makeRoom extra m a = .ok (a', m')) : Growable.Updates m a m' a' := by
  obtain ⟨moved, hr⟩ := reserve_of_makeRoom h
  exact Growable.updates_reserve hr

/-- What has made room and then refuses has rewritten the vector at most. -/
theorem rewrites_refuse (extra : Growable → Binary64) : w.Rewrites id ((refuse id extra).after w) := by
  rw [refuse_eq, Action.after_bind_throw]
  exact rewrites_changeOwned _ fun _ _ _ _ h => updates_makeRoom h

theorem rewrites_push (x : Scalar) : w.Rewrites id ((push id x).after w) := by
  unfold Action.after
  rw [push_eq]
  split_ifs
  · exact rewrites_changeOwned _ fun _ _ _ _ h => Growable.updates_push h
  · exact rewrites_refuse _

theorem rewrites_setAt (index : Binary64) (x : Scalar) :
    w.Rewrites id ((setAt id index x).after w) := by
  unfold Action.after
  rw [setAt_eq]
  cases acceptIndex index (w.vec id).size with
  | error e => exact Or.inl rfl
  | ok i =>
    by_cases hx : (w.vec id).kind.admits x = true
    · simp only [if_pos hx]
      refine rewrites_changeOwned (fun m a => .ok (a, m.writeWords a.slots i [a.kind.store x]))
        fun m a a' m' h => ?_
      cases h
      exact (Growable.Updates.refl m a).write i _ fun _ ha => ⟨ha.length_le, ha.signed⟩
    · simp only [if_neg hx]
      have hafter := Action.after_bind_throw (β := Unit) (own id) .sortRefused w
      have hown : w.Rewrites id ((own id).after w) := rewrites_own
      rwa [← hafter] at hown

theorem rewrites_resize (length : Binary64) (fill : Option Scalar) :
    w.Rewrites id ((resize id length fill).after w) := by
  unfold Action.after
  rw [resize_eq]
  split_ifs
  · exact Or.inl rfl
  · exact rewrites_changeOwned _ fun _ _ _ _ h => Growable.updates_resize h
  · exact rewrites_refuse _

theorem rewrites_pop : w.Rewrites id ((pop id).after w) := by
  cases h : own id w with
  | error e w' =>
    rw [Action.after_error (pop_of_error h)]
    exact Or.inl (own_error h)
  | ok a w' =>
    obtain ⟨m, p, rfl, hr⟩ := own_ok h
    rw [Action.after_ok (pop_ok h), withOwned_withOwned]
    exact Or.inr ⟨_, m, p, rfl, hr.update (Growable.updates_pop m a)⟩

theorem grows_countView (m : Memory) : m.Grows (countView m) := ⟨le_rfl, fun _ _ => rfl, rfl⟩

theorem updates_countView (m : Memory) (a : Growable) :
    Growable.Updates m a (countView m) a where
  grows := grows_countView m
  frame := fun _ _ _ => rfl
  kind_eq := rfl
  buffer_cases := Or.inl rfl
  buffer_lt := id
  fits := fun _ ha => ⟨ha.end_le, ha.length_le, ha.signed⟩

theorem rewrites_writableView : w.Rewrites id ((writableView id).after w) := by
  cases h : own id w with
  | error e w' =>
    rw [Action.after_error (writableView_of_error h)]
    exact Or.inl (own_error h)
  | ok a w' =>
    obtain ⟨m, p, rfl, hr⟩ := own_ok h
    rw [Action.after_ok (writableView_ok h)]
    exact Or.inr ⟨a, countView m, p, rfl, hr.update (updates_countView m a)⟩

theorem advances_clear : w.Advances ((clear id).after w) := by
  refine Advances.of_lose (Memory.Grows.refl _) (fun o a ha => ?_) (fun j a _ => ?_) fun r hr => ?_
  · rcases storage?_setHolding ha with ⟨-, he⟩ | ⟨-, hold⟩
    · cases he
    · exact hold
  · exact kind_vec_setHolding w id .empty j
  · rcases hr.of_setHolding with hold | ⟨view, reg, he, -⟩
    · exact Or.inl hold
    · cases he

theorem advances_attach {view : View} {region : Nat}
    (hv : w.isOpen region = true → w.Foreign view.buffer ∧ w.memory.Covers view.range) :
    w.Advances ((attach id view region).after w) := by
  change w.Advances (Action.after (if (w.vec id).mode = .owned then throw .alreadyOwned else
    if w.isOpen region then set (w.setHolding id (.borrowed view region))
    else throw (w.ended region)) w)
  split_ifs with hm ho
  · exact Advances.refl w
  · change w.Advances (w.setHolding id (.borrowed view region))
    have hs : ∀ o a, (w.setHolding id (.borrowed view region)).storage? o = some a →
        w.storage? o = some a := by
      intro o a ha
      rcases storage?_setHolding ha with ⟨-, he⟩ | ⟨-, hold⟩
      · cases he
      · exact hold
    refine Advances.of_lose (Memory.Grows.refl _) hs
      (fun j a _ => kind_vec_setHolding w id _ j) fun r hr => ?_
    rcases hr.of_setHolding with hold | ⟨v, reg, he, rfl⟩
    · exact Or.inl hold
    · cases he
      obtain ⟨hf, hc⟩ := hv ho
      exact Or.inr ⟨⟨hf.lt, fun o a ha => hf.ne o a (hs o a ha)⟩, hc, rfl⟩
  · exact Advances.refl w

/-- The storage of a vector and that of an array of its kind change places. -/
theorem exchanges_withExchanged {array : Nat} {a : Growable} (hid : array < w.arrays.size)
    (hk : (w.vec id).kind = (w.array array).kind) (ha : w.storage? (.vec id) = some a) :
    w.Exchanges (w.withExchanged id array a) (.vec id) (.array array) where
  memory_eq := rfl
  ne := by simp
  first := by
    intro b hb
    have hb' : (w.setHolding id (.owned (w.array array))).storage? (.vec id) = some b := hb
    rcases storage?_setHolding hb' with ⟨-, he⟩ | ⟨hne, -⟩
    · cases he
      exact storage?_array hid
    · exact absurd rfl hne
  second := by
    intro b hb
    rcases storage?_setArray hb with ⟨-, rfl⟩ | ⟨hne, -⟩
    · exact ha
    · exact absurd rfl hne
  others := by
    intro q b h₁ h₂ hb
    rcases storage?_setArray hb with ⟨he, -⟩ | ⟨-, hold⟩
    · exact absurd he h₂
    · rcases storage?_setHolding hold with ⟨he, -⟩ | ⟨-, hold'⟩
      · exact absurd he h₁
      · exact hold'
  lends := by
    intro r hr
    rcases (hr.congr (w := w.setHolding id (.owned (w.array array))) rfl rfl rfl rfl).of_setHolding with
      hold | ⟨view, reg, he, -⟩
    · exact hold
    · cases he
  kind_eq := by
    intro j b hi hb
    change b.kind = ((w.setHolding id _).vec j).kind
    rw [kind_vec_setHolding]
    have hb' : (w.setHolding id (.owned (w.array array))).storage? (.vec j) = some b := hb
    rcases storage?_setHolding hb' with ⟨he, hown⟩ | ⟨-, hold⟩
    · cases he
      cases hown
      exact hk.symm
    · exact hi.kind_eq j b hold

theorem advances_swapWith {array : Nat} (hv : id < w.vecs.size) (hid : array < w.arrays.size) :
    w.Advances ((swapWith id array).after w) := by
  by_cases hk : (w.vec id).kind = (w.array array).kind
  · cases h : own id w with
    | error e w' =>
      rw [Action.after_error (swapWith_of_error hk h), own_error h]
      exact Advances.refl w
    | ok a w' =>
      rw [Action.after_ok (swapWith_ok hk h)]
      obtain ⟨m, p, rfl, hr⟩ := own_ok h
      refine (hr.places_vec p).advances.trans ?_
      have hk' : ((w.withOwned id a m p).vec id).kind = (w.array array).kind := by
        rw [vec_withOwned_self a m p hv]
        exact hk
      exact (exchanges_withExchanged (w := w.withOwned id a m p) hid hk'
        (storage?_withOwned_self hv a m p)).advances
  · rw [Action.after_error (swapWith_of_ne hk)]
    exact Advances.refl w

end LeaseVec.World
