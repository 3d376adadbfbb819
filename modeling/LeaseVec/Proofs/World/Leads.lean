import LeaseVec.Proofs.World.Changes
import Mathlib.Order.Defs.Unbundled

/-!
# However a step ends

A step ends with an answer or with a fault. Something that is known of both cases (how the worlds before and
after are related, what the fault may be, and what the answer is) is put together along the steps of an action,
as long as the relation is reflexive and transitive.
-/

namespace LeaseVec.Action

variable {α β : Type} {R : World → World → Prop} {F : Fault → Prop} {w w' : World} {x : Action α}
  {p : α → World → Prop}

/-- However a step ends, the worlds before and after it are related; a failure is of a certain sort, and of a
success more is known. -/
def Leads (R : World → World → Prop) (F : Fault → Prop) (x : Action α) (w : World)
    (post : α → World → Prop) : Prop :=
  match x w with
  | .ok a w' => R w w' ∧ post a w'
  | .error e w' => R w w' ∧ F e

theorem leads_of_ok {a : α} (h : x w = .ok a w') (hr : R w w') (hp : p a w') : Leads R F x w p := by
  unfold Leads
  rw [h]
  exact ⟨hr, hp⟩

theorem leads_of_error {e : Fault} (h : x w = .error e w') (hr : R w w') (hf : F e) : Leads R F x w p := by
  unfold Leads
  rw [h]
  exact ⟨hr, hf⟩

theorem Leads.after (h : Leads R F x w p) : R w (x.after w) := by
  unfold Leads at h
  cases hx : x w with
  | ok a w' =>
    rw [hx] at h
    rw [after_ok hx]
    exact h.1
  | error e w' =>
    rw [hx] at h
    rw [after_error hx]
    exact h.1

theorem leads_pure [Std.Refl R] {a : α} (hp : p a w) : Leads R F (pure a) w p :=
  leads_of_ok rfl (refl_of R w) hp

theorem leads_throw [Std.Refl R] {e : Fault} (hf : F e) : Leads R F (throw e : Action α) w p :=
  leads_of_error rfl (refl_of R w) hf

theorem leads_set {q : PUnit → World → Prop} (hr : R w w') (hq : q ⟨⟩ w') :
    Leads R F (set w' : Action PUnit) w q := leads_of_ok rfl hr hq

theorem Leads.bind [IsTrans World R] {f : α → Action β} {q : β → World → Prop} (hx : Leads R F x w p)
    (hf : ∀ a w', R w w' → p a w' → Leads R F (f a) w' q) : Leads R F (x >>= f) w q := by
  unfold Leads at hx
  cases h : x w with
  | error e w₁ =>
    rw [h] at hx
    exact leads_of_error (bind_error h) hx.1 hx.2
  | ok a w₁ =>
    rw [h] at hx
    have hrest := hf a w₁ hx.1 hx.2
    unfold Leads at hrest
    cases h' : f a w₁ with
    | error e w₂ =>
      rw [h'] at hrest
      exact leads_of_error ((bind_ok h).trans h') (trans_of R hx.1 hrest.1) hrest.2
    | ok b w₂ =>
      rw [h'] at hrest
      exact leads_of_ok ((bind_ok h).trans h') (trans_of R hx.1 hrest.1) hrest.2

theorem Leads.mono {q : α → World → Prop} (h : Leads R F x w p) (hpq : ∀ a w', p a w' → q a w') :
    Leads R F x w q := by
  unfold Leads at h ⊢
  cases hx : x w with
  | ok a w' =>
    rw [hx] at h
    exact ⟨h.1, hpq a w' h.2⟩
  | error e w' =>
    rw [hx] at h
    exact h

/-- What leads by one relation leads by a weaker one. -/
theorem Leads.imp {R' : World → World → Prop} (h : Leads R F x w p) (hr : ∀ w', R w w' → R' w w') :
    Leads R' F x w p := by
  unfold Leads at h ⊢
  cases hx : x w with
  | ok a w' =>
    rw [hx] at h
    exact ⟨hr w' h.1, h.2⟩
  | error e w' =>
    rw [hx] at h
    exact ⟨hr w' h.1, h.2⟩

theorem Leads.get_bind {f : World → Action β} {q : β → World → Prop} (h : Leads R F (f w) w q) :
    Leads R F (get >>= f) w q := h

theorem Leads.ofExcept_bind [Std.Refl R] {e : Except Fault α} {f : α → Action β}
    {q : β → World → Prop} (he : ∀ fault, e = .error fault → F fault)
    (h : ∀ a, e = .ok a → Leads R F (f a) w q) : Leads R F (ofExcept e >>= f) w q := by
  cases e with
  | ok a => exact h a rfl
  | error fault => exact leads_throw (he fault rfl)

theorem Leads.demand_bind [Std.Refl R] {admitted : Bool} {f : Unit → Action β} {q : β → World → Prop}
    (hf : F .sortRefused) (h : admitted = true → Leads R F (f ()) w q) :
    Leads R F (demand admitted >>= f) w q := by
  cases admitted with
  | true => exact h rfl
  | false => exact leads_throw hf

theorem leads_of_after (h : R w (x.after w)) : Leads R (fun _ => True) x w fun _ _ => True := by
  cases hx : x w with
  | ok a w' =>
    rw [after_ok hx] at h
    exact leads_of_ok hx h trivial
  | error e w' =>
    rw [after_error hx] at h
    exact leads_of_error hx h trivial

/-- A step whose answer is only rewritten. -/
theorem Leads.map {f : α → β} (h : Leads R F x w p) :
    Leads R F (x >>= fun a => pure (f a)) w fun _ _ => True := by
  unfold Leads at h
  cases hx : x w with
  | ok a w' =>
    rw [hx] at h
    exact leads_of_ok (bind_ok hx) h.1 trivial
  | error e w' =>
    rw [hx] at h
    exact leads_of_error (bind_error hx) h.1 h.2

theorem leads_ofExcept [Std.Refl R] (e : Except Fault α) :
    Leads R (fun _ => True) (ofExcept e) w fun _ _ => True := by
  cases e with
  | ok a => exact leads_pure trivial
  | error fault => exact leads_throw trivial

/-- A refusal comes behind a step. -/
theorem Leads.bind_throw (h : Leads R F x w p) {e : Fault} (he : F e) {q : β → World → Prop} :
    Leads R F (x >>= fun _ => (throw e : Action β)) w q := by
  unfold Leads at h
  cases hx : x w with
  | ok a w' =>
    rw [hx] at h
    exact leads_of_error (bind_ok hx) h.1 he
  | error e' w' =>
    rw [hx] at h
    exact leads_of_error (bind_error hx) h.1 h.2

end LeaseVec.Action

namespace LeaseVec.World

open Number LeaseVec.Action

variable {R : World → World → Prop} {F : Fault → Prop} {w : World} {id : Nat} {p : Unit → World → Prop}
  {q : Bool → World → Prop}

/-- An addition to an array is a change of it, or it makes room and is refused. -/
theorem leads_pushArray {value : Scalar} (hf : F .sortRefused)
    (hchange : Leads R F (changeArray id fun m a => a.push m value) w p)
    (hreserve : Leads R F (reserve id 1) w q) : Leads R F (pushArray id value) w p := by
  apply Leads.get_bind
  split_ifs
  · exact hchange
  · exact hreserve.bind_throw hf

theorem leads_resizeArray {length : Binary64} {fill : Scalar} (hf : F .sortRefused)
    (hchange : Leads R F (changeArray id fun m a => a.resize m length fill) w p)
    (hreserve : Leads R F (reserve id (length - (w.array id).size)) w q) :
    Leads R F (resizeArray id length fill) w p := by
  apply Leads.get_bind
  simp only
  split_ifs
  · exact hchange
  · exact hreserve.bind_throw hf

end LeaseVec.World
