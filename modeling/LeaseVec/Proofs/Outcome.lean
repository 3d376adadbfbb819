/-!
# Outcomes of checks

A chain of checks succeeds when every one of them does. The lemmas take a chain apart at its first link.
-/

namespace LeaseVec.Outcome

universe u v

variable {ε ε' : Type u} {α β : Type v}

theorem bind_ok_iff {x : Except ε α} {f : α → Except ε β} {b : β} :
    x >>= f = .ok b ↔ ∃ a, x = .ok a ∧ f a = .ok b := by
  cases x with
  | ok a => exact ⟨fun h => ⟨a, rfl, h⟩, fun ⟨_, ha, hf⟩ => Except.ok.inj ha ▸ hf⟩
  | error e =>
    constructor
    · intro h
      cases h
    · rintro ⟨a, ha, -⟩
      cases ha

/-- What stands behind a check is reached when the check is passed. -/
theorem check_ok_iff {γ : Type v} {c : Prop} [Decidable c] {e : ε} {x : Except ε α} {a : α} :
    (if c then (throw e : Except ε γ) >>= fun _ => x else x) = .ok a ↔ ¬ c ∧ x = .ok a := by
  by_cases hc : c
  · rw [if_pos hc]
    constructor
    · intro h
      cases h
    · rintro ⟨hn, -⟩
      exact (hn hc).elim
  · rw [if_neg hc]
    exact ⟨fun h => ⟨hc, h⟩, fun h => h.2⟩

theorem mapError_ok_iff {f : ε → ε'} {x : Except ε α} {a : α} :
    x.mapError f = .ok a ↔ x = .ok a := by
  cases x with
  | ok b =>
    constructor
    · intro h
      rw [Except.ok.inj h]
    · intro h
      rw [Except.ok.inj h]
      rfl
  | error e =>
    constructor
    · intro h
      cases h
    · intro h
      cases h

/-- A chain fails at its first link when no later one fails in that way. -/
theorem bind_error_iff {x : Except ε α} {f : α → Except ε β} {e : ε} (hf : ∀ a, f a ≠ .error e) :
    x >>= f = .error e ↔ x = .error e := by
  cases x with
  | ok a =>
    constructor
    · intro h
      exact (hf a h).elim
    · intro h
      cases h
  | error e' =>
    constructor
    · intro h
      rw [Except.error.inj h]
    · intro h
      rw [Except.error.inj h]
      rfl

theorem map_error_iff {x : Except ε α} {f : α → β} {e : ε} : x.map f = .error e ↔ x = .error e := by
  cases x with
  | ok a =>
    constructor
    · intro h
      cases h
    · intro h
      cases h
  | error e' =>
    constructor
    · intro h
      rw [Except.error.inj h]
    · intro h
      rw [Except.error.inj h]
      rfl

theorem of_toOption {x : Except ε α} {a : α} (h : x.toOption = some a) : x = .ok a := by
  cases x with
  | ok b => exact congrArg Except.ok (Option.some.inj h)
  | error e => cases h

end LeaseVec.Outcome
