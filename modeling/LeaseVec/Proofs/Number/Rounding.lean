import LeaseVec.Number.Grid
import Mathlib.Tactic.Ring
import Mathlib.Data.Nat.Log

/-!
# Rounding to a binary grid

A code splits into the number of doublings of its step and a mantissa. In these terms the magnitudes of a
grid are ordered as the codes are, and rounding respects every grid point: a ratio that is not below a
point is not rounded below it, and one that is not above a point is not rounded above it. What lies on the
grid is therefore not changed by rounding. Nothing here depends on where a format ends.
-/

namespace LeaseVec.Number

theorem roundHalfEven_ge (num den : Nat) : num / den ≤ roundHalfEven num den := by
  dsimp only [roundHalfEven]
  split_ifs <;> omega

theorem roundHalfEven_le (num den : Nat) : roundHalfEven num den ≤ num / den + 1 := by
  dsimp only [roundHalfEven]
  split_ifs <;> omega

/-- A ratio that does not exceed a whole number is not rounded past it. -/
theorem roundHalfEven_le_of_le {num den m : Nat} (hd : 0 < den) (h : num ≤ m * den) :
    roundHalfEven num den ≤ m := by
  have hdm := Nat.div_add_mod num den
  have hq : num / den ≤ m := Nat.div_le_of_le_mul (by rwa [Nat.mul_comm])
  rcases Nat.lt_or_eq_of_le hq with hlt | heq
  · exact (roundHalfEven_le num den).trans hlt
  · have hr : num % den = 0 := by
      rw [heq, Nat.mul_comm] at hdm
      omega
    dsimp only [roundHalfEven]
    rw [hr, if_pos (by omega)]
    exact hq

namespace Grid

/-- The parts of a code: how often the step has doubled, and the multiple of that step. -/
theorem exists_parts (p c : Nat) :
    ∃ d m, c = d * 2 ^ p + m ∧ m < 2 * 2 ^ p ∧ (d = 0 ∨ 2 ^ p ≤ m) := by
  have hp : 0 < 2 ^ p := Nat.two_pow_pos p
  have hdm := Nat.div_add_mod c (2 ^ p)
  have hr := Nat.mod_lt c hp
  by_cases hq : c / 2 ^ p = 0
  · exact ⟨0, c, by omega, by rw [hq] at hdm; omega, Or.inl rfl⟩
  · refine ⟨c / 2 ^ p - 1, 2 ^ p + c % 2 ^ p, ?_, by omega, Or.inr (by omega)⟩
    have hs : 2 ^ p * (c / 2 ^ p) = (c / 2 ^ p - 1) * 2 ^ p + 2 ^ p := by
      rw [← Nat.succ_mul, Nat.mul_comm, Nat.succ_eq_add_one,
        Nat.sub_add_cancel (Nat.pos_of_ne_zero hq)]
    omega

/-- A magnitude is the mantissa times the step. -/
theorem units_parts {p d m : Nat} (hm : m < 2 * 2 ^ p) (hd : d = 0 ∨ 2 ^ p ≤ m) :
    units p (d * 2 ^ p + m) = m * 2 ^ d := by
  have hp : 0 < 2 ^ p := Nat.two_pow_pos p
  have hdoublings : doublings p (d * 2 ^ p + m) = d := by
    rw [doublings, Nat.pow_eq, Nat.add_comm, Nat.add_mul_div_right _ _ hp]
    rcases hd with rfl | hle
    · have hq : m / 2 ^ p < 2 := (Nat.div_lt_iff_lt_mul hp).2 hm
      omega
    · have hq : m / 2 ^ p = 1 := by
        rw [Nat.div_eq_iff hp]
        omega
      omega
  rw [units, hdoublings, Nat.pow_eq, Nat.add_sub_cancel_left]
  rfl

theorem units_strictMono (p : Nat) : StrictMono (units p) := by
  intro c c' h
  obtain ⟨d, m, rfl, hm, hd⟩ := exists_parts p c
  obtain ⟨d', m', rfl, hm', hd'⟩ := exists_parts p c'
  rw [units_parts hm hd, units_parts hm' hd']
  rcases Nat.lt_trichotomy d d' with hlt | rfl | hgt
  · have hm'' : 2 ^ p ≤ m' := by omega
    calc m * 2 ^ d < 2 * 2 ^ p * 2 ^ d := Nat.mul_lt_mul_of_pos_right hm (Nat.two_pow_pos d)
      _ = 2 ^ p * 2 ^ (d + 1) := by rw [Nat.pow_succ]; ring
      _ ≤ m' * 2 ^ d' := Nat.mul_le_mul hm'' (Nat.pow_le_pow_right (by decide) hlt)
  · exact Nat.mul_lt_mul_of_pos_right (by omega) (Nat.two_pow_pos d)
  · have hs : (d' + 1) * 2 ^ p ≤ d * 2 ^ p := Nat.mul_le_mul_right _ hgt
    rw [Nat.succ_mul] at hs
    omega

theorem units_le_units {p c c' : Nat} : units p c ≤ units p c' ↔ c ≤ c' :=
  (units_strictMono p).le_iff_le

/-- A mantissa that the format can hold is a grid point at every step. -/
theorem exists_units {p m : Nat} (e : Nat) (hm : m < 2 * 2 ^ p) : ∃ c, units p c = m * 2 ^ e := by
  induction e generalizing m with
  | zero =>
    refine ⟨0 * 2 ^ p + m, ?_⟩
    rw [units_parts hm (Or.inl rfl)]
  | succ e ih =>
    rcases Nat.lt_or_ge m (2 ^ p) with hlt | hge
    · obtain ⟨c, hc⟩ := ih (m := 2 * m) (by omega)
      exact ⟨c, by rw [hc, Nat.pow_succ]; ring⟩
    · exact ⟨(e + 1) * 2 ^ p + m, units_parts hm (Or.inr hge)⟩

/-- The magnitude of a point tells how often its step has doubled. -/
theorem log2_sub {p d m : Nat} (hm : m < 2 * 2 ^ p) (hd : d = 0 ∨ 2 ^ p ≤ m) :
    Nat.log2 (m * 2 ^ d) - p = d := by
  by_cases hz : m = 0
  · have hp : 0 < 2 ^ p := Nat.two_pow_pos p
    have hd0 : d = 0 := by omega
    simp [hz, hd0]
  · have hpos : m * 2 ^ d ≠ 0 := Nat.mul_ne_zero hz (Nat.two_pow_pos d).ne'
    have hlt : Nat.log2 (m * 2 ^ d) < p + 1 + d := by
      rw [Nat.log2_lt hpos, Nat.pow_add, Nat.pow_succ, Nat.mul_comm (2 ^ p)]
      exact Nat.mul_lt_mul_of_pos_right hm (Nat.two_pow_pos d)
    rcases hd with rfl | hle
    · omega
    · have hge : p + d ≤ Nat.log2 (m * 2 ^ d) := by
        rw [Nat.le_log2 hpos, Nat.pow_add]
        exact Nat.mul_le_mul_right _ hle
      omega

/-- The shift that rounding makes is monotone in the ratio. -/
theorem log2_sub_mono (p : Nat) {a b : Nat} (h : a ≤ b) : Nat.log2 a - p ≤ Nat.log2 b - p := by
  rw [Nat.log2_eq_log_two, Nat.log2_eq_log_two]
  exact Nat.sub_le_sub_right (Nat.log_mono_right h) p

/-- A ratio that is not below a grid point is not rounded below it. -/
theorem le_code {p c num den : Nat} (hden : 0 < den) (h : units p c * den ≤ num) :
    c ≤ code p num den := by
  obtain ⟨d, m, rfl, hm, hd⟩ := exists_parts p c
  rw [units_parts hm hd] at h
  have hq : m * 2 ^ d ≤ num / den := (Nat.le_div_iff_mul_le hden).2 h
  have hs := log2_sub_mono p hq
  rw [log2_sub hm hd] at hs
  dsimp only [code]
  generalize hse : Nat.log2 (num / den) - p = s at hs ⊢
  simp only [Nat.pow_eq]
  have hr := roundHalfEven_ge num (den * 2 ^ s)
  rw [← Nat.div_div_eq_div_mul] at hr
  rcases Nat.lt_or_eq_of_le hs with hlt | rfl
  · -- a larger step: the ratio alone fills the mantissa
    have hfull : 2 ^ p ≤ num / den / 2 ^ s := by
      have hne : num / den ≠ 0 := by
        rintro hz
        rw [hz] at hse
        simp at hse
        omega
      rw [Nat.le_div_iff_mul_le (Nat.two_pow_pos s), ← Nat.pow_add, ← Nat.le_log2 hne]
      omega
    have hd' : (d + 1) * 2 ^ p ≤ s * 2 ^ p := Nat.mul_le_mul_right _ hlt
    rw [Nat.succ_mul] at hd'
    omega
  · have hm' : m ≤ num / den / 2 ^ d := (Nat.le_div_iff_mul_le (Nat.two_pow_pos d)).2 hq
    omega

/-- A ratio that is not above a grid point is not rounded above it. -/
theorem code_le {p c num den : Nat} (hden : 0 < den) (h : num ≤ units p c * den) :
    code p num den ≤ c := by
  obtain ⟨d, m, rfl, hm, hd⟩ := exists_parts p c
  rw [units_parts hm hd] at h
  have hq : num / den ≤ m * 2 ^ d := Nat.div_le_of_le_mul (by rwa [Nat.mul_comm den])
  have hs := log2_sub_mono p hq
  rw [log2_sub hm hd] at hs
  dsimp only [code]
  generalize hse : Nat.log2 (num / den) - p = s at hs ⊢
  simp only [Nat.pow_eq]
  rcases Nat.lt_or_eq_of_le hs with hlt | rfl
  · -- a smaller step: the mantissa is at most full
    have hfull : num / (den * 2 ^ s) < 2 * 2 ^ p := by
      rw [← Nat.div_div_eq_div_mul, Nat.div_lt_iff_lt_mul (Nat.two_pow_pos s)]
      have hlog : Nat.log2 (num / den) < p + 1 + s := by omega
      by_cases hz : num / den = 0
      · rw [hz]
        exact Nat.mul_pos (Nat.mul_pos (by decide) (Nat.two_pow_pos p)) (Nat.two_pow_pos s)
      · rw [Nat.log2_lt hz, Nat.pow_add, Nat.pow_succ, Nat.mul_comm (2 ^ p)] at hlog
        exact hlog
    have hr := roundHalfEven_le num (den * 2 ^ s)
    have hd' : (s + 1) * 2 ^ p ≤ d * 2 ^ p := Nat.mul_le_mul_right _ hlt
    rw [Nat.succ_mul] at hd'
    omega
  · have hr : roundHalfEven num (den * 2 ^ s) ≤ m := by
      apply roundHalfEven_le_of_le (Nat.mul_pos hden (Nat.two_pow_pos s))
      calc num ≤ m * 2 ^ s * den := h
        _ = m * (den * 2 ^ s) := by ring
    omega

/-- Rounding does not change what lies on the grid. -/
theorem code_units {p c num den : Nat} (hden : 0 < den) (h : num = units p c * den) :
    code p num den = c :=
  Nat.le_antisymm (code_le hden h.le) (le_code hden h.ge)

end Grid

end LeaseVec.Number
