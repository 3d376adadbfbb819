import LeaseVec.Number.Decimal
import LeaseVec.Proofs.Number.Single

/-!
# Narrowing gives the nearest value

What rounding gives is the code below a ratio or the one above it, so no other point of the grid is nearer;
between two that are equally near the even code is taken. For single precision this is said without codes:
`Binary32.Holds` is the set of the values that the format holds, and `Binary32.Nearest` the rule by which one of
them stands for a number. A number that is not past the largest value of the format is narrowed by that rule,
and never to an infinity.
-/

namespace LeaseVec.Number

/-- The quotient is taken below the middle and the next number above it; in the middle the even one of them. -/
theorem roundHalfEven_cases (num den : Nat) :
    (roundHalfEven num den = num / den ∧ 2 * num ≤ (2 * (num / den) + 1) * den ∨
      roundHalfEven num den = num / den + 1 ∧ (2 * (num / den) + 1) * den ≤ 2 * num) ∧
    (2 * num = (2 * (num / den) + 1) * den → 2 ∣ roundHalfEven num den) := by
  have hdm := Nat.div_add_mod num den
  have hmiddle : (2 * (num / den) + 1) * den = 2 * (den * (num / den)) + den := by ring
  rw [hmiddle]
  dsimp only [roundHalfEven]
  generalize den * (num / den) = whole at hdm ⊢
  split_ifs with hlow hhigh heven <;> omega

namespace Grid

/-- A ratio lies between two codes whose points are one step apart, and rounding takes one of the two. -/
theorem exists_step (p num den : Nat) :
    ∃ s, code p num den = s * 2 ^ p + roundHalfEven num (den * 2 ^ s) ∧
      units p (s * 2 ^ p + num / (den * 2 ^ s)) = num / (den * 2 ^ s) * 2 ^ s ∧
      units p (s * 2 ^ p + (num / (den * 2 ^ s) + 1)) = (num / (den * 2 ^ s) + 1) * 2 ^ s := by
  generalize hs : Nat.log2 (num / den) - p = s
  have hcode : code p num den = s * 2 ^ p + roundHalfEven num (den * 2 ^ s) := by
    rw [← hs]
    rfl
  refine ⟨s, hcode, ?_⟩
  rw [← Nat.div_div_eq_div_mul]
  generalize num / den = q at hs ⊢
  -- the mantissa is not too large, and it is full when the step has doubled
  have hlt : q / 2 ^ s < 2 * 2 ^ p := by
    rw [Nat.div_lt_iff_lt_mul (Nat.two_pow_pos s)]
    by_cases hz : q = 0
    · rw [hz]
      exact Nat.mul_pos (Nat.mul_pos (by decide) (Nat.two_pow_pos p)) (Nat.two_pow_pos s)
    · have hlog : Nat.log2 q < p + 1 + s := by omega
      rw [Nat.log2_lt hz, Nat.pow_add, Nat.pow_succ, Nat.mul_comm (2 ^ p)] at hlog
      exact hlog
  have hfull : s = 0 ∨ 2 ^ p ≤ q / 2 ^ s := by
    rcases Nat.eq_zero_or_pos s with hz | hpos
    · exact Or.inl hz
    · right
      have hne : q ≠ 0 := by
        rintro rfl
        simp at hs
        omega
      rw [Nat.le_div_iff_mul_le (Nat.two_pow_pos s), ← Nat.pow_add, ← Nat.le_log2 hne]
      omega
  refine ⟨units_parts hlt hfull, ?_⟩
  rcases Nat.lt_or_eq_of_le hlt with hnext | hend
  · exact units_parts hnext (hfull.imp_right fun h => by omega)
  · have hcarry : s * 2 ^ p + (q / 2 ^ s + 1) = (s + 1) * 2 ^ p + 2 ^ p := by
      rw [← Nat.succ_eq_add_one, hend]
      ring
    have hp : 0 < 2 ^ p := Nat.two_pow_pos p
    rw [hcarry, units_parts (by omega) (Or.inr le_rfl), ← Nat.succ_eq_add_one (q / 2 ^ s), hend]
    ring

/-- The ratio lies between the points of two codes in a row. Rounding takes the first of them below their middle
and the second above it, and an even code in the middle. -/
theorem exists_neighbours {p num den : Nat} (hp : 0 < p) (hden : 0 < den) :
    ∃ c, units p c * den ≤ num ∧ num < units p (c + 1) * den ∧
      (code p num den = c ∧ 2 * num ≤ units p c * den + units p (c + 1) * den ∨
        code p num den = c + 1 ∧ units p c * den + units p (c + 1) * den ≤ 2 * num) ∧
      (2 * num = units p c * den + units p (c + 1) * den → 2 ∣ code p num den) := by
  obtain ⟨s, hcode, hlow, hhigh⟩ := exists_step p num den
  obtain ⟨hcases, heven⟩ := roundHalfEven_cases num (den * 2 ^ s)
  have hbelow : num / (den * 2 ^ s) * (den * 2 ^ s) ≤ num := Nat.div_mul_le_self ..
  have habove : num < num / (den * 2 ^ s) * (den * 2 ^ s) + den * 2 ^ s :=
    Nat.lt_div_mul_add (Nat.mul_pos hden (Nat.two_pow_pos s))
  have hparity : 2 ∣ roundHalfEven num (den * 2 ^ s) → 2 ∣ code p num den := by
    intro h
    rw [hcode]
    exact Nat.dvd_add (Dvd.dvd.mul_left (dvd_pow_self 2 hp.ne') s) h
  generalize num / (den * 2 ^ s) = low at hlow hhigh hcases heven hbelow habove
  have hfirst : units p (s * 2 ^ p + low) * den = low * (den * 2 ^ s) := by
    rw [hlow]
    ring
  have hsecond : units p (s * 2 ^ p + low + 1) * den = low * (den * 2 ^ s) + den * 2 ^ s := by
    rw [Nat.add_assoc, hhigh]
    ring
  have hmiddle : (2 * low + 1) * (den * 2 ^ s) =
      low * (den * 2 ^ s) + (low * (den * 2 ^ s) + den * 2 ^ s) := by ring
  rw [hmiddle] at hcases heven
  refine ⟨s * 2 ^ p + low, ?_⟩
  rw [hfirst, hsecond]
  refine ⟨hbelow, habove, ?_, fun h => hparity (heven h)⟩
  rcases hcases with ⟨hr, hle⟩ | ⟨hr, hle⟩
  · exact Or.inl ⟨by rw [hcode, hr], hle⟩
  · exact Or.inr ⟨by rw [hcode, hr, Nat.add_assoc], hle⟩

/-- No point of the grid is nearer to a ratio than the one that rounding gives, and when another is as near, its
code is even. -/
theorem code_nearest {p den : Nat} (hp : 0 < p) (hden : 0 < den) (num c : Nat) :
    ((num : Int) - (units p (code p num den) * den : Nat)).natAbs ≤
        ((num : Int) - (units p c * den : Nat)).natAbs ∧
      (((num : Int) - (units p c * den : Nat)).natAbs =
          ((num : Int) - (units p (code p num den) * den : Nat)).natAbs →
        c = code p num den ∨ 2 ∣ code p num den) := by
  obtain ⟨low, hbelow, habove, htaken, heven⟩ := exists_neighbours hp hden
  have hside : units p c * den ≤ units p low * den ∨ units p (low + 1) * den ≤ units p c * den := by
    rcases Nat.lt_or_ge low c with hlt | hge
    · exact Or.inr (Nat.mul_le_mul_right den (units_le_units.2 hlt))
    · exact Or.inl (Nat.mul_le_mul_right den (units_le_units.2 hge))
  have hsame : units p c * den = units p (code p num den) * den → c = code p num den := by
    intro h
    exact (units_strictMono p).injective (Nat.eq_of_mul_eq_mul_right hden h)
  have hpoint : units p (code p num den) * den = units p low * den ∧
        2 * num ≤ units p low * den + units p (low + 1) * den ∨
      units p (code p num den) * den = units p (low + 1) * den ∧
        units p low * den + units p (low + 1) * den ≤ 2 * num := by
    rcases htaken with ⟨hcode, hle⟩ | ⟨hcode, hle⟩
    · exact Or.inl ⟨by rw [hcode], hle⟩
    · exact Or.inr ⟨by rw [hcode], hle⟩
  constructor
  · omega
  · intro heq
    by_cases hother : units p c * den = units p (code p num den) * den
    · exact Or.inl (hsame hother)
    · exact Or.inr (heven (by omega))

end Grid

namespace Binary32

/-- A number of smallest steps that single precision holds: a mantissa of 24 bits, and one of 254 binades. -/
def Holds (t : Int) : Prop := ∃ m e, m < 2 ^ 24 ∧ e ≤ 253 ∧ t.natAbs = m * 2 ^ e * step

/-- Single precision stands for a number by the nearest value that it holds; of two that are equally near it
takes the one whose last bit is zero, so that one bit less would do. -/
structure Nearest (s t : Int) : Prop where
  holds : Holds t
  le : ∀ u, Holds u → (s - t).natAbs ≤ (s - u).natAbs
  even : ∀ u, Holds u → u ≠ t → (s - u).natAbs = (s - t).natAbs →
    ∃ m e, m < 2 ^ 23 ∧ t.natAbs = m * 2 ^ (e + 1) * step

/-- The magnitude of the largest value, in smallest steps. -/
def largestSteps : Nat := (2 ^ 24 - 1) * 2 ^ 253 * step

theorem units_last : Grid.units 23 (codeBound - 1) * step = largestSteps := by
  have hparts : codeBound - 1 = 253 * 2 ^ 23 + (2 ^ 24 - 1) := by decide
  rw [hparts, Grid.units_parts (by decide) (Or.inr (by decide))]
  rfl

/-- The magnitudes that the format holds are those of the finite codes. -/
theorem holds_iff {t : Int} :
    Holds t ↔ ∃ c, c < codeBound ∧ t.natAbs = Grid.units 23 c * step := by
  have hbound : codeBound = 255 * 2 ^ 23 := rfl
  have hcarry : ∀ e, 2 ^ 24 * 2 ^ e = 2 ^ 23 * 2 ^ (e + 1) := by
    intro e
    rw [Nat.pow_succ]
    ring
  constructor
  · rintro ⟨m, e, hm, he, ht⟩
    obtain ⟨c, hc⟩ := Grid.exists_units (p := 23) e (m := m) (by omega)
    refine ⟨c, ?_, by rw [ht, hc]⟩
    have hlast : codeBound = 254 * 2 ^ 23 + 2 ^ 23 := by decide
    rw [← (Grid.units_strictMono 23).lt_iff_lt, hc, hlast,
      Grid.units_parts (by decide) (Or.inr le_rfl)]
    calc m * 2 ^ e < 2 ^ 24 * 2 ^ e := Nat.mul_lt_mul_of_pos_right hm (Nat.two_pow_pos e)
      _ ≤ 2 ^ 24 * 2 ^ 253 := Nat.mul_le_mul_left _ (Nat.pow_le_pow_right (by decide) he)
      _ = 2 ^ 23 * 2 ^ 254 := hcarry 253
  · rintro ⟨c, hc, ht⟩
    obtain ⟨d, m, rfl, hm, hd⟩ := Grid.exists_parts 23 c
    refine ⟨m, d, by omega, by omega, ?_⟩
    rw [ht, Grid.units_parts hm hd]

/-- An even code is a value that needs one bit less. -/
theorem units_even {c : Nat} (h : 2 ∣ c) :
    ∃ m e, m < 2 ^ 23 ∧ Grid.units 23 c = m * 2 ^ (e + 1) := by
  obtain ⟨d, m, rfl, hm, hd⟩ := Grid.exists_parts 23 c
  obtain ⟨k, hk⟩ : 2 ∣ m := by omega
  refine ⟨k, d, by omega, ?_⟩
  rw [Grid.units_parts hm hd, hk, Nat.pow_succ]
  ring

theorem natAbs_signed_sub (negative : Bool) (m n : Nat) :
    ((if negative then -(m : Int) else m) - (if negative then -(n : Int) else n)).natAbs =
      ((m : Int) - n).natAbs := by
  cases negative with
  | false => rfl
  | true =>
    rw [if_pos rfl, if_pos rfl]
    omega

theorem natAbs_sub_natAbs_le (negative : Bool) (m : Nat) (u : Int) :
    ((m : Int) - u.natAbs).natAbs ≤ ((if negative then -(m : Int) else m) - u).natAbs := by
  cases negative <;> simp only [Bool.false_eq_true, if_false, if_true] <;> omega

/-- A point and its opposite are equally near only when they are zero. -/
theorem eq_zero_of_opposite {negative : Bool} {m n : Nat} {u : Int} (habs : u.natAbs = n)
    (hne : u ≠ if negative then -(n : Int) else n)
    (heq : ((if negative then -(m : Int) else m) - u).natAbs = ((m : Int) - n).natAbs)
    (hzero : ((m : Int) - n).natAbs ≤ m) : n = 0 := by
  cases negative <;> simp only [Bool.false_eq_true, if_false, if_true] at hne heq <;> omega

/-- With the sign of the number the point nearest to its magnitude is nearest to it. -/
theorem nearest_signed (negative : Bool) {magnitude point : Nat}
    (h : Grid.code 23 magnitude step < codeBound)
    (hpoint : Grid.units 23 (Grid.code 23 magnitude step) * step = point) :
    Nearest (if negative then -(magnitude : Int) else magnitude)
      (if negative then -(point : Int) else point) := by
  have hnear := Grid.code_nearest (p := 23) (by decide) step_pos magnitude
  rw [hpoint] at hnear
  have hzero : ((magnitude : Int) - point).natAbs ≤ magnitude := by
    have hnone := (hnear 0).1
    rw [Grid.units_of_lt (by decide), Nat.zero_mul] at hnone
    exact hnone
  have habs : (if negative then -(point : Int) else point).natAbs = point := by
    cases negative <;> simp
  constructor
  · exact holds_iff.2 ⟨_, h, by rw [habs, hpoint]⟩
  · intro u hu
    obtain ⟨c, -, hmag⟩ := holds_iff.1 hu
    have hle := (hnear c).1
    rw [← hmag] at hle
    rw [natAbs_signed_sub]
    exact hle.trans (natAbs_sub_natAbs_le negative magnitude u)
  · intro u hu hne heq
    obtain ⟨c, -, hmag⟩ := holds_iff.1 hu
    obtain ⟨hle, htie⟩ := hnear c
    rw [← hmag] at hle htie
    rw [natAbs_signed_sub] at heq
    have hsame : ((magnitude : Int) - u.natAbs).natAbs = ((magnitude : Int) - point).natAbs :=
      le_antisymm (heq ▸ natAbs_sub_natAbs_le negative magnitude u) hle
    rw [habs]
    rcases htie hsame with hcode | heven
    · rw [hcode, hpoint] at hmag
      have hz := eq_zero_of_opposite hmag hne heq hzero
      exact ⟨0, 0, by decide, by rw [hz, Nat.zero_mul, Nat.zero_mul]⟩
    · obtain ⟨m, e, hm, hu⟩ := units_even heven
      exact ⟨m, e, hm, by rw [← hpoint, hu]⟩

/-- A number that is not past the largest value is narrowed to the nearest value, which is finite. -/
theorem nearest_narrowed {x : Binary64} {s : Int} (hx : x.scaled? = some s)
    (hle : s.natAbs ≤ largestSteps) :
    ∃ t, (toBinary64 (ofBinary64 x)).scaled? = some t ∧ Nearest s t := by
  cases x with
  | nan => cases hx
  | infinite negative => cases hx
  | finite negative code =>
    rw [Binary64.scaled?_finite, Option.some.injEq] at hx
    generalize hmag : Grid.units 52 code.val = magnitude at hx
    have habs : s.natAbs = magnitude := by
      rw [← hx]
      cases negative <;> simp
    have hcode : Grid.code 23 magnitude step ≤ codeBound - 1 := by
      apply Grid.code_le step_pos
      rw [units_last, ← habs]
      exact hle
    have hpos : 0 < codeBound := by decide
    have hlt : Grid.code 23 magnitude step < codeBound := by omega
    obtain ⟨c, hc, hunits⟩ := widened negative hlt
    have hnarrow : toBinary64 (ofBinary64 (.finite negative code)) = .finite negative c := by
      change toBinary64 ((if negative then signBit else 0) +
        min codeBound (Grid.code 23 (Grid.units 52 code.val) step)) = _
      rw [hmag, Nat.min_eq_right hlt.le, toBinary64_signed negative hlt.le, if_neg hlt.ne, hc]
    refine ⟨_, by rw [hnarrow, Binary64.scaled?_finite], ?_⟩
    rw [hunits, ← hx]
    exact nearest_signed negative hlt rfl

/-- The largest value, in smallest steps. -/
theorem scaled?_largest : largest.scaled? = some (largestSteps : Int) := by
  have hlt : codeBound - 1 < codeBound := by decide
  obtain ⟨c, hc, hunits⟩ := widened false hlt
  have hlargest : largest = .finite false c := by
    have h := toBinary64_signed false hlt.le
    rw [if_neg hlt.ne, hc] at h
    rw [← h, if_neg Bool.false_ne_true, Nat.zero_add]
    rfl
  rw [hlargest, Binary64.scaled?_finite, hunits, units_last]
  rfl

example : Binary64.ofDecimal false 34028234663852886 22 = largest := by decide +kernel

/-- Whether a finite number is past the largest value is told by its magnitude. -/
theorem largest_lt_abs {x : Binary64} {s : Int} (hx : x.scaled? = some s) :
    largest.lt x.abs = decide (largestSteps < s.natAbs) := by
  cases x with
  | nan => cases hx
  | infinite negative => cases hx
  | finite negative code =>
    rw [Binary64.scaled?_finite, Option.some.injEq] at hx
    have habs : (Binary64.finite negative code).abs.position? = some (s.natAbs : Int) := by
      change (Binary64.finite false code).scaled? = _
      rw [Binary64.scaled?_finite, ← hx]
      cases negative <;> simp
    have hplace : largest.position? = some (largestSteps : Int) := by
      have h := scaled?_largest
      cases hl : largest with
      | nan =>
        rw [hl] at h
        cases h
      | infinite b =>
        rw [hl] at h
        cases h
      | finite b c =>
        rw [hl] at h
        exact h
    unfold Binary64.lt
    rw [habs, hplace]
    exact decide_eq_decide.2 Int.ofNat_lt

end Binary32

end LeaseVec.Number
