import LeaseVec.Number.Arithmetic
import LeaseVec.Proofs.Number.Rounding

/-!
# Whole numbers as doubles

`Whole x n` says that a double is exactly the natural number `n`, negative zero being zero. Up to the
exact bound every natural number is a double, and sums, differences and products that stay below the bound
are exact. `AtLeast x n` is what remains of a result past the bound: rounding does not bring it back
below, so a length that is too large is never taken for one that fits.
-/

namespace LeaseVec.Number.Binary64

/-- In smallest steps one is a power of two, far below the end of the format. -/
theorem exists_scale :
    ∃ e f, e + 972 = f ∧ one = 2 ^ e ∧ Grid.units 52 codeBound = 2 ^ 52 * 2 ^ f := by
  have hparts : codeBound = 2046 * 2 ^ 52 + 2 ^ 52 := by decide
  rw [hparts, Grid.units_parts (by decide) (Or.inr le_rfl)]
  unfold one
  -- the powers are never evaluated
  generalize he : 1074 = e
  generalize hf : 2046 = f
  exact ⟨e, f, by omega, Nat.pow_eq, rfl⟩

theorem one_pos : 0 < one := by
  obtain ⟨e, f, -, he, -⟩ := exists_scale
  rw [he]
  exact Nat.two_pow_pos e

/-- The double is exactly a natural number. -/
def Whole (x : Binary64) (n : Nat) : Prop := x.scaled? = some ((n * one : Nat) : Int)

/-- The double is not below a natural number; it may be infinite. -/
def AtLeast (x : Binary64) (n : Nat) : Prop :=
  x = infinite false ∨ ∃ s : Int, x.scaled? = some s ∧ ((n * one : Nat) : Int) ≤ s

theorem exactBound_eq : exactBound = 2 * 2 ^ 52 := rfl

/-- Up to the exact bound every natural number has a code. -/
theorem exists_code {n : Nat} (h : n ≤ exactBound) :
    ∃ c, c < codeBound ∧ Grid.units 52 c = n * one := by
  obtain ⟨e, f, he, hone, hend⟩ := exists_scale
  have hfull : exactBound * 2 ^ e = 2 ^ 52 * 2 ^ (e + 1) := by
    rw [exactBound_eq, Nat.pow_succ 2 e]
    ring
  have hunits : ∃ c, Grid.units 52 c = n * 2 ^ e := by
    rcases Nat.lt_or_eq_of_le h with hlt | rfl
    · exact Grid.exists_units e hlt
    · rw [hfull]
      exact Grid.exists_units (e + 1) (by decide)
  obtain ⟨c, hc⟩ := hunits
  refine ⟨c, ?_, hone ▸ hc⟩
  rw [← (Grid.units_strictMono 52).lt_iff_lt, hc, hend]
  calc n * 2 ^ e ≤ exactBound * 2 ^ e := Nat.mul_le_mul_right _ h
    _ = 2 ^ 52 * 2 ^ (e + 1) := hfull
    _ < 2 ^ 52 * 2 ^ f :=
      Nat.mul_lt_mul_of_pos_left (Nat.pow_lt_pow_right (by decide) (by omega)) (by decide)

theorem toInt?_eq_some_iff {x : Binary64} {i : Int} :
    x.toInt? = some i ↔ x.scaled? = some (i * (one : Int)) := by
  have hone : (one : Int) ≠ 0 := by exact_mod_cast one_pos.ne'
  unfold Binary64.toInt?
  cases x.scaled? with
  | none =>
    constructor
    · intro h
      cases h
    · intro h
      cases h
  | some s =>
    rw [Option.bind_some, Option.some.injEq]
    constructor
    · intro h
      split_ifs at h with hm
      have hdm := Int.ediv_mul_add_emod s one
      rw [Option.some.inj h, hm, Int.add_zero] at hdm
      exact hdm.symm
    · rintro rfl
      rw [if_pos (Int.mul_emod_left _ _), Int.mul_ediv_cancel _ hone]

theorem Whole.toInt? {x : Binary64} {n : Nat} (h : Whole x n) : x.toInt? = some (n : Int) := by
  rw [toInt?_eq_some_iff, ← Nat.cast_mul]
  exact h

theorem Whole.toNat? {x : Binary64} {n : Nat} (h : Whole x n) : x.toNat? = some n := by
  unfold Binary64.toNat?
  rw [h.toInt?, Option.bind_some, if_pos (Int.natCast_nonneg n), Int.toNat_natCast]

theorem whole_of_toNat? {x : Binary64} {n : Nat} (h : x.toNat? = some n) : Whole x n := by
  obtain ⟨i, hi, h⟩ := Option.bind_eq_some_iff.1 h
  split_ifs at h with hpos
  obtain rfl : i = n := by
    have hn := Option.some.inj h
    omega
  rw [Whole, toInt?_eq_some_iff.1 hi, Nat.cast_mul]

theorem Whole.unique {x : Binary64} {m n : Nat} (hm : Whole x m) (hn : Whole x n) : m = n :=
  Option.some.inj (hm.toNat?.symm.trans hn.toNat?)

theorem Whole.truncate? {x : Binary64} {n : Nat} (h : Whole x n) : x.truncate? = some (n : Int) := by
  have hone : (one : Int) ≠ 0 := by exact_mod_cast one_pos.ne'
  unfold Binary64.truncate?
  rw [h, Option.map_some, Nat.cast_mul, Int.mul_tdiv_cancel _ hone]

theorem Whole.toIndex? {x : Binary64} {n : Nat} (h : Whole x n) (hn : n < exactBound) :
    x.toIndex? = some n := by
  have ht := h.truncate?
  cases x with
  | nan => cases h
  | infinite s => cases h
  | finite s c =>
    have hn' : (n : Int) < (exactBound : Int) := by exact_mod_cast hn
    simp only [Binary64.toIndex?, ht, Option.getD_some]
    rw [if_pos ⟨Int.natCast_nonneg n, hn'⟩, Int.toNat_natCast]

theorem Whole.wrap {x : Binary64} {n : Nat} (h : Whole x n) (bits : Nat) :
    x.wrap bits = n % 2 ^ bits := by
  unfold Binary64.wrap
  rw [h.truncate?, Option.getD_some, Nat.pow_eq]
  omega

theorem Whole.exists_finite {x : Binary64} {n : Nat} (h : Whole x n) :
    ∃ s c, x = finite s c ∧ Grid.units 52 c.val = n * one ∧ (s = true → n = 0) := by
  cases x with
  | nan => cases h
  | infinite s => cases h
  | finite s c =>
    simp only [Whole, scaled?, Option.some.injEq] at h
    cases s with
    | false =>
      simp only [Bool.false_eq_true, ↓reduceIte] at h
      exact ⟨false, c, rfl, by exact_mod_cast h, by simp⟩
    | true =>
      simp only [↓reduceIte] at h
      have hz : n * one = 0 := by omega
      have hn : n = 0 := (Nat.mul_eq_zero.1 hz).resolve_right one_pos.ne'
      refine ⟨true, c, rfl, ?_, fun _ => hn⟩
      rw [hz]
      omega

theorem scaled?_finite (s : Bool) (c : Fin 9218868437227405312) :
    (finite s c).scaled? =
      some (if s then -(Grid.units 52 c.val : Int) else (Grid.units 52 c.val : Int)) := rfl

/-- A ratio on the grid and below the infinities is not changed by rounding. -/
theorem ofUnits_eq_finite {c num den : Nat} (s : Bool) (hc : c < codeBound) (hden : 0 < den)
    (h : num = Grid.units 52 c * den) : ofUnits s num den = finite s ⟨c, hc⟩ := by
  rw [ofUnits, Grid.code_units hden h, ofCode, dif_pos hc]

theorem whole_ofUnits {n num den : Nat} (hn : n ≤ exactBound) (hden : 0 < den)
    (h : num = n * one * den) : Whole (ofUnits false num den) n := by
  obtain ⟨c, hc, hu⟩ := exists_code hn
  rw [ofUnits_eq_finite false hc hden (by rw [h, hu]), Whole, scaled?_finite, hu]
  rfl

theorem whole_ofNat {n : Nat} (h : n ≤ exactBound) : Whole (ofNat n) n :=
  whole_ofUnits h Nat.one_pos (Nat.mul_one _).symm

theorem toIndex?_ofNat {n : Nat} (h : n < exactBound) : (ofNat n).toIndex? = some n :=
  (whole_ofNat h.le).toIndex? h

theorem whole_zero (s : Bool) {c : Fin 9218868437227405312} (hc : c.val = 0) :
    Whole (finite s c) 0 := by
  have hz : Grid.units 52 0 = 0 := Grid.units_of_lt (by decide)
  rw [Whole, scaled?_finite, hc, hz, Nat.zero_mul]
  cases s <;> rfl

theorem whole_negativeZero : Whole negativeZero 0 := whole_zero true rfl

theorem codeBound_pos : 0 < codeBound := by decide

theorem whole_ofCode_zero (s : Bool) : Whole (ofCode s 0) 0 := by
  rw [ofCode, dif_pos codeBound_pos]
  exact whole_zero s rfl

/-- Rounding does not go below a natural number that the ratio reaches. -/
theorem atLeast_ofUnits {n num den : Nat} (hn : n ≤ exactBound) (hden : 0 < den)
    (h : n * one * den ≤ num) : AtLeast (ofUnits false num den) n := by
  obtain ⟨c, hc, hu⟩ := exists_code hn
  have hle : c ≤ Grid.code 52 num den := Grid.le_code hden (by rwa [hu])
  rw [ofUnits, ofCode]
  split_ifs with hb
  · refine Or.inr ⟨_, scaled?_finite _ _, ?_⟩
    have hm : n * one ≤ Grid.units 52 (Grid.code 52 num den) :=
      hu ▸ Grid.units_le_units.2 hle
    rw [if_neg Bool.false_ne_true]
    exact_mod_cast hm
  · exact Or.inl rfl

theorem scaled?_neg (x : Binary64) : (-x).scaled? = x.scaled?.map (-·) := by
  cases x with
  | nan => rfl
  | infinite s => rfl
  | finite s c =>
    change (finite (!s) c).scaled? = _
    rw [scaled?_finite, scaled?_finite]
    cases s <;> simp

/-- A sum that does not vanish is the exact sum, rounded. -/
theorem add_of_ne {x y : Binary64} {s t : Int} (hx : x.scaled? = some s) (hy : y.scaled? = some t)
    (h : s + t ≠ 0) : x + y = ofUnits (decide (s + t < 0)) (s + t).natAbs 1 := by
  cases x with
  | nan => simp [scaled?] at hx
  | infinite b => simp [scaled?] at hx
  | finite b c =>
    cases y with
    | nan => simp [scaled?] at hy
    | infinite b' => simp [scaled?] at hy
    | finite b' c' =>
      change add (finite b c) (finite b' c') = _
      simp only [add, hx, hy, Option.getD_some]
      rw [if_neg h]

theorem add_eq_ofUnits {x y : Binary64} {s t : Int} (hx : x.scaled? = some s)
    (hy : y.scaled? = some t) (h : 0 < s + t) : x + y = ofUnits false (s + t).natAbs 1 := by
  rw [add_of_ne hx hy h.ne', decide_eq_false (by omega)]

/-- Sums of whole numbers are exact up to the bound. -/
theorem Whole.add {x y : Binary64} {m n : Nat} (hx : Whole x m) (hy : Whole y n)
    (h : m + n ≤ exactBound) : Whole (x + y) (m + n) := by
  rcases Nat.eq_zero_or_pos (m + n) with hz | hpos
  · obtain ⟨rfl, rfl⟩ : m = 0 ∧ n = 0 := by omega
    obtain ⟨s, c, rfl, -, -⟩ := hx.exists_finite
    obtain ⟨t, d, rfl, -, -⟩ := hy.exists_finite
    have hsum : finite s c + finite t d = ofCode (s && t) 0 := by
      change Binary64.add (finite s c) (finite t d) = _
      simp only [Binary64.add]
      rw [hx, hy, Option.getD_some, Nat.zero_mul, Nat.cast_zero, if_pos (Int.add_zero 0)]
    rw [hsum]
    exact whole_ofCode_zero _
  · have hsum : (0 : Int) < ((m * one : Nat) : Int) + ((n * one : Nat) : Int) := by
      have hmul := Nat.mul_pos hpos one_pos
      rw [Nat.add_mul] at hmul
      exact_mod_cast hmul
    rw [add_eq_ofUnits hx hy hsum]
    apply whole_ofUnits h Nat.one_pos
    rw [Nat.mul_one, Nat.add_mul]
    omega

/-- Differences of whole numbers that do not go below zero are exact up to the bound. -/
theorem Whole.sub {x y : Binary64} {m n : Nat} (hx : Whole x m) (hy : Whole y n)
    (hle : n ≤ m) (h : m - n ≤ exactBound) : Whole (sub x y) (m - n) := by
  rcases Nat.lt_or_eq_of_le hle with hlt | rfl
  · have hneg : (-y).scaled? = some (-((n * one : Nat) : Int)) := by
      rw [scaled?_neg, hy, Option.map_some]
    have hmul : n * one < m * one := Nat.mul_lt_mul_of_pos_right hlt one_pos
    rw [Binary64.sub, add_eq_ofUnits hx hneg (by omega)]
    apply whole_ofUnits h Nat.one_pos
    rw [Nat.mul_one, Nat.sub_mul]
    omega
  · obtain ⟨s, c, rfl, -, -⟩ := hx.exists_finite
    obtain ⟨t, d, rfl, -, -⟩ := hy.exists_finite
    have hneg : (finite (!t) d).scaled? = some (-((n * one : Nat) : Int)) := by
      have hflip : (-finite t d).scaled? = (finite t d).scaled?.map (-·) := scaled?_neg _
      rw [hy] at hflip
      exact hflip
    have hdiff : Binary64.sub (finite s c) (finite t d) = ofCode (s && !t) 0 := by
      change Binary64.add (finite s c) (finite (!t) d) = _
      simp only [Binary64.add]
      rw [hx, hneg, Option.getD_some, Option.getD_some, if_pos (Int.add_right_neg _)]
    rw [hdiff, Nat.sub_self]
    exact whole_ofCode_zero _

theorem Whole.le {x y : Binary64} {m n : Nat} (hx : Whole x m) (hy : Whole y n) :
    x.le y = decide (m ≤ n) := by
  obtain ⟨s, c, rfl, -, -⟩ := hx.exists_finite
  obtain ⟨t, d, rfl, -, -⟩ := hy.exists_finite
  have hm : (finite s c).position? = some ((m * one : Nat) : Int) := hx
  have hn : (finite t d).position? = some ((n * one : Nat) : Int) := hy
  unfold Binary64.le
  rw [hm, hn]
  apply decide_eq_decide.2
  rw [Int.ofNat_le]
  exact Nat.mul_le_mul_right_iff one_pos

theorem Whole.lt {x y : Binary64} {m n : Nat} (hx : Whole x m) (hy : Whole y n) :
    x.lt y = decide (m < n) := by
  obtain ⟨s, c, rfl, -, -⟩ := hx.exists_finite
  obtain ⟨t, d, rfl, -, -⟩ := hy.exists_finite
  have hm : (finite s c).position? = some ((m * one : Nat) : Int) := hx
  have hn : (finite t d).position? = some ((n * one : Nat) : Int) := hy
  unfold Binary64.lt
  rw [hm, hn]
  apply decide_eq_decide.2
  rw [Int.ofNat_lt]
  exact Nat.mul_lt_mul_right one_pos

/-- A product of whole numbers is the exact product, rounded. -/
theorem Whole.mul_eq {x y : Binary64} {m n : Nat} (hx : Whole x m) (hy : Whole y n) :
    ∃ s, x * y = ofUnits s (m * n * one * one) one ∧ (s = true → m * n = 0) := by
  obtain ⟨s, c, rfl, hc, hs⟩ := hx.exists_finite
  obtain ⟨t, d, rfl, hd, ht⟩ := hy.exists_finite
  have hmul : finite s c * finite t d =
      ofUnits (s != t) (Grid.units 52 c.val * Grid.units 52 d.val) one := by
    change Binary64.mul (finite s c) (finite t d) = _
    simp only [Binary64.mul]
  have hprod : Grid.units 52 c.val * Grid.units 52 d.val = m * n * one * one := by
    rw [hc, hd]
    ring
  refine ⟨s != t, by rw [hmul, hprod], fun hsign => ?_⟩
  rw [Nat.mul_eq_zero]
  cases s with
  | true => exact Or.inl (hs rfl)
  | false =>
    cases t with
    | true => exact Or.inr (ht rfl)
    | false => cases hsign

theorem whole_ofUnits_zero (s : Bool) {den : Nat} (hden : 0 < den) : Whole (ofUnits s 0 den) 0 := by
  have hcode : Grid.code 52 0 den = 0 := Grid.code_units hden (by simp [Grid.units])
  rw [ofUnits, hcode]
  exact whole_ofCode_zero s

/-- Products of whole numbers are exact up to the bound. -/
theorem Whole.mul {x y : Binary64} {m n : Nat} (hx : Whole x m) (hy : Whole y n)
    (h : m * n ≤ exactBound) : Whole (x * y) (m * n) := by
  obtain ⟨s, hmul, hs⟩ := hx.mul_eq hy
  rw [hmul]
  cases s with
  | false => exact whole_ofUnits h one_pos rfl
  | true =>
    rw [hs rfl, Nat.zero_mul, Nat.zero_mul]
    exact whole_ofUnits_zero true one_pos

/-- The code of zero is the only one that stands for nothing. -/
theorem code_eq_zero_iff {c n : Nat} (h : Grid.units 52 c = n * one) : c = 0 ↔ n = 0 := by
  have hz : Grid.units 52 0 = 0 := Grid.units_of_lt (by decide)
  rw [← (Grid.units_strictMono 52).injective.eq_iff, hz, h, Nat.mul_eq_zero]
  exact or_iff_left one_pos.ne'

theorem exists_ofNat_eq {n : Nat} (h : n ≤ exactBound) :
    ∃ c : Fin 9218868437227405312, ofNat n = finite false c ∧ Grid.units 52 c.val = n * one := by
  obtain ⟨c, hc, hu⟩ := exists_code h
  exact ⟨⟨c, hc⟩, ofUnits_eq_finite false hc Nat.one_pos (by rw [hu, Nat.mul_one]), hu⟩

/-- A product is divided by a factor without rounding. -/
theorem ofNat_mul_div {m n : Nat} (hn : 0 < n) (hle : n ≤ exactBound) (h : m * n ≤ exactBound) :
    ofNat (m * n) / ofNat n = ofNat m := by
  obtain ⟨a, ha, hau⟩ := exists_ofNat_eq h
  obtain ⟨b, hb, hbu⟩ := exists_ofNat_eq hle
  obtain ⟨c, hc, hcu⟩ := exists_ofNat_eq ((Nat.le_mul_of_pos_right m hn).trans h)
  have hb0 : ¬ b.val = 0 := fun hz => hn.ne' ((code_eq_zero_iff hbu).1 hz)
  have hdiv : finite false a / finite false b =
      ofUnits false (Grid.units 52 a.val * one) (Grid.units 52 b.val) := by
    change Binary64.div (finite false a) (finite false b) = _
    simp only [Binary64.div, hb0, if_false]
    rfl
  rw [ha, hb, hc, hdiv, hau, hbu]
  apply ofUnits_eq_finite false c.isLt (Nat.mul_pos hn one_pos)
  rw [hcu]
  ring

/-- Remainders of whole numbers are exact up to the bound. -/
theorem Whole.mod {x y : Binary64} {m n : Nat} (hx : Whole x m) (hy : Whole y n) (hn : 0 < n)
    (hm : m ≤ exactBound) : Whole (x % y) (m % n) := by
  obtain ⟨s, c, rfl, hc, hs⟩ := hx.exists_finite
  obtain ⟨t, d, rfl, hd, -⟩ := hy.exists_finite
  have hd0 : ¬ d.val = 0 := fun hz => hn.ne' ((code_eq_zero_iff hd).1 hz)
  have hrem : finite s c % finite t d = ofUnits s (m % n * one) 1 := by
    change Binary64.rem (finite s c) (finite t d) = _
    simp only [Binary64.rem, hd0, if_false]
    rw [hc, hd, Nat.mul_mod_mul_right]
  rw [hrem]
  cases s with
  | false => exact whole_ofUnits ((Nat.mod_le m n).trans hm) Nat.one_pos (Nat.mul_one _).symm
  | true =>
    rw [hs rfl, Nat.zero_mod, Nat.zero_mul]
    exact whole_ofUnits_zero true Nat.one_pos

theorem Whole.isZero {x : Binary64} {n : Nat} (h : Whole x n) : x.isZero = true ↔ n = 0 := by
  obtain ⟨s, c, rfl, hc, -⟩ := h.exists_finite
  rw [← code_eq_zero_iff hc]
  exact decide_eq_true_iff

/-- The remainder of whole numbers tells whether one divides the other. -/
theorem Whole.isZero_mod {x y : Binary64} {m n : Nat} (hx : Whole x m) (hy : Whole y n) (hn : 0 < n)
    (hm : m ≤ exactBound) : (x % y).isZero = true ↔ n ∣ m := by
  rw [(hx.mod hy hn hm).isZero, Nat.dvd_iff_mod_eq_zero]

theorem AtLeast.mono {x : Binary64} {m n : Nat} (h : AtLeast x n) (hmn : m ≤ n) : AtLeast x m := by
  rcases h with rfl | ⟨s, hs, hle⟩
  · exact Or.inl rfl
  · refine Or.inr ⟨s, hs, le_trans ?_ hle⟩
    exact_mod_cast Nat.mul_le_mul_right one hmn

theorem Whole.atLeast {x : Binary64} {m n : Nat} (h : Whole x n) (hmn : m ≤ n) : AtLeast x m :=
  AtLeast.mono (Or.inr ⟨_, h, le_rfl⟩) hmn

/-- What is read off a number that is not below a bound is not below it either. -/
theorem AtLeast.le_of_whole {x : Binary64} {m n : Nat} (h : AtLeast x n) (hx : Whole x m) :
    n ≤ m := by
  rcases h with rfl | ⟨s, hs, hle⟩
  · cases hx
  · rw [Whole, hs, Option.some.injEq] at hx
    rw [hx] at hle
    exact Nat.le_of_mul_le_mul_right (by exact_mod_cast hle) one_pos

/-- The place of the infinities lies past every number up to the bound. -/
theorem mul_one_lt_beyond {n : Nat} (h : n ≤ exactBound) : ((n * one : Nat) : Int) < beyond := by
  have hlt : n * one < Nat.pow 2 2100 := by
    unfold one
    generalize he : 1074 = e
    generalize hg : 2100 = g
    rw [Nat.pow_eq, Nat.pow_eq]
    calc n * 2 ^ e ≤ exactBound * 2 ^ e := Nat.mul_le_mul_right _ h
      _ = 2 ^ (53 + e) := by rw [Nat.pow_add]; rfl
      _ < 2 ^ g := Nat.pow_lt_pow_right (by decide) (by omega)
  unfold beyond
  exact Int.ofNat_lt.2 hlt

/-- A number past a whole number is not at most that number. -/
theorem AtLeast.not_le {x y : Binary64} {m n : Nat} (hx : AtLeast x m) (hy : Whole y n)
    (h : n < m) (hn : n ≤ exactBound) : x.le y = false := by
  obtain ⟨t, d, rfl, -, -⟩ := hy.exists_finite
  have hplace : (finite t d).position? = some ((n * one : Nat) : Int) := hy
  unfold Binary64.le
  rw [hplace]
  rcases hx with rfl | ⟨s, hs, hle⟩
  · exact decide_eq_false (Int.not_le.2 (mul_one_lt_beyond hn))
  · obtain ⟨b, c, rfl⟩ : ∃ b c, x = finite b c := by
      cases x with
      | nan => simp [scaled?] at hs
      | infinite b => simp [scaled?] at hs
      | finite b c => exact ⟨b, c, rfl⟩
    have hplace' : (finite b c).position? = some s := hs
    rw [hplace']
    apply decide_eq_false
    have hlt : n * one < m * one := Nat.mul_lt_mul_of_pos_right h one_pos
    omega

/-- Adding to a number does not bring a sum below a bound that the exact sum reaches. -/
theorem AtLeast.whole_add {x y : Binary64} {m n : Nat} (hx : Whole x m) (hy : AtLeast y n)
    (hpos : 0 < m + n) (h : m + n ≤ exactBound) : AtLeast (x + y) (m + n) := by
  rcases hy with rfl | ⟨t, ht, hle⟩
  · obtain ⟨b, c, rfl, -, -⟩ := hx.exists_finite
    exact Or.inl rfl
  · have hone := Nat.mul_pos hpos one_pos
    rw [Nat.add_mul] at hone
    rw [add_eq_ofUnits hx ht (by omega)]
    apply atLeast_ofUnits h Nat.one_pos
    rw [Nat.mul_one, Nat.add_mul]
    omega

/-- A difference of whole numbers is not below a bound that the exact difference reaches. -/
theorem AtLeast.sub {x y : Binary64} {m n k : Nat} (hx : Whole x m) (hy : Whole y n)
    (hpos : 0 < k) (hk : k + n ≤ m) (h : k ≤ exactBound) : AtLeast (sub x y) k := by
  have hneg : (-y).scaled? = some (-((n * one : Nat) : Int)) := by
    rw [scaled?_neg, hy, Option.map_some]
  have hle : (k + n) * one ≤ m * one := Nat.mul_le_mul_right one hk
  have hone := Nat.mul_pos hpos one_pos
  rw [Nat.add_mul] at hle
  rw [Binary64.sub, add_eq_ofUnits hx hneg (by omega)]
  apply atLeast_ofUnits h Nat.one_pos
  omega

/-- A positive number of infinities is infinite. -/
theorem infinite_mul {y : Binary64} {n : Nat} (hy : Whole y n) (hn : 0 < n) :
    infinite false * y = infinite false := by
  obtain ⟨t, d, rfl, hd, ht⟩ := hy.exists_finite
  obtain rfl : t = false := by
    cases t with
    | false => rfl
    | true => exact absurd (ht rfl) hn.ne'
  have hd0 : d.val ≠ 0 := by
    intro hz
    have hone := Nat.mul_pos hn one_pos
    rw [hz, Grid.units_of_lt (by decide)] at hd
    omega
  change Binary64.mul (infinite false) (finite false d) = _
  simp only [Binary64.mul]
  rw [if_neg hd0]
  rfl

/-- A product is not below a bound that the exact product reaches. -/
theorem AtLeast.mul {x y : Binary64} {m n k : Nat} (hx : AtLeast x m) (hy : Whole y n)
    (hpos : 0 < k) (hk : k ≤ m * n) (h : k ≤ exactBound) : AtLeast (x * y) k := by
  have hm : 0 < m := Nat.pos_of_mul_pos_right (hpos.trans_le hk)
  have hn : 0 < n := Nat.pos_of_mul_pos_left (hpos.trans_le hk)
  rcases hx with rfl | ⟨s, hs, hle⟩
  · exact Or.inl (infinite_mul hy hn)
  · obtain ⟨t, d, rfl, hd, ht⟩ := hy.exists_finite
    obtain rfl : t = false := by
      cases t with
      | false => rfl
      | true => exact absurd (ht rfl) hn.ne'
    have hm1 : 0 < m * one := Nat.mul_pos hm one_pos
    cases x with
    | nan => simp [scaled?] at hs
    | infinite b => simp [scaled?] at hs
    | finite b c =>
      rw [scaled?_finite, Option.some.injEq] at hs
      cases b with
      | true =>
        rw [if_pos rfl] at hs
        omega
      | false =>
        rw [if_neg Bool.false_ne_true] at hs
        have hc : m * one ≤ Grid.units 52 c.val := by omega
        have hmul : finite false c * finite false d =
            ofUnits false (Grid.units 52 c.val * Grid.units 52 d.val) one := by
          change Binary64.mul (finite false c) (finite false d) = _
          simp only [Binary64.mul]
          rfl
        rw [hmul]
        apply atLeast_ofUnits h one_pos
        calc k * one * one ≤ m * n * one * one :=
              Nat.mul_le_mul_right _ (Nat.mul_le_mul_right _ hk)
          _ = m * one * (n * one) := by ring
          _ ≤ Grid.units 52 c.val * Grid.units 52 d.val := Nat.mul_le_mul hc hd.ge

/-- Past the exact bound all points of the grid are whole numbers, so a number is rounded to one. -/
theorem exists_units_code {n num den : Nat} (hbig : exactBound ≤ n) (hden : 0 < den)
    (h : num = n * one * den) : ∃ m, Grid.units 52 (Grid.code 52 num den) = m * one := by
  obtain ⟨e, f, -, hone, -⟩ := exists_scale
  -- the code is not below the one of the exact bound, from where on the step is at least one
  have hstart : Grid.units 52 ((e + 1) * 2 ^ 52 + 2 ^ 52) = 2 ^ 52 * 2 ^ (e + 1) :=
    Grid.units_parts (by decide) (Or.inr le_rfl)
  have hlow : (e + 1) * 2 ^ 52 + 2 ^ 52 ≤ Grid.code 52 num den := by
    apply Grid.le_code hden
    rw [hstart, h, hone]
    apply Nat.mul_le_mul_right
    calc 2 ^ 52 * 2 ^ (e + 1) = exactBound * 2 ^ e := by
          rw [exactBound_eq, Nat.pow_succ 2 e]
          ring
      _ ≤ n * 2 ^ e := Nat.mul_le_mul_right _ hbig
  obtain ⟨d, m, hparts, hm, hd⟩ := Grid.exists_parts 52 (Grid.code 52 num den)
  have hle : e ≤ d := by omega
  refine ⟨m * 2 ^ (d - e), ?_⟩
  rw [hparts, Grid.units_parts hm hd, hone, Nat.mul_assoc, ← Nat.pow_add, Nat.sub_add_cancel hle]

/-- A number is rounded to a whole number or past the end of the format. -/
theorem whole_or_infinite_ofUnits {n num den : Nat} (hden : 0 < den) (h : num = n * one * den) :
    (∃ m, Whole (ofUnits false num den) m) ∨ ofUnits false num den = infinite false := by
  rcases Nat.lt_or_ge n exactBound with hsmall | hbig
  · exact Or.inl ⟨n, whole_ofUnits hsmall.le hden h⟩
  · obtain ⟨m, hunits⟩ := exists_units_code hbig hden h
    rw [ofUnits, ofCode]
    split_ifs with hlt
    · refine Or.inl ⟨m, ?_⟩
      rw [Whole, scaled?_finite, hunits]
      rfl
    · exact Or.inr rfl

/-- Far below the end of the format, rounding a number does not go past a power of two. -/
theorem exists_whole_ofUnits {n num den b : Nat} (hb : b ≤ 1000) (hn : n ≤ 2 ^ b) (hden : 0 < den)
    (h : num = n * one * den) : ∃ m, m ≤ 2 ^ b ∧ Whole (ofUnits false num den) m := by
  obtain ⟨e, f, hef, hone, hend⟩ := exists_scale
  obtain ⟨top, htop⟩ := Grid.exists_units (p := 52) (m := 1) (b + e) (by decide)
  rw [Nat.one_mul, Nat.pow_add] at htop
  have hhigh : Grid.code 52 num den ≤ top := by
    apply Grid.code_le hden
    rw [htop, h, hone]
    exact Nat.mul_le_mul_right _ (Nat.mul_le_mul_right _ hn)
  have hlt : Grid.code 52 num den < codeBound := by
    apply hhigh.trans_lt
    rw [← (Grid.units_strictMono 52).lt_iff_lt, htop, hend, ← Nat.pow_add, ← Nat.pow_add]
    exact Nat.pow_lt_pow_right (by decide) (by omega)
  rcases whole_or_infinite_ofUnits hden h with ⟨m, hm⟩ | hinf
  · refine ⟨m, ?_, hm⟩
    have hunits : Grid.units 52 (Grid.code 52 num den) = m * one := by
      rw [ofUnits, ofCode, dif_pos hlt, Whole, scaled?_finite, Option.some.injEq,
        if_neg Bool.false_ne_true] at hm
      exact_mod_cast hm
    have hunder := (Grid.units_le_units (p := 52)).2 hhigh
    rw [hunits, htop, hone] at hunder
    exact Nat.le_of_mul_le_mul_right hunder (Nat.two_pow_pos e)
  · rw [ofUnits, ofCode, dif_pos hlt] at hinf
    cases hinf

/-- A product of whole numbers is a whole number again, or infinite. -/
theorem Whole.mul_or_infinite {x y : Binary64} {m n : Nat} (hx : Whole x m) (hy : Whole y n) :
    (∃ k, Whole (x * y) k) ∨ x * y = infinite false := by
  obtain ⟨s, hmul, hs⟩ := hx.mul_eq hy
  rw [hmul]
  cases s with
  | false => exact whole_or_infinite_ofUnits one_pos rfl
  | true =>
    rw [hs rfl, Nat.zero_mul, Nat.zero_mul]
    exact Or.inl ⟨0, whole_ofUnits_zero true one_pos⟩

/-- So products of whole numbers are whole numbers, also past the exact bound. -/
theorem Whole.exists_mul {x y : Binary64} {m n b : Nat} (hb : b ≤ 1000) (hx : Whole x m) (hy : Whole y n)
    (h : m * n ≤ 2 ^ b) : ∃ k, k ≤ 2 ^ b ∧ Whole (x * y) k := by
  obtain ⟨s, hmul, hs⟩ := hx.mul_eq hy
  rw [hmul]
  cases s with
  | false => exact exists_whole_ofUnits hb h one_pos rfl
  | true =>
    rw [hs rfl, Nat.zero_mul, Nat.zero_mul]
    exact ⟨0, Nat.zero_le _, whole_ofUnits_zero true one_pos⟩

/-- One less than either zero is the same number. -/
theorem Whole.sub_one {x : Binary64} (h : Whole x 0) : x - 1 = ofUnits true one 1 := by
  have hone : Whole 1 1 := whole_ofNat (by decide)
  have hx : x.scaled? = some 0 := by rw [h, Nat.zero_mul, Nat.cast_zero]
  have hy : (-(1 : Binary64)).scaled? = some (-(one : Int)) := by
    rw [scaled?_neg, hone, Nat.one_mul, Option.map_some]
  -- for any number of steps in place of the ones in one
  have hround : ∀ u : Nat, 0 < u → (0 : Int) + -(u : Int) ≠ 0 ∧
      ofUnits (decide ((0 : Int) + -(u : Int) < 0)) ((0 : Int) + -(u : Int)).natAbs 1 =
        ofUnits true u 1 := by
    intro u hu
    refine ⟨by omega, ?_⟩
    rw [zero_add, Int.natAbs_neg, Int.natAbs_natCast, decide_eq_true (by omega)]
  obtain ⟨hne, heq⟩ := hround one one_pos
  exact (add_of_ne hx hy hne).trans heq

theorem toNat?_minus_one : (ofUnits true one 1).toNat? = none := by
  obtain ⟨c, hc, hu⟩ := exists_code (n := 1) (by decide)
  rw [ofUnits_eq_finite true hc Nat.one_pos (by rw [hu]; ring)]
  cases h : (finite true ⟨c, hc⟩).toNat? with
  | none => rfl
  | some n =>
    have hw := whole_of_toNat? h
    have hnegative : ∀ u k : Nat, 0 < u → -(u : Int) ≠ (k : Int) := by
      intro u k hu
      omega
    rw [Whole, scaled?_finite, hu, Option.some.injEq, if_pos rfl] at hw
    exact absurd hw (hnegative _ _ (Nat.mul_pos Nat.one_pos one_pos))

end LeaseVec.Number.Binary64
