import LeaseVec.Number.Binary32
import LeaseVec.Proofs.Number.Whole

/-!
# Values that come back

A double is found again from its bits, an integer that doubles can hold from the double, and a
single-precision word from the double it widens to, up to the payload of a NaN.
-/

namespace LeaseVec.Number

namespace Binary64

theorem signBit_eq : signBit = 2 ^ 63 := rfl

theorem codeBound_lt : codeBound < signBit := by decide

/-- A pattern below the sign, and the sign, are told apart. -/
theorem ofBits_signed {negative : Bool} {magnitude : Nat} (h : magnitude ≤ codeBound) :
    ofBits ((if negative then signBit else 0) + magnitude) = ofCode negative magnitude := by
  have hlt := codeBound_lt
  unfold ofBits
  cases negative with
  | true =>
    have hq : (signBit + magnitude) / signBit % 2 = 1 := by
      rw [signBit_eq] at hlt ⊢
      omega
    have hr : (signBit + magnitude) % signBit = magnitude := by
      rw [signBit_eq] at hlt ⊢
      omega
    simp only [if_true, hq, hr]
    rw [if_neg (by omega)]
    rfl
  | false =>
    have hq : ¬ magnitude / signBit % 2 = 1 := by
      rw [signBit_eq] at hlt ⊢
      omega
    have hr : magnitude % signBit = magnitude := by
      rw [signBit_eq] at hlt ⊢
      omega
    simp only [Bool.false_eq_true, if_false, Nat.zero_add, hq, hr]
    rw [if_neg (by omega)]
    rfl

theorem ofBits_toBits (x : Binary64) : ofBits x.toBits = x := by
  cases x with
  | nan => decide
  | infinite negative =>
    unfold toBits
    rw [ofBits_signed le_rfl, ofCode, dif_neg (lt_irrefl _)]
  | finite negative code =>
    unfold toBits
    have hlt : code.val < codeBound := code.isLt
    rw [ofBits_signed hlt.le, ofCode, dif_pos hlt]

theorem toBits_lt (x : Binary64) : x.toBits < 2 ^ 64 := by
  cases x with
  | nan => decide
  | infinite negative => cases negative <;> decide
  | finite negative code =>
    have hlt : code.val < codeBound := code.isLt
    have hb : codeBound < 2 ^ 63 := by decide
    have hs : (if negative then signBit else 0) ≤ 2 ^ 63 := by cases negative <;> decide
    change (if negative then signBit else 0) + code.val < 2 ^ 64
    omega

theorem scaled?_ofInt {i : Int} (h : i.natAbs ≤ exactBound) :
    (ofInt i).scaled? = some (i * (one : Int)) := by
  obtain ⟨c, hc, hu⟩ := exists_code h
  have hround : ofInt i = finite (decide (i < 0)) ⟨c, hc⟩ :=
    ofUnits_eq_finite _ hc Nat.one_pos (by rw [hu, Nat.mul_one])
  rw [hround, scaled?_finite, hu, Nat.cast_mul]
  by_cases hi : i < 0
  · rw [if_pos (by simpa using hi), Int.ofNat_natAbs_of_nonpos hi.le, Int.neg_mul, neg_neg]
  · rw [if_neg (by simpa using hi), Int.natAbs_of_nonneg (by omega)]

theorem wrap_of_scaled? {x : Binary64} {i : Int} (h : x.scaled? = some (i * (one : Int)))
    (bits : Nat) : x.wrap bits = (i % (2 ^ bits : Nat)).toNat := by
  have hone : (one : Int) ≠ 0 := by exact_mod_cast one_pos.ne'
  unfold wrap truncate?
  rw [h, Option.map_some, Int.mul_tdiv_cancel _ hone, Option.getD_some, Nat.pow_eq]

theorem wrap_ofInt {i : Int} (h : i.natAbs ≤ exactBound) (bits : Nat) :
    (ofInt i).wrap bits = (i % (2 ^ bits : Nat)).toNat :=
  wrap_of_scaled? (scaled?_ofInt h) bits

end Binary64

namespace Binary32

open Binary64 (ofUnits)

theorem signBit_eq : signBit = 2 ^ 31 := rfl

theorem codeBound_lt : codeBound < signBit := by decide

/-- In double-precision steps every single-precision magnitude is far below the end of the format. -/
theorem exists_scale :
    ∃ g f, g + 255 < f ∧ step = 2 ^ g ∧
      Grid.units 52 Binary64.codeBound = 2 ^ 52 * 2 ^ f := by
  have hparts : Binary64.codeBound = 2046 * 2 ^ 52 + 2 ^ 52 := by decide
  rw [hparts, Grid.units_parts (by decide) (Or.inr le_rfl)]
  unfold step
  -- the powers are never evaluated
  generalize hg : 925 = g
  generalize hf : 2046 = f
  exact ⟨g, f, by omega, Nat.pow_eq, rfl⟩

theorem step_pos : 0 < step := by
  obtain ⟨g, f, -, hg, -⟩ := exists_scale
  rw [hg]
  exact Nat.two_pow_pos g

/-- Every finite single-precision magnitude is a double. -/
theorem exists_code {magnitude : Nat} (h : magnitude < codeBound) :
    ∃ c, c < Binary64.codeBound ∧ Grid.units 52 c = Grid.units 23 magnitude * step := by
  obtain ⟨g, f, hgf, hg, hend⟩ := exists_scale
  obtain ⟨d, m, rfl, hm, hd⟩ := Grid.exists_parts 23 magnitude
  have hbound : codeBound = 255 * 2 ^ 23 := rfl
  have hdle : d ≤ 255 := by omega
  have hm52 : m < 2 ^ 52 := hm.trans_le (by decide)
  obtain ⟨c, hc⟩ := Grid.exists_units (p := 52) (d + g) (m := m) (by omega)
  have hunits : Grid.units 52 c = Grid.units 23 (d * 2 ^ 23 + m) * step := by
    rw [hc, Grid.units_parts hm hd, hg, Nat.pow_add, Nat.mul_assoc]
  refine ⟨c, ?_, hunits⟩
  rw [← (Grid.units_strictMono 52).lt_iff_lt, hc, hend]
  calc m * 2 ^ (d + g) ≤ 2 ^ 52 * 2 ^ (d + g) := Nat.mul_le_mul_right _ hm52.le
    _ < 2 ^ 52 * 2 ^ f :=
      Nat.mul_lt_mul_of_pos_left (Nat.pow_lt_pow_right (by decide) (by omega)) (by decide)

theorem widened {magnitude : Nat} (negative : Bool) (h : magnitude < codeBound) :
    ∃ c : Fin 9218868437227405312,
      ofUnits negative (Grid.units 23 magnitude * step) 1 = .finite negative c ∧
        Grid.units 52 c.val = Grid.units 23 magnitude * step := by
  obtain ⟨c, hc, hu⟩ := exists_code h
  exact ⟨⟨c, hc⟩, Binary64.ofUnits_eq_finite negative hc Nat.one_pos (by rw [hu, Nat.mul_one]), hu⟩

theorem toBinary64_signed {magnitude : Nat} (negative : Bool) (h : magnitude ≤ codeBound) :
    toBinary64 ((if negative then signBit else 0) + magnitude) =
      if magnitude = codeBound then .infinite negative
      else ofUnits negative (Grid.units 23 magnitude * step) 1 := by
  have hlt := codeBound_lt
  unfold toBinary64
  cases negative with
  | true =>
    have hq : (signBit + magnitude) / signBit % 2 = 1 := by
      rw [signBit_eq] at hlt ⊢
      omega
    have hr : (signBit + magnitude) % signBit = magnitude := by
      rw [signBit_eq] at hlt ⊢
      omega
    simp only [if_true, hq, hr]
    rw [if_neg (by omega)]
    rfl
  | false =>
    have hq : ¬ magnitude / signBit % 2 = 1 := by
      rw [signBit_eq] at hlt ⊢
      omega
    have hr : magnitude % signBit = magnitude := by
      rw [signBit_eq] at hlt ⊢
      omega
    simp only [Bool.false_eq_true, if_false, Nat.zero_add, hq, hr]
    rw [if_neg (by omega)]
    rfl

/-- A word that is widened and narrowed again has the same value. -/
theorem toBinary64_ofBinary64 (word : Nat) :
    toBinary64 (ofBinary64 (toBinary64 word)) = toBinary64 word := by
  generalize hn : decide (word / signBit % 2 = 1) = negative
  have hword : toBinary64 word =
      if codeBound < word % signBit then .nan
      else if word % signBit = codeBound then .infinite negative
      else ofUnits negative (Grid.units 23 (word % signBit) * step) 1 := by
    rw [← hn]
    rfl
  rw [hword]
  split_ifs with hnan hinf
  · decide
  · change toBinary64 ((if negative then signBit else 0) + codeBound) = _
    rw [toBinary64_signed negative le_rfl, if_pos rfl]
  · have hlt : word % signBit < codeBound := by omega
    obtain ⟨c, hc, hu⟩ := widened negative hlt
    have hcode : Grid.code 23 (Grid.units 52 c.val) step = word % signBit :=
      Grid.code_units step_pos hu
    rw [hc]
    change toBinary64 ((if negative then signBit else 0) +
      min codeBound (Grid.code 23 (Grid.units 52 c.val) step)) = _
    rw [hcode, Nat.min_eq_right hlt.le, toBinary64_signed negative hlt.le, if_neg hinf, hc]

theorem ofBinary64_lt (x : Binary64) : ofBinary64 x < 2 ^ 32 := by
  have hs : ∀ negative : Bool, (if negative then signBit else 0) ≤ 2 ^ 31 := by
    intro negative
    cases negative <;> decide
  have hb : codeBound < 2 ^ 31 := by decide
  cases x with
  | nan => decide
  | infinite negative =>
    have h := hs negative
    change (if negative then signBit else 0) + codeBound < 2 ^ 32
    omega
  | finite negative code =>
    have h := hs negative
    have hm := Nat.min_le_left codeBound (Grid.code 23 (Grid.units 52 code.val) step)
    change (if negative then signBit else 0) +
      min codeBound (Grid.code 23 (Grid.units 52 code.val) step) < 2 ^ 32
    omega

end Binary32

end LeaseVec.Number
