import LeaseVec.Scalar.Basic
import LeaseVec.Proofs.Number.Single

/-!
# What an element holds

An element of a kind holds the value that is read back after a scalar has been stored in it. Holding is
settled after one step, and a word that is copied into an element of any kind holds what the scalar that it
stands for would.
-/

namespace LeaseVec.Kind

open Number Number.Binary64

/-- The value that an element holds after a scalar has been stored in it. -/
def held (k : Kind) (x : Scalar) : Scalar := k.load (k.store x)

@[simp] theorem sameSort_self (k : Kind) : k.sameSort k = true := beq_self_eq_true _

@[simp] theorem admits_zero (k : Kind) : k.admits k.zero = true := by
  cases k <;> rfl

theorem wrap_lt (x : Binary64) (bits : Nat) : x.wrap bits < 2 ^ bits := by
  have hp : (0 : Int) < (2 ^ bits : Nat) := by exact_mod_cast Nat.two_pow_pos bits
  have hlt := Int.emod_lt_of_pos (x.truncate?.getD 0) hp
  have hge := Int.emod_nonneg (x.truncate?.getD 0) hp.ne'
  unfold wrap
  rw [Nat.pow_eq]
  omega

theorem emod_toNat_lt (i : Int) (bits : Nat) : (i % (Nat.pow 2 bits : Int)).toNat < 2 ^ bits := by
  have hp : (0 : Int) < (2 ^ bits : Nat) := by exact_mod_cast Nat.two_pow_pos bits
  have hlt := Int.emod_lt_of_pos i hp
  have hge := Int.emod_nonneg i hp.ne'
  rw [Nat.pow_eq]
  omega

theorem store_lt (k : Kind) (x : Scalar) : k.store x < 256 ^ k.width := by
  have hpow : 256 ^ k.width = 2 ^ (8 * k.width) := by rw [Nat.pow_mul]
  rw [hpow]
  cases x with
  | number x =>
    cases k with
    | f32 => exact Binary32.ofBinary64_lt x
    | f64 => exact toBits_lt x
    | _ => exact wrap_lt x _
  | integer i => cases k <;> exact emod_toNat_lt i _

theorem toSigned_emod {bits n : Nat} (hn : n < 2 ^ bits) :
    (Word.toSigned bits n % (2 ^ bits : Nat)).toNat = n := by
  unfold Word.toSigned
  simp only [Nat.pow_eq]
  have hcast : ((n : Int) % (2 ^ bits : Nat)).toNat = n := by
    rw [← Int.natCast_mod, Nat.mod_eq_of_lt hn, Int.toNat_natCast]
  split_ifs with h
  · exact hcast
  · rw [Int.sub_emod_right]
    exact hcast

theorem natAbs_toSigned_le {bits n : Nat} (hn : n < 2 ^ bits) :
    (Word.toSigned bits n).natAbs ≤ 2 ^ bits := by
  unfold Word.toSigned
  simp only [Nat.pow_eq]
  split_ifs <;> omega

theorem wrap_toSigned {bits n : Nat} (hb : 2 ^ bits ≤ exactBound) (hn : n < 2 ^ bits) :
    (ofInt (Word.toSigned bits n)).wrap bits = n := by
  rw [wrap_ofInt ((natAbs_toSigned_le hn).trans hb), toSigned_emod hn]

theorem wrap_natCast {bits n : Nat} (hb : 2 ^ bits ≤ exactBound) (hn : n < 2 ^ bits) :
    (Binary64.ofNat n).wrap bits = n := by
  rw [(whole_ofNat (hn.le.trans hb)).wrap, Nat.mod_eq_of_lt hn]

/-- Loading, storing and loading again is loading. -/
theorem held_load (k : Kind) {word : Nat} (h : word < 256 ^ k.width) :
    k.held (k.load word) = k.load word := by
  have hpow : 256 ^ k.width = 2 ^ (8 * k.width) := by rw [Nat.pow_mul]
  rw [hpow] at h
  unfold held
  cases k with
  | u8 => exact congrArg (load u8) (wrap_natCast (by decide) h)
  | u16 => exact congrArg (load u16) (wrap_natCast (by decide) h)
  | u32 => exact congrArg (load u32) (wrap_natCast (by decide) h)
  | i8 => exact congrArg (load i8) (wrap_toSigned (by decide) h)
  | i16 => exact congrArg (load i16) (wrap_toSigned (by decide) h)
  | i32 => exact congrArg (load i32) (wrap_toSigned (by decide) h)
  | i64 => exact congrArg (load i64) (toSigned_emod h)
  | u64 =>
    have hlt : word < 2 ^ 64 := h
    have hmod : ((word : Int) % (2 ^ 64 : Nat)).toNat = word := by
      rw [← Int.natCast_mod, Nat.mod_eq_of_lt hlt, Int.toNat_natCast]
    exact congrArg (load u64) hmod
  | f32 => exact congrArg Scalar.number (Binary32.toBinary64_ofBinary64 word)
  | f64 => exact congrArg Scalar.number (ofBits_toBits _)

theorem ofBits_of_nan {bits : Nat} (h : codeBound < bits % signBit) : ofBits bits = nan := by
  unfold ofBits
  simp only [if_pos h]

/-- Widening keeps the value, a NaN being a NaN. -/
theorem ofBits_widenBits (word : Nat) :
    ofBits (Binary32.widenBits word) = Binary32.toBinary64 word := by
  unfold Binary32.widenBits
  simp only
  split_ifs with hnan
  · have hvalue : Binary32.toBinary64 word = nan := by
      unfold Binary32.toBinary64
      simp only [if_pos hnan]
    rw [hvalue]
    apply ofBits_of_nan
    have hb : codeBound = 0x7ff0000000000000 := by decide
    rw [hb, signBit_eq]
    omega
  · exact ofBits_toBits _

/-- Narrowing rounds the value, a NaN being a NaN. -/
theorem toBinary64_narrowBits (word : Nat) :
    Binary32.toBinary64 (Binary32.narrowBits word) =
      Binary32.toBinary64 (Binary32.ofBinary64 (ofBits word)) := by
  unfold Binary32.narrowBits
  simp only
  split_ifs with hnan
  · rw [ofBits_of_nan hnan]
    have hquiet : Binary32.toBinary64 (Binary32.ofBinary64 nan) = nan := by decide
    rw [hquiet]
    unfold Binary32.toBinary64
    simp only
    rw [if_pos]
    have hb : Binary32.codeBound = 0x7f800000 := by decide
    rw [hb, Binary32.signBit_eq]
    omega
  · rfl

/-- A word that is copied holds the value that it stood for, as the other kind holds it. -/
theorem load_convert (source target : Kind) {word : Nat} (h : word < 256 ^ source.width) :
    target.load (source.convert target word) = target.held (source.load word) := by
  by_cases hk : source = target
  · subst hk
    rw [convert_self, held_load source h]
  · unfold convert
    rw [if_neg hk]
    cases source with
    | f32 =>
      cases target with
      | f64 =>
        change Scalar.number (ofBits (Binary32.widenBits word)) =
          .number (ofBits (Binary32.toBinary64 word).toBits)
        rw [ofBits_widenBits, ofBits_toBits]
      | _ => rfl
    | f64 =>
      cases target with
      | f32 => exact congrArg Scalar.number (toBinary64_narrowBits word)
      | _ => rfl
    | _ => rfl

theorem widenBits_lt (word : Nat) : Binary32.widenBits word < 2 ^ 64 := by
  unfold Binary32.widenBits
  simp only
  split_ifs
  · rw [signBit_eq]
    omega
  · exact toBits_lt _

theorem narrowBits_lt (word : Nat) : Binary32.narrowBits word < 2 ^ 32 := by
  unfold Binary32.narrowBits
  simp only
  split_ifs
  · rw [Binary32.signBit_eq]
    omega
  · exact Binary32.ofBinary64_lt _

theorem convert_lt (source target : Kind) {word : Nat} (h : word < 256 ^ source.width) :
    source.convert target word < 256 ^ target.width := by
  by_cases hk : source = target
  · subst hk
    rwa [convert_self]
  · unfold convert
    rw [if_neg hk]
    cases source with
    | f32 =>
      cases target with
      | f64 => exact widenBits_lt word
      | _ => exact store_lt _ _
    | f64 =>
      cases target with
      | f32 => exact narrowBits_lt word
      | _ => exact store_lt _ _
    | _ => exact store_lt _ _

theorem isZero_iff {x : Scalar} :
    x.isZero = true ↔ x = .number Binary64.zero ∨ x = .number negativeZero ∨ x = .integer 0 := by
  constructor
  · intro h
    cases x with
    | integer i => exact Or.inr (Or.inr (congrArg _ (of_decide_eq_true h)))
    | number x =>
      cases x with
      | nan => cases h
      | infinite negative => cases h
      | finite negative code =>
        obtain rfl : code = 0 := Fin.ext (of_decide_eq_true h)
        cases negative with
        | false => exact Or.inl rfl
        | true => exact Or.inr (Or.inl rfl)
  · rintro (rfl | rfl | rfl) <;> decide

/-- What equals zero is stored as zero bits, but for negative zero in a floating element. -/
theorem store_of_isZero {k : Kind} {x : Scalar} (h : x.isZero = true)
    (hk : k.isFloat = false ∨ x ≠ .number negativeZero) : k.store x = 0 := by
  rcases isZero_iff.1 h with rfl | rfl | rfl
  · cases k <;> decide +kernel
  · have hint := hk.resolve_right (not_not_intro rfl)
    cases k <;> first | decide +kernel | cases hint
  · cases k <;> decide +kernel

theorem store_negativeZero_ne {k : Kind} (h : k.isFloat = true) : k.store (.number negativeZero) ≠ 0 := by
  cases k <;> first | decide +kernel | cases h

end LeaseVec.Kind
