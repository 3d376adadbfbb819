import LeaseVec.Proofs.Number.Nearest
import LeaseVec.Proofs.Scalar.Stored

/-!
# What elements hold exactly

An element of an integer kind holds an integer of its range as it is: wrapping changes only what lies
outside. A double is held as it is by an element that is a double, and by one of single precision as the
nearest value, when it is not past the largest.
-/

namespace LeaseVec

open Number Number.Binary64

/-- The number that a scalar is, in smallest steps of double precision; NaN and the infinities are none. -/
def Scalar.scaled? : Scalar → Option Int
  | .number x => x.scaled?
  | .integer i => some (i * (one : Int))

namespace Kind

theorem emod_toNat_of_range (bits : Nat) {i : Int} (hge : 0 ≤ i) (hlt : i < (2 ^ bits : Nat)) :
    ((i % (2 ^ bits : Nat)).toNat : Int) = i := by
  rw [Int.emod_eq_of_lt hge hlt, Int.toNat_of_nonneg hge]

theorem toSigned_of_range (bits : Nat) {i : Int} (hge : -(2 ^ bits : Nat) ≤ i)
    (hlt : i < (2 ^ bits : Nat)) :
    Word.toSigned (bits + 1) (i % (2 ^ (bits + 1) : Nat)).toNat = i := by
  have hpow : (2 ^ (bits + 1) : Nat) = 2 * 2 ^ bits := Nat.pow_succ'
  unfold Word.toSigned
  simp only [Nat.pow_eq, Nat.add_sub_cancel]
  rcases Int.lt_or_le i 0 with hneg | hpos
  · have hmod : i % (2 ^ (bits + 1) : Nat) = i + (2 ^ (bits + 1) : Nat) := by
      rw [← Int.add_emod_right]
      exact Int.emod_eq_of_lt (by omega) (by omega)
    rw [hmod, if_neg (by omega), Int.toNat_of_nonneg (by omega), Int.add_sub_cancel]
  · have hmod : i % (2 ^ (bits + 1) : Nat) = i := Int.emod_eq_of_lt hpos (by omega)
    rw [hmod, if_pos (by omega), Int.toNat_of_nonneg hpos]

theorem held_unsigned {k : Kind} (bits : Nat) {x : Binary64} {i : Int} (hbits : bits ≤ 32)
    (hload : ∀ word, k.load word = .number (Binary64.ofNat word))
    (hstore : k.store (.number x) = x.wrap bits) (hx : x.scaled? = some (i * (one : Int)))
    (hge : 0 ≤ i) (hle : i ≤ (2 ^ bits : Nat) - 1) :
    ∃ y, k.held (.number x) = .number y ∧ y.scaled? = some (i * (one : Int)) := by
  have hword := emod_toNat_of_range bits hge (by omega)
  rw [held, hload, hstore, wrap_of_scaled? hx]
  have hlt : (i % (2 ^ bits : Nat)).toNat < 2 ^ 32 :=
    (emod_toNat_lt i bits).trans_le (Nat.pow_le_pow_right (by decide) hbits)
  have hbound : 2 ^ 32 ≤ exactBound := by decide
  have hwhole : Whole (Binary64.ofNat (i % (2 ^ bits : Nat)).toNat) (i % (2 ^ bits : Nat)).toNat :=
    whole_ofNat (hlt.le.trans hbound)
  refine ⟨_, rfl, ?_⟩
  rw [hwhole, Nat.cast_mul, hword]

theorem held_signed {k : Kind} (bits : Nat) {x : Binary64} {i : Int} (hbits : bits + 1 ≤ 32)
    (hload : ∀ word, k.load word = .number (Binary64.ofInt (Word.toSigned (bits + 1) word)))
    (hstore : k.store (.number x) = x.wrap (bits + 1)) (hx : x.scaled? = some (i * (one : Int)))
    (hge : -(2 ^ bits : Nat) ≤ i) (hle : i ≤ (2 ^ bits : Nat) - 1) :
    ∃ y, k.held (.number x) = .number y ∧ y.scaled? = some (i * (one : Int)) := by
  have hword := toSigned_of_range bits hge (by omega)
  rw [held, hload, hstore, wrap_of_scaled? hx, hword]
  refine ⟨_, rfl, scaled?_ofInt ?_⟩
  have hpow : 2 ^ bits ≤ 2 ^ 32 := Nat.pow_le_pow_right (by decide) (by omega)
  have hbound : 2 ^ 32 ≤ exactBound := by decide
  omega

/-- A double that is an integer of the range is held as it is. -/
theorem held_number_of_range {k : Kind} {x : Binary64} {i : Int} (hwide : k.isWide = false)
    (hfloat : k.isFloat = false) (hx : x.scaled? = some (i * (one : Int))) (hge : k.range.1 ≤ i)
    (hle : i ≤ k.range.2) :
    ∃ y, k.held (.number x) = .number y ∧ y.scaled? = some (i * (one : Int)) := by
  cases k with
  | u8 => exact held_unsigned 8 (by decide) (fun _ => rfl) rfl hx hge hle
  | u16 => exact held_unsigned 16 (by decide) (fun _ => rfl) rfl hx hge hle
  | u32 => exact held_unsigned 32 (by decide) (fun _ => rfl) rfl hx hge hle
  | i8 => exact held_signed 7 (by decide) (fun _ => rfl) rfl hx hge hle
  | i16 => exact held_signed 15 (by decide) (fun _ => rfl) rfl hx hge hle
  | i32 => exact held_signed 31 (by decide) (fun _ => rfl) rfl hx hge hle
  | f32 => cases hfloat
  | f64 => cases hfloat
  | i64 => cases hwide
  | u64 => cases hwide

/-- So is an integer of the range of an eight-byte kind. -/
theorem held_integer_of_range {k : Kind} {i : Int} (hwide : k.isWide = true) (hge : k.range.1 ≤ i)
    (hle : i ≤ k.range.2) : k.held (.integer i) = .integer i := by
  cases k with
  | i64 =>
    have hle' : i ≤ (2 ^ 63 : Nat) - 1 := hle
    exact congrArg Scalar.integer (toSigned_of_range 63 hge (by omega))
  | u64 =>
    have hle' : i ≤ (2 ^ 64 : Nat) - 1 := hle
    exact congrArg Scalar.integer (emod_toNat_of_range 64 hge (by omega))
  | _ => cases hwide

theorem held_double (x : Binary64) : f64.held (.number x) = .number x :=
  congrArg Scalar.number (ofBits_toBits x)

/-- Single precision holds the nearest value. -/
theorem held_single {x : Binary64} {s : Int} (hx : x.scaled? = some s)
    (hle : s.natAbs ≤ Binary32.largestSteps) :
    ∃ y t, f32.held (.number x) = .number y ∧ y.scaled? = some t ∧ Binary32.Nearest s t := by
  obtain ⟨t, ht, hnear⟩ := Binary32.nearest_narrowed hx hle
  exact ⟨_, t, rfl, ht, hnear⟩

end Kind

end LeaseVec
