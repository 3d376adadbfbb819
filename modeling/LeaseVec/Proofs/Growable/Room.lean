import LeaseVec.Growable
import LeaseVec.Proofs.Number.Whole
import LeaseVec.Proofs.Memory.Frame

/-!
# Room for more elements

An array fits its buffer when the buffer has as many bytes behind the array's offset as its capacity says, and
its elements lie within them. Lengths are doubles, but those of arrays that fit are exact, so what is asked for
and what is compared are natural numbers. A request for more is met by a move to a new buffer or refused.
-/

namespace LeaseVec

open Number Number.Binary64

theorem le_doubledTo_left (capacity need : Nat) : capacity ≤ doubledTo capacity need := by
  fun_induction doubledTo capacity need with
  | case1 capacity h ih => omega
  | case2 capacity h => exact le_rfl

theorem le_doubledTo {capacity need : Nat} (h : 0 < capacity) : need ≤ doubledTo capacity need := by
  fun_induction doubledTo capacity need with
  | case1 capacity hc ih => exact ih (by omega)
  | case2 capacity hc => omega

/-- Doubling stops as soon as there is enough. -/
theorem doubledTo_lt {capacity need : Nat} (h : capacity < need) :
    doubledTo capacity need < 2 * need := by
  fun_induction doubledTo capacity need with
  | case1 capacity hc ih =>
    rcases Nat.lt_or_ge (2 * capacity) need with hlt | hge
    · exact ih hlt
    · rw [doubledTo, if_neg (by omega)]
      omega
  | case2 capacity hc => omega

/-- No host allocates as many elements as doubles can count. -/
theorem Memory.limit_lt (m : Memory) : m.limit.count < exactBound := m.limit.count_le.trans_lt (by decide)

theorem Memory.limit_lt_double (m : Memory) {n : Nat} (h : exactBound < n) : m.limit.count < 2 * n := by
  have hlt := m.limit_lt
  omega

namespace Growable

variable {m m' : Memory} {a : Growable}

/-- The buffer holds the capacity, and the elements lie within it. -/
structure Fits (m : Memory) (a : Growable) : Prop where
  end_le : a.offset + a.capacity * a.kind.width ≤ (m.buffer a.buffer).length
  length_le : a.length ≤ a.capacity
  signed : a.signedZero = true → a.length = 0

theorem Fits.of_grows (h : a.Fits m) (hg : m.Grows m') (hb : a.buffer < m.buffers.size) :
    a.Fits m' where
  end_le := by
    rw [hg.length_eq _ hb]
    exact h.end_le
  length_le := h.length_le
  signed := h.signed

theorem Fits.capacity_lt (h : a.Fits m) (hm : m.Addressable) : a.capacity < exactBound := by
  calc a.capacity ≤ a.capacity * a.kind.width := Nat.le_mul_of_pos_right _ a.kind.width_pos
    _ ≤ (m.buffer a.buffer).length := (Nat.le_add_left ..).trans h.end_le
    _ < exactBound := hm a.buffer

theorem Fits.whole_size (h : a.Fits m) (hm : m.Addressable) : Whole a.size a.length := by
  unfold size
  split_ifs with hs
  · rw [h.signed hs]
    exact whole_negativeZero
  · exact whole_ofNat (h.length_le.trans (h.capacity_lt hm).le)

theorem wholeNeed?_of_whole {x : Binary64} {n : Nat} (h : Whole x n) : wholeNeed? x = some n := by
  have hone : (one : Int) ≠ 0 := by exact_mod_cast one_pos.ne'
  obtain ⟨s, c, rfl, -, -⟩ := h.exists_finite
  unfold wholeNeed?
  simp only
  rw [h, Option.getD_some, Nat.cast_mul, ← Int.neg_mul, Int.mul_ediv_cancel _ hone, neg_neg,
    Int.toNat_natCast]

/-- What is needed for a number that is not below `n` is not below `n` either. -/
theorem wholeNeed?_atLeast {x : Binary64} {n k : Nat} (h : AtLeast x n)
    (hk : wholeNeed? x = some k) : n ≤ k := by
  rcases h with rfl | ⟨s, hs, hle⟩
  · simp [wholeNeed?] at hk
  · cases x with
    | nan => simp [scaled?] at hs
    | infinite b => simp [scaled?] at hs
    | finite b c =>
      have hone : (0 : Int) < (one : Int) := by exact_mod_cast one_pos
      unfold wholeNeed? at hk
      simp only [hs, Option.getD_some, Option.some.injEq] at hk
      have hdiv : (-s) / (one : Int) ≤ -(n : Int) := by
        apply Int.ediv_le_of_le_mul hone
        rw [Nat.cast_mul] at hle
        rw [Int.neg_mul]
        omega
      omega

/-- The array with its elements moved to a new buffer of zeros. -/
def relocate (m : Memory) (a : Growable) (capacity : Nat) : Growable × Memory :=
  let (r, m) := m.alloc (List.replicate (capacity * a.kind.width) 0)
  let b : Growable := { a with buffer := r.buffer, offset := 0, capacity := capacity }
  (b, m.writeWords b.slots 0 (m.words (a.data 0)))

/-- Room is there already, or is made by a move, or is refused. -/
theorem reserve_cases (m : Memory) (a : Growable) (extra : Binary64) :
    (a.size + extra).le (ofNat a.capacity) = true ∧ a.reserve m extra = .ok (false, a, m) ∨
    (a.size + extra).le (ofNat a.capacity) = false ∧
      ((∃ n, wholeNeed? (a.size + extra) = some n ∧
          doubledTo (max 1 a.capacity) n < m.limit.count ∧
          a.reserve m extra = .ok (true, a.relocate m (doubledTo (max 1 a.capacity) n))) ∨
        a.reserve m extra = .error .allocationRefused ∧
          ∀ n, wholeNeed? (a.size + extra) = some n →
            m.limit.count ≤ doubledTo (max 1 a.capacity) n) := by
  unfold reserve
  cases hle : (a.size + extra).le (ofNat a.capacity) with
  | true => exact Or.inl ⟨rfl, by simp [hle]⟩
  | false =>
    refine Or.inr ⟨rfl, ?_⟩
    cases hn : wholeNeed? (a.size + extra) with
    | none => exact Or.inr ⟨by simp [hle, hn], by simp⟩
    | some n =>
      have hge : n ≤ doubledTo (max 1 a.capacity) n := le_doubledTo (by omega)
      by_cases hb : m.limit.count ≤ doubledTo (max 1 a.capacity) n
      · refine Or.inr ⟨?_, by simpa using hb⟩
        by_cases hnb : m.limit.count ≤ n
        · simp [hle, hn, hnb]
        · simp [hle, hn, hnb, Memory.allocZeros, hb]
      · refine Or.inl ⟨n, rfl, by omega, ?_⟩
        have hnb : ¬ m.limit.count ≤ n := by omega
        simp [hle, hn, hnb, Memory.allocZeros, hb, relocate]

end Growable

end LeaseVec
