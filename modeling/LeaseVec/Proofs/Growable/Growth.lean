import Mathlib.Data.Nat.Log
import Mathlib.Order.Bounds.Basic
import LeaseVec.Proofs.Growable.Contents

/-!
# How capacity grows

Room is made by doubling a capacity until it suffices, so all that an array can come to have are its first
capacity and that capacity, or one, times the powers of two. An operation that needs room for a number of
elements leaves the buffer alone when it has that room. Otherwise it moves to a buffer of the least such
capacity, unless there is none that memory would give.
-/

namespace LeaseVec

open Number Number.Binary64

/-- Doubling goes on as long as there is not enough. -/
theorem exists_rounds {capacity : Nat} (h : 0 < capacity) (need : Nat) :
    ∃ k, doubledTo capacity need = capacity * 2 ^ k ∧ ∀ j < k, capacity * 2 ^ j < need := by
  fun_induction doubledTo capacity need with
  | case1 capacity hc ih =>
    obtain ⟨k, heq, hrounds⟩ := ih (by omega)
    refine ⟨k + 1, by rw [heq, Nat.pow_succ]; ring, fun j hj => ?_⟩
    cases j with
    | zero => simpa using hc.2
    | succ i =>
      have hi := hrounds i (by omega)
      rwa [Nat.pow_succ, Nat.mul_comm (2 ^ i) 2, ← Nat.mul_assoc, Nat.mul_comm capacity 2]
  | case2 capacity hc => exact ⟨0, by simp, by simp⟩

/-- There are no more rounds than the logarithm of what is needed. -/
theorem rounds_le_clog {capacity need k : Nat} (h : 0 < capacity)
    (hrounds : ∀ j < k, capacity * 2 ^ j < need) : k ≤ Nat.clog 2 need := by
  cases k with
  | zero => exact Nat.zero_le _
  | succ j =>
    have hlast : 2 ^ j < need :=
      (Nat.le_mul_of_pos_left _ h).trans_lt (hrounds j (Nat.lt_succ_self j))
    exact (Nat.lt_clog_iff_pow_lt (by decide)).2 hlast

/-- The capacities that an array can come to have when it begins with one of them. -/
def capacities (start : Nat) : Set Nat := {c | c = start ∨ ∃ k, c = max 1 start * 2 ^ k}

theorem le_of_mem_capacities {start c : Nat} (h : c ∈ capacities start) : start ≤ c := by
  rcases h with rfl | ⟨k, rfl⟩
  · exact le_rfl
  · exact (Nat.le_max_right 1 start).trans (Nat.le_mul_of_pos_right _ (Nat.two_pow_pos k))

theorem exists_pow_of_mem_capacities {start c : Nat} (h : c ∈ capacities start) :
    ∃ k, max 1 c = max 1 start * 2 ^ k := by
  rcases h with rfl | ⟨k, rfl⟩
  · exact ⟨0, by simp⟩
  · exact ⟨k, Nat.max_eq_right (Nat.mul_pos (by omega) (Nat.two_pow_pos k))⟩

/-- Doubling a capacity that does not suffice gives the least one that does. -/
theorem isLeast_doubledTo {start c need : Nat} (hc : c ∈ capacities start) (h : c < need) :
    IsLeast {v ∈ capacities start | need ≤ v} (doubledTo (max 1 c) need) := by
  obtain ⟨i, hi⟩ := exists_pow_of_mem_capacities hc
  obtain ⟨k, hk, hrounds⟩ := exists_rounds (show 0 < max 1 c by omega) need
  refine ⟨⟨Or.inr ⟨i + k, ?_⟩, le_doubledTo (by omega)⟩, ?_⟩
  · rw [hk, hi, Nat.mul_assoc, Nat.pow_add]
  · rintro v ⟨rfl | ⟨j, rfl⟩, hv⟩
    · have hle := le_of_mem_capacities hc
      omega
    · by_contra hlt
      rw [hk, hi, Nat.mul_assoc, ← Nat.pow_add] at hlt
      have hpow : 2 ^ j < 2 ^ (i + k) := Nat.lt_of_mul_lt_mul_left (not_le.1 hlt)
      have hj : j < i + k := (Nat.pow_lt_pow_iff_right (by decide)).1 hpow
      rcases Nat.lt_or_ge j i with hji | hij
      · -- what was there before is at most half of the capacity
        have hhalf : max 1 start * 2 ^ (j + 1) ≤ max 1 start * 2 ^ i :=
          Nat.mul_le_mul_left _ (Nat.pow_le_pow_right (by decide) hji)
        rw [Nat.pow_succ, ← Nat.mul_assoc, ← hi] at hhalf
        have hone : 0 < max 1 start * 2 ^ j := Nat.mul_pos (by omega) (Nat.two_pow_pos j)
        omega
      · have hround := hrounds (j - i) (by omega)
        rw [hi, Nat.mul_assoc, ← Nat.pow_add, Nat.add_sub_cancel' hij] at hround
        omega

/-- What memory gives can be counted. -/
theorem Memory.Addressable.alloc_zeros {m : Memory} (hm : m.Addressable) (kind : Kind) {n : Nat}
    (h : n < m.limit.count) : (m.alloc (List.replicate (n * kind.width) 0)).2.Addressable := by
  have hwidth := Nat.le_of_dvd (by decide) kind.width_dvd_eight
  refine hm.alloc ?_
  rw [List.length_replicate]
  have hsmall := h.trans_le m.limit.count_le
  have hbound : exactBound = 2 ^ 50 * 8 := by decide
  calc n * kind.width ≤ n * 8 := Nat.mul_le_mul_left n hwidth
    _ < exactBound := by omega

namespace Growable

variable {m m' : Memory} {a b : Growable} {need : Nat}

/-- Memory and an array after it has got room for a number of elements. -/
structure MakesRoom (m : Memory) (a : Growable) (need : Nat) (m' : Memory) (b : Growable) : Prop where
  addressable : m'.Addressable
  kept : need ≤ a.capacity → b.buffer = a.buffer ∧ b.capacity = a.capacity
  moved : a.capacity < need →
    b.buffer = m.buffers.size ∧ b.capacity = doubledTo (max 1 a.capacity) need

/-- The double that stands for a request: the number itself, or something past all that is exact. -/
def Asks (x : Binary64) (need : Nat) : Prop :=
  need ≤ exactBound ∧ Whole x need ∨ exactBound < need ∧ AtLeast x exactBound

theorem Fits.asks_add (ha : a.Fits m) (hm : m.Addressable) {extra : Binary64} {n : Nat}
    (hx : Whole extra n) : Asks (a.size + extra) (a.length + n) := by
  have hsize := ha.whole_size hm
  have hlen := ha.length_succ_le hm
  rcases Nat.lt_or_ge exactBound (a.length + n) with hbig | hsmall
  · refine Or.inr ⟨hbig, ?_⟩
    have hsum := AtLeast.whole_add hsize (hx.atLeast (m := exactBound - a.length) (by omega)) (by omega) (by omega)
    rwa [Nat.add_sub_cancel' (by omega)] at hsum
  · exact Or.inl ⟨hsmall, hsize.add hx hsmall⟩

theorem MakesRoom.refl (hm : m.Addressable) (h : need ≤ a.capacity) : MakesRoom m a need m a where
  addressable := hm
  kept := fun _ => ⟨rfl, rfl⟩
  moved := fun hlt => absurd h (not_le.2 hlt)

theorem MakesRoom.write (h : MakesRoom m a need m' b) (v : View) (position : Nat) (words : List Nat)
    (length : Nat) (signedZero : Bool) :
    MakesRoom m a need (m'.writeWords v position words)
      { b with length := length, signedZero := signedZero } where
  addressable := h.addressable.writeWords v position words
  kept := h.kept
  moved := h.moved

theorem makesRoom_relocate (hm : m.Addressable) (h : a.capacity < need)
    (hroom : doubledTo (max 1 a.capacity) need < m.limit.count) :
    MakesRoom m a need (a.relocate m (doubledTo (max 1 a.capacity) need)).2
      (a.relocate m (doubledTo (max 1 a.capacity) need)).1 where
  addressable := (hm.alloc_zeros a.kind hroom).writeWords _ _ _
  kept := fun hle => absurd h (not_lt.2 hle)
  moved := fun _ => ⟨rfl, rfl⟩

/-- Making room for an exact number of elements tells whether there was too little, or is refused. -/
theorem reserve_of_asks (hm : m.Addressable) (ha : a.Fits m) {extra : Binary64}
    (h : Asks (a.size + extra) need) :
    (∃ b m', a.reserve m extra = .ok (decide (a.capacity < need), b, m') ∧ MakesRoom m a need m' b) ∨
      a.reserve m extra = .error .allocationRefused ∧ m.limit.count < 2 * need := by
  rcases h with ⟨-, hn⟩ | ⟨hbig, hn⟩
  · have hcap := whole_ofNat (ha.capacity_lt hm).le
    have hle := hn.le hcap
    rcases reserve_cases m a extra with ⟨ht, he⟩ | ⟨hf, ⟨k, hk, hroom, he⟩ | ⟨he, -⟩⟩
    · rw [ht, true_eq_decide_iff] at hle
      rw [he, decide_eq_false (not_lt.2 hle)]
      exact Or.inl ⟨_, _, rfl, MakesRoom.refl hm hle⟩
    · rw [hf, false_eq_decide_iff, not_le] at hle
      rw [wholeNeed?_of_whole hn, Option.some.injEq] at hk
      subst hk
      rw [he, decide_eq_true hle]
      exact Or.inl ⟨_, _, rfl, makesRoom_relocate hm hle hroom⟩
    · exact Or.inr ⟨he, lt_of_reserve_error hm ha hn he⟩
  · exact Or.inr ⟨reserve_of_atLeast hm ha hn, m.limit_lt_double hbig⟩

/-- Room that has been made for an exact number of elements. -/
theorem makesRoom_reserve (hm : m.Addressable) (ha : a.Fits m) {extra : Binary64} {moved : Bool}
    (h : Asks (a.size + extra) need) (hr : a.reserve m extra = .ok (moved, b, m')) :
    moved = decide (a.capacity < need) ∧ MakesRoom m a need m' b := by
  rcases reserve_of_asks hm ha h with ⟨b', m'', he, hroom⟩ | ⟨he, -⟩
  · rw [he] at hr
    cases hr
    exact ⟨rfl, hroom⟩
  · rw [he] at hr
    cases hr

theorem makesRoom_push (hm : m.Addressable) (ha : a.Fits m) {x : Scalar}
    (h : a.push m x = .ok (b, m')) : MakesRoom m a (a.length + 1) m' b := by
  obtain ⟨moved, c, mc, hr, rfl, rfl⟩ := push_ok h
  exact (makesRoom_reserve hm ha (ha.asks_add hm whole_one) hr).2.write _ _ _ _ _

theorem makesRoom_resize (hm : m.Addressable) (ha : a.Fits m) {x : Binary64} {fill : Scalar} {n : Nat}
    (hx : Whole x n) (h : a.resize m x fill = .ok (b, m')) : MakesRoom m a n m' b := by
  obtain ⟨k, hk, hcases⟩ := resize_ok h
  obtain rfl := hk.unique hx
  rcases hcases with ⟨hle, rfl, rfl⟩ | ⟨hlt, moved, c, mc, hr, rfl, rfl⟩
  · have hroom : MakesRoom m' a k m' a := MakesRoom.refl hm (hle.trans ha.length_le)
    exact ⟨hroom.addressable, hroom.kept, hroom.moved⟩
  · exact (makesRoom_reserve hm ha (extension_cases hm ha hx hlt) hr).2.write _ _ _ _ _

theorem makesRoom_pop (hm : m.Addressable) : MakesRoom m a 0 m (a.pop m).2 where
  addressable := hm
  kept := by
    intro _
    unfold pop
    split_ifs <;> exact ⟨rfl, rfl⟩
  moved := fun h => absurd h (Nat.not_lt_zero _)

theorem makesRoom_clear (hm : m.Addressable) : MakesRoom m a 0 m a.clear where
  addressable := hm
  kept := fun _ => ⟨rfl, rfl⟩
  moved := fun h => absurd h (Nat.not_lt_zero _)

theorem addressable_create (hm : m.Addressable) {kind : Kind} {x : Binary64} {fill : Option Scalar}
    (h : create m kind x fill = .ok (a, m')) : m'.Addressable := by
  unfold create lengthOf? Memory.allocZeros at h
  cases hn : x.toNat? with
  | none => simp [hn] at h
  | some n =>
    by_cases hb : m.limit.count ≤ n
    · simp [hn, hb] at h
    · have hzeros := hm.alloc_zeros kind (not_le.1 hb)
      simp only [hn, hb, if_false] at h
      cases fill with
      | none =>
        cases h
        exact hzeros
      | some y =>
        simp only at h
        split_ifs at h
        · cases h
          exact hzeros
        · cases h
          exact hzeros.writeWords _ _ _

end Growable

end LeaseVec
