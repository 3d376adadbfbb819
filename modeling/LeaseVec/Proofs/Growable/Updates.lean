import LeaseVec.Proofs.Growable.Room

/-!
# What the operations of an array change

Whatever an operation does to an array, it writes no buffer but the one the array has had, it leaves the
array in that buffer or in one that did not exist before, and an array that fits goes on fitting.
-/

namespace LeaseVec.Growable

open Number Number.Binary64

variable {m m' : Memory} {a a' : Growable}

/-- A step from one array in memory to the array it becomes. -/
structure Updates (m : Memory) (a : Growable) (m' : Memory) (a' : Growable) : Prop where
  grows : m.Grows m'
  frame : m.Frame (· = a.buffer) m'
  kind_eq : a'.kind = a.kind
  buffer_cases : a'.buffer = a.buffer ∨ m.buffers.size ≤ a'.buffer
  buffer_lt : a.buffer < m.buffers.size → a'.buffer < m'.buffers.size
  fits : m.Addressable → a.Fits m → a'.Fits m'

theorem Updates.refl (m : Memory) (a : Growable) : Updates m a m a where
  grows := Memory.Grows.refl m
  frame := Memory.Frame.refl _ m
  kind_eq := rfl
  buffer_cases := Or.inl rfl
  buffer_lt := id
  fits := fun _ h => h

/-- Writing the array's own slots and giving it another length. -/
theorem Updates.write (h : Updates m a m' a') (position : Nat) (words : List Nat) {length : Nat}
    {signedZero : Bool}
    (hl : m.Addressable → a.Fits m →
      length ≤ a'.capacity ∧ (signedZero = true → length = 0)) :
    Updates m a (m'.writeWords a'.slots position words)
      { a' with length := length, signedZero := signedZero } where
  grows := h.grows.trans (Memory.grows_writeWords ..)
  frame := by
    intro b hb hne
    have hother : b ≠ a'.buffer := by
      rcases h.buffer_cases with he | hge
      · rwa [he]
      · omega
    rw [Memory.frame_writeWords m' a'.slots position words b (hb.trans_le h.grows.size_le) hother]
    exact h.frame b hb hne
  kind_eq := h.kind_eq
  buffer_cases := h.buffer_cases
  buffer_lt := by
    intro hb
    rw [Memory.size_writeWords]
    exact h.buffer_lt hb
  fits := by
    intro hm ha
    obtain ⟨hlen, hsign⟩ := hl hm ha
    refine ⟨(h.fits hm ha).end_le.trans_eq ?_, hlen, hsign⟩
    exact (Memory.length_buffer_write ..).symm

theorem updates_setLength {length : Nat} {signedZero : Bool}
    (hl : a.Fits m → length ≤ a.capacity ∧ (signedZero = true → length = 0)) :
    Updates m a m { a with length := length, signedZero := signedZero } where
  grows := Memory.Grows.refl m
  frame := Memory.Frame.refl _ m
  kind_eq := rfl
  buffer_cases := Or.inl rfl
  buffer_lt := id
  fits := fun _ ha => ⟨ha.end_le, (hl ha).1, (hl ha).2⟩

theorem updates_relocate {capacity : Nat} (h : a.capacity ≤ capacity) :
    Updates m a (a.relocate m capacity).2 (a.relocate m capacity).1 where
  grows := (Memory.grows_alloc ..).trans (Memory.grows_writeWords ..)
  frame := by
    intro b hb hne
    have hne' : b ≠ m.buffers.size := by omega
    exact (Memory.buffer_write_of_ne _ _ hne').trans (Memory.buffer_alloc_of_lt _ hb)
  kind_eq := rfl
  buffer_cases := Or.inr le_rfl
  buffer_lt := by
    intro _
    unfold relocate
    simp only [Memory.size_writeWords, Memory.size_alloc, Memory.fst_alloc]
    omega
  fits := by
    intro _ ha
    refine ⟨(Nat.zero_add _).trans_le (Eq.ge ?_), ha.length_le.trans h, ha.signed⟩
    calc ((a.relocate m capacity).2.buffer (a.relocate m capacity).1.buffer).length
        = ((m.alloc (List.replicate (capacity * a.kind.width) 0)).2.buffer m.buffers.size).length :=
          Memory.length_buffer_write ..
      _ = capacity * a.kind.width := by rw [Memory.buffer_alloc_self, List.length_replicate]

theorem updates_reserve {extra : Binary64} {moved : Bool}
    (h : a.reserve m extra = .ok (moved, a', m')) : Updates m a m' a' := by
  rcases reserve_cases m a extra with ⟨-, he⟩ | ⟨-, ⟨n, -, -, he⟩ | ⟨he, -⟩⟩
  · rw [h] at he
    cases he
    exact Updates.refl m a
  · rw [h] at he
    cases he
    exact updates_relocate ((Nat.le_max_right 1 _).trans (le_doubledTo_left _ n))
  · rw [h] at he
    cases he

theorem le_capacity_of_reserve {extra : Binary64} {moved : Bool} {n : Nat} (hm : m.Addressable)
    (ha : a.Fits m) (hn : Whole (a.size + extra) n)
    (h : a.reserve m extra = .ok (moved, a', m')) : n ≤ a'.capacity := by
  have hcap := whole_ofNat (ha.capacity_lt hm).le
  rcases reserve_cases m a extra with ⟨hle, he⟩ | ⟨-, ⟨k, hk, -, he⟩ | ⟨he, -⟩⟩
  · rw [h] at he
    cases he
    rw [hn.le hcap] at hle
    simpa using hle
  · rw [h] at he
    cases he
    rw [wholeNeed?_of_whole hn, Option.some.injEq] at hk
    rw [hk]
    exact le_doubledTo (by omega)
  · rw [h] at he
    cases he

theorem Fits.length_succ_le (ha : a.Fits m) (hm : m.Addressable) : a.length + 1 ≤ exactBound :=
  ha.length_le.trans_lt (ha.capacity_lt hm)

theorem whole_one : Whole 1 1 := whole_ofNat (by decide)

theorem Fits.whole_succ (ha : a.Fits m) (hm : m.Addressable) :
    Whole (a.size + 1) (a.length + 1) :=
  (ha.whole_size hm).add whole_one (ha.length_succ_le hm)

/-- The room that an extension to a length asks for: exactly that length, or more than there can be. -/
theorem extension_cases (hm : m.Addressable) (ha : a.Fits m) {x : Binary64} {n : Nat}
    (hx : Whole x n) (hlt : a.length < n) :
    n ≤ exactBound ∧ Whole (a.size + (x - a.size)) n ∨
      exactBound < n ∧ AtLeast (a.size + (x - a.size)) exactBound := by
  have hsize := ha.whole_size hm
  have hlen := ha.length_succ_le hm
  rcases Nat.lt_or_ge exactBound n with hbig | hsmall
  · refine Or.inr ⟨hbig, ?_⟩
    have hdiff : AtLeast (x - a.size) (exactBound - a.length) :=
      AtLeast.sub hx hsize (by omega) (by omega) (by omega)
    have hsum := hdiff.whole_add hsize (by omega) (by omega)
    rwa [Nat.add_sub_cancel' (by omega)] at hsum
  · refine Or.inl ⟨hsmall, ?_⟩
    have hdiff : Whole (x - a.size) (n - a.length) := hx.sub hsize hlt.le (by omega)
    have hsum := hsize.add hdiff (by omega)
    rwa [Nat.add_sub_cancel' hlt.le] at hsum

/-- A request that cannot be met exactly is refused. -/
theorem reserve_of_atLeast {extra : Binary64} (hm : m.Addressable) (ha : a.Fits m)
    (h : AtLeast (a.size + extra) exactBound) : a.reserve m extra = .error .allocationRefused := by
  have hcap := ha.capacity_lt hm
  have hle := h.not_le (whole_ofNat hcap.le) hcap hcap.le
  rcases reserve_cases m a extra with ⟨ht, -⟩ | ⟨-, ⟨k, hk, hb, -⟩ | ⟨he, -⟩⟩
  · rw [hle] at ht
    cases ht
  · have hge := wholeNeed?_atLeast h hk
    have hdouble : k ≤ doubledTo (max 1 a.capacity) k := le_doubledTo (by omega)
    exact absurd (hge.trans hdouble) (by
      rw [not_le]
      exact hb.trans m.limit_lt)
  · exact he

/-- Room never changes what is there. -/
theorem length_of_reserve {extra : Binary64} {moved : Bool}
    (h : a.reserve m extra = .ok (moved, a', m')) :
    a'.length = a.length ∧ a'.signedZero = a.signedZero := by
  rcases reserve_cases m a extra with ⟨-, he⟩ | ⟨-, ⟨n, -, -, he⟩ | ⟨he, -⟩⟩
  · rw [h] at he
    cases he
    exact ⟨rfl, rfl⟩
  · rw [h] at he
    cases he
    exact ⟨rfl, rfl⟩
  · rw [h] at he
    cases he

theorem push_ok {x : Scalar} (h : a.push m x = .ok (a', m')) :
    ∃ moved b mb, a.reserve m 1 = .ok (moved, b, mb) ∧
      a' = { b with length := b.length + 1, signedZero := false } ∧
      m' = mb.writeWords b.slots b.length [b.kind.store x] := by
  unfold push at h
  cases hr : a.reserve m 1 with
  | error e => simp [hr] at h
  | ok r =>
    obtain ⟨moved, b, mb⟩ := r
    simp only [hr, Except.ok.injEq, Prod.mk.injEq] at h
    exact ⟨moved, b, mb, rfl, h.1.symm, h.2.symm⟩

theorem updates_push {x : Scalar} (h : a.push m x = .ok (a', m')) : Updates m a m' a' := by
  obtain ⟨moved, b, mb, hr, rfl, rfl⟩ := push_ok h
  refine (updates_reserve hr).write _ _ fun hm ha => ⟨?_, by simp⟩
  rw [(length_of_reserve hr).1]
  exact le_capacity_of_reserve hm ha (ha.whole_succ hm) hr

/-- Doubling from what an array has stays below twice of what it needs. -/
theorem doubledTo_max_lt {capacity need : Nat} (h : capacity < need) :
    doubledTo (max 1 capacity) need < 2 * need := by
  rcases Nat.lt_or_ge (max 1 capacity) need with hlt | hge
  · exact doubledTo_lt hlt
  · rw [doubledTo, if_neg (by omega)]
    omega

theorem reserve_error {extra : Binary64} {e : Fault} (h : a.reserve m extra = .error e) :
    e = .allocationRefused := by
  rcases reserve_cases m a extra with ⟨-, he⟩ | ⟨-, ⟨n, -, -, he⟩ | ⟨he, -⟩⟩
  · rw [h] at he
    cases he
  · rw [h] at he
    cases he
  · rw [h] at he
    cases he
    rfl

/-- Room for an exact number of elements is refused only if the host does not allocate twice as many. -/
theorem lt_of_reserve_error {extra : Binary64} {e : Fault} {n : Nat} (hm : m.Addressable)
    (ha : a.Fits m) (hn : Whole (a.size + extra) n) (h : a.reserve m extra = .error e) :
    m.limit.count < 2 * n := by
  have hcap := whole_ofNat (ha.capacity_lt hm).le
  rcases reserve_cases m a extra with ⟨-, he⟩ | ⟨hle, ⟨k, -, -, he⟩ | ⟨-, hk⟩⟩
  · rw [h] at he
    cases he
  · rw [h] at he
    cases he
  · rw [hn.le hcap] at hle
    have hlt : a.capacity < n := by simpa using hle
    have hbound := hk n (wholeNeed?_of_whole hn)
    have hdouble := doubledTo_max_lt hlt
    omega

/-- An addition fails as making room for it does. -/
theorem reserve_of_push_error {x : Scalar} {e : Fault} (h : a.push m x = .error e) :
    a.reserve m 1 = .error e := by
  unfold push at h
  cases hr : a.reserve m 1 with
  | error e' => simpa [hr] using h
  | ok r => simp [hr] at h

theorem push_error {x : Scalar} {e : Fault} (hm : m.Addressable) (ha : a.Fits m)
    (h : a.push m x = .error e) : e = .allocationRefused ∧ m.limit.count < 2 * (a.length + 1) := by
  have hr := reserve_of_push_error h
  exact ⟨reserve_error hr, lt_of_reserve_error hm ha (ha.whole_succ hm) hr⟩

/-- An extension to a length fails as making room for it does. -/
theorem reserve_of_resize_error {x : Binary64} {n : Nat} {fill : Scalar} {e : Fault}
    (hn : x.toNat? = some n) (h : a.resize m x fill = .error e) :
    a.length < n ∧ a.reserve m (x - a.size) = .error e := by
  unfold resize lengthOf? at h
  simp only [hn] at h
  split_ifs at h with hlt
  refine ⟨hlt, ?_⟩
  cases hr : a.reserve m (x - a.size) with
  | error e' => simpa [hr] using h
  | ok r => simp [hr] at h

theorem resize_error {x : Binary64} {fill : Scalar} {e : Fault} (hm : m.Addressable)
    (ha : a.Fits m) (h : a.resize m x fill = .error e) :
    x.toNat? = none ∧ e = .invalidLength x ∨
      e = .allocationRefused ∧ ∃ n, x.toNat? = some n ∧ m.limit.count < 2 * n := by
  cases hn : x.toNat? with
  | none =>
    unfold resize lengthOf? at h
    simp only [hn, Except.error.injEq] at h
    exact Or.inl ⟨rfl, h.symm⟩
  | some n =>
    obtain ⟨hlt, hr⟩ := reserve_of_resize_error hn h
    refine Or.inr ⟨reserve_error hr, n, rfl, ?_⟩
    rcases extension_cases hm ha (whole_of_toNat? hn) hlt with ⟨-, hw⟩ | ⟨hbig, -⟩
    · exact lt_of_reserve_error hm ha hw hr
    · exact m.limit_lt_double hbig

theorem large_of_resize_error {x : Binary64} {fill : Scalar} {e : Fault} (hm : m.Addressable)
    (ha : a.Fits m) (h : a.resize m x fill = .error e) {n : Nat} (hn : x.toNat? = some n) : m.limit.count < 2 * n := by
  rcases resize_error hm ha h with ⟨hnone, -⟩ | ⟨-, k, hk, hlarge⟩
  · rw [hn] at hnone
    cases hnone
  · rw [hn] at hk
    cases hk
    exact hlarge

theorem large_of_reserve_error {extra : Binary64} {e : Fault} (hm : m.Addressable) (ha : a.Fits m)
    (h : a.reserve m extra = .error e) {n : Nat} (hn : extra.toNat? = some n) :
    m.limit.count < 2 * (a.length + n) := by
  have hx := whole_of_toNat? hn
  rcases Nat.lt_or_ge exactBound (a.length + n) with hbig | hsmall
  · exact m.limit_lt_double hbig
  · exact lt_of_reserve_error hm ha ((ha.whole_size hm).add hx hsmall) h

theorem updates_pop (m : Memory) (a : Growable) : Updates m a m (a.pop m).2 := by
  unfold pop
  split_ifs with h
  · exact Updates.refl m a
  · refine updates_setLength fun ha => ⟨?_, by simp⟩
    have hle := ha.length_le
    omega

theorem resize_ok {x : Binary64} {fill : Scalar} (h : a.resize m x fill = .ok (a', m')) :
    ∃ n, Whole x n ∧
      (n ≤ a.length ∧ m' = m ∧
          a' = { a with length := n, signedZero := x = Binary64.negativeZero } ∨
        a.length < n ∧ ∃ moved b mb, a.reserve m (x - a.size) = .ok (moved, b, mb) ∧
          a' = { b with length := n, signedZero := false } ∧
          m' = mb.writeWords b.slots b.length
            (List.replicate (n - b.length) (b.kind.store fill))) := by
  unfold resize lengthOf? at h
  cases hn : x.toNat? with
  | none => simp [hn] at h
  | some n =>
    simp only [hn] at h
    refine ⟨n, whole_of_toNat? hn, ?_⟩
    split_ifs at h with hlt
    · cases hr : a.reserve m (x - a.size) with
      | error e => simp [hr] at h
      | ok r =>
        obtain ⟨moved, b, mb⟩ := r
        simp only [hr, Except.ok.injEq, Prod.mk.injEq] at h
        exact Or.inr ⟨hlt, moved, b, mb, rfl, h.1.symm, h.2.symm⟩
    · simp only [Except.ok.injEq, Prod.mk.injEq] at h
      exact Or.inl ⟨by omega, h.2.symm, h.1.symm⟩

theorem updates_resize {x : Binary64} {fill : Scalar} (h : a.resize m x fill = .ok (a', m')) :
    Updates m a m' a' := by
  obtain ⟨n, hx, ⟨hle, rfl, rfl⟩ | ⟨hlt, moved, b, mb, hr, rfl, rfl⟩⟩ := resize_ok h
  · refine updates_setLength fun ha => ⟨hle.trans ha.length_le, fun hz => ?_⟩
    rw [of_decide_eq_true hz] at hx
    exact hx.unique whole_negativeZero
  · refine (updates_reserve hr).write _ _ fun hm ha => ⟨?_, by simp⟩
    rcases extension_cases hm ha hx hlt with ⟨-, hw⟩ | ⟨-, hw⟩
    · exact le_capacity_of_reserve hm ha hw hr
    · rw [reserve_of_atLeast hm ha hw] at hr
      cases hr

theorem updates_clear (m : Memory) (a : Growable) : Updates m a m a.clear :=
  updates_setLength fun _ => ⟨Nat.zero_le _, by simp⟩

theorem updates_release (m : Memory) (a : Growable) :
    Updates m a (a.release m).2 (a.release m).1 where
  grows := Memory.grows_alloc ..
  frame := Memory.frame_alloc _ _ _
  kind_eq := rfl
  buffer_cases := Or.inr le_rfl
  buffer_lt := by
    intro _
    exact m.lt_size_alloc []
  fits := by
    intro _ _
    refine ⟨?_, le_rfl, by simp [release]⟩
    change 0 + 0 * a.kind.width ≤ _
    rw [Nat.zero_mul]
    exact Nat.zero_le _

/-- An array in a buffer that did not exist before. -/
structure Fresh (m m' : Memory) (a : Growable) : Prop where
  grows : m.Grows m'
  frame : m.Frame (fun _ => False) m'
  size_le : m.buffers.size ≤ a.buffer
  buffer_lt : a.buffer < m'.buffers.size
  fits : a.Fits m'

theorem fresh_ofWords (m : Memory) (kind : Kind) (words : List Nat) :
    Fresh m (ofWords m kind words).2 (ofWords m kind words).1 where
  grows := Memory.grows_alloc ..
  frame := Memory.frame_alloc _ _ _
  size_le := le_rfl
  buffer_lt := m.lt_size_alloc _
  fits := by
    refine ⟨?_, le_rfl, by simp [ofWords]⟩
    change 0 + words.length * kind.width ≤
      ((m.alloc (Word.concat kind.width words)).2.buffer m.buffers.size).length
    rw [Memory.buffer_alloc_self, Word.length_concat, Nat.zero_add]

theorem fresh_zeros (m : Memory) (kind : Kind) (n : Nat) (signedZero : Bool)
    (hs : signedZero = true → n = 0) :
    Fresh m (m.alloc (List.replicate (n * kind.width) 0)).2
      ⟨kind, m.buffers.size, 0, n, n, signedZero⟩ where
  grows := Memory.grows_alloc ..
  frame := Memory.frame_alloc _ _ _
  size_le := le_rfl
  buffer_lt := m.lt_size_alloc _
  fits := by
    refine ⟨?_, le_rfl, hs⟩
    rw [Memory.buffer_alloc_self, List.length_replicate, Nat.zero_add]

theorem Fresh.write (h : Fresh m m' a) (position : Nat) (words : List Nat) :
    Fresh m (m'.writeWords a.slots position words) a where
  grows := h.grows.trans (Memory.grows_writeWords ..)
  frame := by
    intro b hb _
    have hne : b ≠ a.buffer := by
      have hge := h.size_le
      omega
    rw [Memory.frame_writeWords m' a.slots position words b (hb.trans_le h.grows.size_le) hne]
    exact h.frame b hb id
  size_le := h.size_le
  buffer_lt := by
    rw [Memory.size_writeWords]
    exact h.buffer_lt
  fits := h.fits.of_grows (Memory.grows_writeWords ..) h.buffer_lt

theorem fresh_create {kind : Kind} {x : Binary64} {fill : Option Scalar}
    (h : create m kind x fill = .ok (a, m')) : Fresh m m' a := by
  unfold create lengthOf? Memory.allocZeros at h
  cases hn : x.toNat? with
  | none => simp [hn] at h
  | some n =>
    have hx := whole_of_toNat? hn
    have hzeros := fresh_zeros m kind n (x = Binary64.negativeZero) fun hz => by
      rw [of_decide_eq_true hz] at hx
      exact hx.unique whole_negativeZero
    by_cases hb : m.limit.count ≤ n
    · simp [hn, hb] at h
    · simp only [hn, hb, if_false] at h
      cases fill with
      | none =>
        cases h
        exact hzeros
      | some y =>
        simp only at h
        split_ifs at h with hsort hy
        · cases h
          exact hzeros
        · cases h
          exact hzeros.write 0 _

end LeaseVec.Growable
