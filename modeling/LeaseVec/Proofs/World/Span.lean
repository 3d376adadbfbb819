import LeaseVec.World.Field
import LeaseVec.Proofs.Number.Whole
import LeaseVec.Proofs.Scan

/-!
# The bytes of a field

The length of a field's elements is a product of doubles. It is exact as long as the product of the
natural numbers is, and past that it is more than any input has. What is written has no such length: only the stride
and the number of elements decide whether a vector is written.
-/

namespace LeaseVec

open Number Number.Binary64

/-- The product of doubles is the product of the numbers, or both are past what is exact. -/
theorem spanLength_cases (kind : Kind) {stride : Binary64} {s count : Nat} (hs : Whole stride s)
    (hc : count ≤ exactBound) :
    count * s * kind.width ≤ exactBound ∧
        Whole (spanLength kind stride count) (count * s * kind.width) ∨
      exactBound < count * s * kind.width ∧
        AtLeast (spanLength kind stride count) exactBound := by
  have hcount := whole_ofNat hc
  have hwidth : Whole (ofNat kind.width) kind.width := by
    apply whole_ofNat
    cases kind <;> decide
  have hpos := kind.width_pos
  have hle : count * s ≤ count * s * kind.width := Nat.le_mul_of_pos_right _ hpos
  have hexact : 0 < exactBound := by decide
  rcases Nat.lt_or_ge exactBound (count * s * kind.width) with hbig | hsmall
  · refine Or.inr ⟨hbig, ?_⟩
    rcases Nat.lt_or_ge exactBound (count * s) with hb | hb
    · have hfirst : AtLeast (ofNat count * stride) exactBound :=
        AtLeast.mul (hcount.atLeast le_rfl) hs hexact hb.le le_rfl
      exact hfirst.mul hwidth hexact (Nat.le_mul_of_pos_right _ hpos) le_rfl
    · have hfirst : Whole (ofNat count * stride) (count * s) := hcount.mul hs hb
      exact (hfirst.atLeast le_rfl).mul hwidth hexact hbig.le le_rfl
  · exact Or.inl ⟨hsmall, (hcount.mul hs (hle.trans hsmall)).mul hwidth hsmall⟩

/-- The product of doubles may be rounded, but then it is a whole number again, or it is infinite. -/
theorem whole_or_infinite_spanLength (kind : Kind) {stride : Binary64} {s count : Nat}
    (hs : Whole stride s) (hc : count ≤ exactBound) :
    (∃ k, Whole (spanLength kind stride count) k) ∨ spanLength kind stride count = infinite false := by
  have hwidth : Whole (ofNat kind.width) kind.width := by
    apply whole_ofNat
    cases kind <;> decide
  rcases (whole_ofNat hc).mul_or_infinite hs with ⟨k, hfirst⟩ | hfirst
  · exact hfirst.mul_or_infinite hwidth
  · right
    unfold spanLength
    rw [hfirst]
    exact infinite_mul hwidth kind.width_pos

/-- However large a count and a stride are that a field can have, the length is a whole number. -/
theorem exists_whole_spanLength (kind : Kind) {stride : Binary64} {s count : Nat} (hs : Whole stride s)
    (hlt : s < 2 ^ 32) (hc : count ≤ 2 ^ 40) : ∃ n, Whole (spanLength kind stride count) n := by
  have hbig : 2 ^ 40 ≤ exactBound := by decide
  have hwidth : kind.width ≤ 2 ^ 3 := by cases kind <;> decide
  obtain ⟨k, hk, hfirst⟩ := Whole.exists_mul (b := 72) (by decide) (whole_ofNat (hc.trans hbig)) hs
    ((Nat.mul_le_mul hc hlt.le).trans (by decide))
  obtain ⟨n, -, hsecond⟩ := Whole.exists_mul (b := 75) (by decide) hfirst
    (whole_ofNat (hwidth.trans (by decide))) ((Nat.mul_le_mul hk hwidth).trans (by decide))
  exact ⟨n, hsecond⟩

/-- A length of elements is more than there is when some of them are missing, be it exact or not. -/
theorem lt_of_whole_spanLength {kind : Kind} {stride : Binary64} {s count k n : Nat} (hs : Whole stride s)
    (hcount : count < 2 ^ 40) (hspan : Whole (spanLength kind stride count) k)
    (hmissing : n < count * s * kind.width) (hn : n < exactBound) : n < k := by
  have hbig : 2 ^ 40 < exactBound := by decide
  rcases spanLength_cases kind hs (hcount.trans hbig).le with ⟨-, hexact⟩ | ⟨-, hatLeast⟩
  · rwa [hspan.unique hexact]
  · exact hn.trans_le (hatLeast.le_of_whole hspan)

/-- Only an exact length can lie inside input that is short enough. -/
theorem spanLength_eq {kind : Kind} {stride : Binary64} {s count n : Nat} (hs : Whole stride s)
    (hc : count ≤ exactBound) (hn : n < exactBound)
    (h : (spanLength kind stride count).toNat? = some n) : n = count * s * kind.width := by
  have hw := whole_of_toNat? h
  rcases spanLength_cases kind hs hc with ⟨-, he⟩ | ⟨-, he⟩
  · exact hw.unique he
  · exact absurd (he.le_of_whole hw) (by omega)

theorem acceptStride_ok {stride : Binary64} {s : Nat} :
    acceptStride stride = .ok s ↔ Whole stride s ∧ 1 ≤ s := by
  unfold acceptStride
  cases h : stride.toNat? with
  | none =>
    constructor
    · intro he
      cases he
    · rintro ⟨hw, -⟩
      rw [hw.toNat?] at h
      cases h
  | some t =>
    simp only
    constructor
    · intro he
      split_ifs at he with ht
      cases he
      exact ⟨whole_of_toNat? h, ht⟩
    · rintro ⟨hw, ht⟩
      rw [hw.toNat?] at h
      cases h
      rw [if_pos ht]

/-- Only what is no positive whole number is refused as a stride. -/
theorem acceptStride_error {stride : Binary64} {e : Fault} (h : acceptStride stride = .error e) :
    e = .invalidStride stride ∧ ∀ s, Whole stride s → s = 0 := by
  constructor
  · unfold acceptStride at h
    split at h
    · split_ifs at h
      cases h
      rfl
    · cases h
      rfl
  · intro s hs
    by_contra hne
    rw [acceptStride_ok.2 ⟨hs, Nat.one_le_iff_ne_zero.2 hne⟩] at h
    cases h

theorem acceptCount_ok {count limit : Int} {n : Nat} :
    acceptCount count limit = .ok n ↔ 0 ≤ count ∧ count < limit ∧ n = count.toNat := by
  unfold acceptCount
  split_ifs with h
  · constructor
    · intro he
      cases he
    · rintro ⟨h₁, h₂, -⟩
      omega
  · constructor
    · intro he
      cases he
      omega
    · rintro ⟨-, -, rfl⟩
      rfl

/-- A bound lowers the ceiling. -/
theorem corruptFrom_le {bound : Option Scalar} {limit : Int} (h : corruptFrom bound = .ok limit) :
    limit ≤ countCeiling := by
  unfold corruptFrom at h
  cases bound with
  | none =>
    cases h
    exact le_rfl
  | some b =>
    simp only at h
    cases hw : b.whole with
    | error e => simp [hw] at h
    | ok i =>
      simp only [hw, Except.ok.injEq] at h
      omega

/-- An integer stands for itself or for the ceiling, whichever is lower. -/
theorem corruptFrom_some {bound : Scalar} {i : Int} (h : bound.whole = .ok i) :
    corruptFrom (some bound) = .ok (min i (2 ^ 40)) := by
  unfold corruptFrom
  simp only [h]
  rfl

namespace Scan

/-- The count in front of the elements, below the ceiling or the bound. -/
theorem reads_count (bound : Option Scalar) :
    Reads (count bound) fun _ n p =>
      (∃ limit : Int, corruptFrom bound = .ok limit ∧ (n : Int) < limit) ∧
        p = Word.encode 8 n := by
  refine (reads_u64.bind fun c => reads_ofExcept _).congr fun m n p => ?_
  constructor
  · rintro ⟨c, x, y, rfl, ⟨hc, rfl⟩, hok, rfl⟩
    cases hl : corruptFrom bound with
    | error e =>
      rw [hl] at hok
      cases hok
    | ok limit =>
      rw [hl] at hok
      obtain ⟨-, hlt, rfl⟩ := acceptCount_ok.1 hok
      exact ⟨⟨limit, rfl, by simpa using hlt⟩, by simp⟩
  · rintro ⟨⟨limit, hl, hlt⟩, rfl⟩
    have hceiling := corruptFrom_le hl
    have hbound : (countCeiling : Int) = 2 ^ 40 := by decide
    have hn : n < 256 ^ 8 := by
      have : (256 : Nat) ^ 8 = 2 ^ 64 := by decide
      omega
    refine ⟨n, Word.encode 8 n, [], by rw [List.append_nil], ⟨hn, rfl⟩, ?_, rfl⟩
    rw [hl]
    exact acceptCount_ok.2 ⟨by omega, hlt, by simp⟩

theorem field_eq (kind : Kind) (stride : Binary64) (bound : Option Scalar) (bytes : Bytes) (m : Nat) :
    Scan.field kind stride bound bytes m = (count bound >>= fun c =>
      skipLength (spanLength kind stride c) >>= fun start =>
        (pure (start, (spanLength kind stride c).toNat?.getD 0) : Scan (Nat × Nat))) bytes m := rfl

/-- What is found of a field: its elements lie behind their count, and are as many bytes as the
exact product, if the input is not longer than doubles can count. -/
theorem field_ok {kind : Kind} {stride : Binary64} {s : Nat} {bound : Option Scalar}
    {before after : Bytes} {start span offset : Nat} (hs : Whole stride s)
    (hlen : (before ++ after).length < exactBound) :
    Scan.field kind stride bound (before ++ after) before.length = .ok (start, span) offset ↔
      ∃ n payload rest, after = Word.encode 8 n ++ (payload ++ rest) ∧
        (∃ limit : Int, corruptFrom bound = .ok limit ∧ (n : Int) < limit) ∧
        payload.length = n * s * kind.width ∧ span = payload.length ∧
        start = before.length + 8 ∧ offset = start + span := by
  have hexact : ∀ (limit : Int) (n : Nat), corruptFrom bound = .ok limit → (n : Int) < limit →
      n ≤ exactBound := by
    intro limit n hl hn
    have hle := corruptFrom_le hl
    have hbound : (countCeiling : Int) < exactBound := by decide
    omega
  rw [field_eq, bind_ok_iff]
  constructor
  · rintro ⟨n, k, hcount, h⟩
    obtain ⟨p, tail, rfl, ⟨⟨limit, hl, hn⟩, rfl⟩, rfl⟩ := (reads_count bound before after n k).1 hcount
    rw [bind_ok_iff] at h
    obtain ⟨start', k', hskip, h⟩ := h
    cases ht : (spanLength kind stride n).toNat? with
    | none =>
      rw [skipLength_of_none ht] at hskip
      cases hskip
    | some t =>
      rw [skipLength_of_toNat? ht] at hskip
      rw [ht] at h
      split_ifs at hskip with hlt
      cases hskip
      cases h
      simp only [List.length_append, Word.length_encode] at hlt hlen
      have hle : t ≤ tail.length := by omega
      refine ⟨n, tail.take t, tail.drop t, by rw [List.take_append_drop], ⟨limit, hl, hn⟩, ?_, ?_,
        by rw [Word.length_encode], by rw [Word.length_encode]; rfl⟩
      · rw [List.length_take, Nat.min_eq_left hle]
        exact spanLength_eq hs (hexact limit n hl hn) (by omega) ht
      · rw [List.length_take, Nat.min_eq_left hle]
        rfl
  · rintro ⟨n, payload, rest, rfl, ⟨limit, hl, hn⟩, hpay, rfl, rfl, rfl⟩
    simp only [List.length_append, Word.length_encode] at hlen
    have hspan : (spanLength kind stride n).toNat? = some payload.length := by
      rcases spanLength_cases kind hs (hexact limit n hl hn) with ⟨-, hw⟩ | ⟨hbig, -⟩
      · rw [hw.toNat?, hpay]
      · omega
    refine ⟨n, before.length + 8, ?_, ?_⟩
    · exact (reads_count bound before _ n _).2
        ⟨Word.encode 8 n, payload ++ rest, rfl, ⟨⟨limit, hl, hn⟩, rfl⟩, by rw [Word.length_encode]⟩
    · have hskip : skipLength (spanLength kind stride n)
          (before ++ (Word.encode 8 n ++ (payload ++ rest))) (before.length + 8) =
          .ok (before.length + 8) (before.length + 8 + payload.length) := by
        rw [skipLength_of_toNat? hspan, if_neg]
        simp only [List.length_append, Word.length_encode]
        omega
      rw [bind_ok hskip, hspan]
      rfl

/-- A field is found only where there is room for its count. -/
theorem field_le {kind : Kind} {stride : Binary64} {bound : Option Scalar} {bytes : Bytes} {m k : Nat}
    {x : Nat × Nat} (h : Scan.field kind stride bound bytes m = .ok x k) :
    m + 8 ≤ bytes.length := by
  rw [field_eq] at h
  obtain ⟨n, k₁, hcount, -⟩ := bind_ok_iff.1 h
  obtain ⟨c, k₂, hword, -⟩ := bind_ok_iff.1 hcount
  exact le_of_word (by decide) hword

/-- The elements of a field that has been found start behind its count, lie in the input, and are whole. -/
theorem field_within {kind : Kind} {stride : Binary64} {s : Nat} {bound : Option Scalar}
    {bytes : Bytes} {offset start span offset' : Nat} (hs : Whole stride s)
    (hlen : bytes.length < exactBound)
    (h : Scan.field kind stride bound bytes offset = .ok (start, span) offset') :
    start = offset + 8 ∧ start + span ≤ bytes.length ∧ span % kind.width = 0 := by
  have hle := field_le h
  have hsplit := List.take_append_drop offset bytes
  have hbefore : (bytes.take offset).length = offset := by
    rw [List.length_take]
    omega
  have h' : Scan.field kind stride bound (bytes.take offset ++ bytes.drop offset)
      (bytes.take offset).length = .ok (start, span) offset' := by rwa [hsplit, hbefore]
  obtain ⟨n, payload, rest, hrest, -, hpay, rfl, rfl, -⟩ :=
    (field_ok hs (by rwa [hsplit])).1 h'
  have htotal := congrArg List.length hrest
  simp only [List.length_append, List.length_drop, Word.length_encode] at htotal
  refine ⟨?_, ?_, ?_⟩
  · rw [hbefore]
  · rw [hbefore]
    omega
  · rw [hpay, Nat.mul_mod_left]

end Scan

namespace World

variable {w : World}

theorem writeField_of_badStride {v : Vec} {stride : Binary64} {e : Fault} {writer : Writer}
    (hs : acceptStride stride = .error e) : w.writeField v stride writer = .error e := by
  unfold writeField
  rw [hs]
  rfl

theorem writeField_of_uneven {v : Vec} {stride : Binary64} {s : Nat} {writer : Writer}
    (hs : acceptStride stride = .ok s) (h : ¬ s ∣ v.size) :
    w.writeField v stride writer = .error (.unevenStride v.size stride) := by
  unfold writeField
  rw [hs]
  exact if_pos fun hmod => h (Nat.dvd_of_mod_eq_zero hmod)

/-- Under a stride that divides the number of elements it is left to the view of the vector. -/
theorem writeField_of_even {v : Vec} {stride : Binary64} {s : Nat} {writer : Writer}
    (hs : acceptStride stride = .ok s) (hdvd : s ∣ v.size) :
    w.writeField v stride writer = (w.viewOf v).map fun view =>
      (writer.push64 (v.size / s : Nat)).pushPart (.shared view.range) := by
  unfold writeField
  rw [hs]
  exact if_neg fun hne => hne (Nat.mod_eq_zero_of_dvd hdvd)

end World

end LeaseVec
