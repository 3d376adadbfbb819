import LeaseVec.Proofs.Text.Utf8
import Mathlib.Data.List.Basic
import Mathlib.Tactic.Ring

/-!
# Bytes that come back from their text

Decoding yields characters whatever the bytes are, so encoding what was decoded writes well-formed bytes.
Bytes come back from their text when they are well formed and have no mark in front, and only then. What is
replaced can make a text longer than its bytes, but not if it starts with these bytes.
-/

namespace LeaseVec.Text.Utf8

variable {bytes : List UInt8} {ns : List Nat}

theorem scalars_cons_single {u : UInt16} (hlead : isLead u = false) (htrail : isTrail u = false)
    (t : Text) : scalars (u :: t) = u.toNat :: scalars t := by
  cases t with
  | nil =>
    change scalars [u] = [u.toNat]
    rw [scalars, hlead, htrail]
    rfl
  | cons v t =>
    rw [scalars, hlead, htrail]
    rfl

theorem scalars_cons_pair {u v : UInt16} (hu : isLead u = true) (hv : isTrail v = true) (t : Text) :
    scalars (u :: v :: t) = pairScalar u v :: scalars t := by
  rw [scalars, hu, hv]
  rfl

/-- The units of a character are counted as that character. -/
theorem scalars_ofScalar {n : Nat} (h : IsScalar n) (t : Text) :
    scalars (ofScalar n ++ t) = n :: scalars t := by
  unfold IsScalar at h
  unfold ofScalar
  split_ifs with hsmall
  · have hn : (UInt16.ofNat n).toNat = n := by
      rw [UInt16.toNat_ofNat']
      exact Nat.mod_eq_of_lt hsmall
    have hlead : isLead (UInt16.ofNat n) = false := by
      rw [Bool.eq_false_iff, ne_eq, isLead_iff, hn]
      omega
    have htrail : isTrail (UInt16.ofNat n) = false := by
      rw [Bool.eq_false_iff, ne_eq, isTrail_iff, hn]
      omega
    rw [List.singleton_append, scalars_cons_single hlead htrail, hn]
  · have hu : (UInt16.ofNat (0xd800 + (n - 0x10000) / 0x400)).toNat =
        0xd800 + (n - 0x10000) / 0x400 := by
      rw [UInt16.toNat_ofNat']
      exact Nat.mod_eq_of_lt (by omega)
    have hv : (UInt16.ofNat (0xdc00 + (n - 0x10000) % 0x400)).toNat =
        0xdc00 + (n - 0x10000) % 0x400 := by
      rw [UInt16.toNat_ofNat']
      exact Nat.mod_eq_of_lt (by omega)
    have hpair : pairScalar (UInt16.ofNat (0xd800 + (n - 0x10000) / 0x400))
        (UInt16.ofNat (0xdc00 + (n - 0x10000) % 0x400)) = n := by
      unfold pairScalar
      rw [hu, hv]
      omega
    rw [List.cons_append, List.singleton_append, scalars_cons_pair, hpair]
    · rw [isLead_iff, hu]
      omega
    · rw [isTrail_iff, hv]
      omega

theorem scalars_flatMap (h : ∀ n ∈ ns, IsScalar n) : scalars (ns.flatMap ofScalar) = ns := by
  induction ns with
  | nil => rfl
  | cons n ns ih =>
    rw [List.flatMap_cons, scalars_ofScalar (h n List.mem_cons_self),
      ih fun m hm => h m (List.mem_cons_of_mem _ hm)]

/-- An unfinished character ends as a character, whichever bytes continue it. -/
structure Pending.Sound (p : Pending) : Prop where
  more_pos : 1 ≤ p.more
  low_ge : 0x80 ≤ p.low.toNat
  high_le : p.high.toNat ≤ 0xbf
  scalar : ∀ k, (p.low.toNat - 0x80) * 0x40 ^ (p.more - 1) ≤ k →
    k < (p.high.toNat - 0x80 + 1) * 0x40 ^ (p.more - 1) → IsScalar (p.bits * 0x40 ^ p.more + k)

theorem sound_opening {b : UInt8} {p : Pending} (h : opening b = .unfinished p) : p.Sound := by
  have h80 : UInt8.toNat 0x80 = 0x80 := by decide
  have h8f : UInt8.toNat 0x8f = 0x8f := by decide
  have h90 : UInt8.toNat 0x90 = 0x90 := by decide
  have h9f : UInt8.toNat 0x9f = 0x9f := by decide
  have ha0 : UInt8.toNat 0xa0 = 0xa0 := by decide
  have hbf : UInt8.toNat 0xbf = 0xbf := by decide
  have hopening := opening_ofNat b.toNat_lt
  rw [UInt8.ofNat_toNat, h] at hopening
  generalize b.toNat = k at hopening
  split_ifs at hopening <;> cases hopening
  all_goals
    refine ⟨Nat.succ_pos _, by dsimp only; omega, by dsimp only; omega, fun j hlow hhigh => ?_⟩
    unfold IsScalar
    dsimp only at hlow hhigh ⊢
    omega

/-- One more byte leaves less of an unfinished character. -/
theorem Pending.Sound.next {p : Pending} {b : UInt8} (h : p.Sound) (hb : p.low ≤ b ∧ b ≤ p.high)
    (hmore : ¬ p.more ≤ 1) :
    (Pending.mk (p.more - 1) 0x80 0xbf (p.bits * 0x40 + (b.toNat - 0x80))).Sound := by
  obtain ⟨hlow, hhigh⟩ := hb
  rw [UInt8.le_iff_toNat_le] at hlow hhigh
  obtain ⟨m, hm⟩ : ∃ m, p.more = m + 2 := ⟨p.more - 2, by omega⟩
  refine ⟨by dsimp only; omega, Nat.le_refl 0x80, Nat.le_refl 0xbf, fun k _ hk => ?_⟩
  have hscalar := h.scalar ((b.toNat - 0x80) * 0x40 ^ (m + 1) + k)
  rw [hm] at hscalar ⊢
  have hspan : ((0xbf : UInt8).toNat - 0x80 + 1) * 0x40 ^ (m + 2 - 1 - 1) = 0x40 ^ (m + 1) := by
    rw [Nat.pow_succ, Nat.mul_comm]
    rfl
  dsimp only at hk ⊢
  rw [hm, hspan] at hk
  have hbits : (p.bits * 0x40 + (b.toNat - 0x80)) * 0x40 ^ (m + 2 - 1) + k =
      p.bits * 0x40 ^ (m + 2) + ((b.toNat - 0x80) * 0x40 ^ (m + 1) + k) := by
    rw [Nat.add_mul, Nat.mul_assoc, ← Nat.pow_succ', Nat.add_assoc]
    rfl
  rw [hbits]
  refine hscalar ?_ ?_
  · exact Nat.le_trans (Nat.mul_le_mul_right _ (Nat.sub_le_sub_right hlow _)) (Nat.le_add_right ..)
  · calc (b.toNat - 0x80) * 0x40 ^ (m + 1) + k
        < (b.toNat - 0x80) * 0x40 ^ (m + 1) + 0x40 ^ (m + 1) := Nat.add_lt_add_left hk _
      _ = (b.toNat - 0x80 + 1) * 0x40 ^ (m + 1) := (Nat.succ_mul ..).symm
      _ ≤ (p.high.toNat - 0x80 + 1) * 0x40 ^ (m + 1) :=
        Nat.mul_le_mul_right _ (Nat.succ_le_succ (Nat.sub_le_sub_right hhigh _))

/-- The last byte ends an unfinished character. -/
theorem Pending.Sound.last {p : Pending} {b : UInt8} (h : p.Sound) (hb : p.low ≤ b ∧ b ≤ p.high)
    (hmore : p.more ≤ 1) : IsScalar (p.bits * 0x40 + (b.toNat - 0x80)) := by
  obtain ⟨hlow, hhigh⟩ := hb
  rw [UInt8.le_iff_toNat_le] at hlow hhigh
  have hm : p.more = 1 := Nat.le_antisymm hmore h.more_pos
  have hscalar := h.scalar (b.toNat - 0x80)
  rw [hm, Nat.pow_one, Nat.sub_self, Nat.pow_zero, Nat.mul_one, Nat.mul_one] at hscalar
  exact hscalar (by omega) (by omega)

theorem sound_none : ∀ p ∈ (none : Option Pending), p.Sound := fun _ h => nomatch h

theorem isScalar_replacement : IsScalar replacement := Or.inr (by decide)

theorem isScalar_of_opening {b : UInt8} {n : Nat} (h : opening b = .whole n) : IsScalar n := by
  unfold opening at h
  split_ifs at h
  cases h
  exact Or.inl (Nat.lt_trans b.toNat_lt (by decide))

/-- Decoding yields characters. -/
theorem isScalar_of_mem_scan {pending : Option Pending} (hp : ∀ p ∈ pending, p.Sound)
    (bytes : List UInt8) : ∀ n ∈ scan pending bytes, IsScalar n := by
  fun_induction scan pending bytes with
  | case1 => exact fun n hn => absurd hn List.not_mem_nil
  | case2 p => exact List.forall_mem_singleton.2 isScalar_replacement
  | case3 b rest n ho ih => exact List.forall_mem_cons.2 ⟨isScalar_of_opening ho, ih hp⟩
  | case4 b rest p ho ih => exact ih fun q hq => Option.mem_some.1 hq ▸ sound_opening ho
  | case5 b rest ho ih => exact List.forall_mem_cons.2 ⟨isScalar_replacement, ih hp⟩
  | case6 p b rest hb bits hmore ih =>
    exact List.forall_mem_cons.2 ⟨(hp p rfl).last hb hmore, ih sound_none⟩
  | case7 p b rest hb bits hmore ih =>
    exact ih fun q hq => Option.mem_some.1 hq ▸ (hp p rfl).next hb hmore
  | case8 p b rest hb n ho ih =>
    exact List.forall_mem_cons.2 ⟨isScalar_replacement, List.forall_mem_cons.2
      ⟨isScalar_of_opening ho, ih sound_none⟩⟩
  | case9 p b rest hb q ho ih =>
    exact List.forall_mem_cons.2 ⟨isScalar_replacement,
      ih fun _ h => Option.mem_some.1 h ▸ sound_opening ho⟩
  | case10 p b rest hb ho ih =>
    exact List.forall_mem_cons.2 ⟨isScalar_replacement, List.forall_mem_cons.2
      ⟨isScalar_replacement, ih sound_none⟩⟩

theorem isScalar_of_mem_scan_none (bytes : List UInt8) : ∀ n ∈ scan none bytes, IsScalar n :=
  isScalar_of_mem_scan sound_none bytes

/-- Encoding what was decoded writes the characters that were found. -/
theorem encode_decode (bytes : List UInt8) :
    encode (decode bytes) = (scan none (dropMark bytes)).flatMap encodeScalar := by
  unfold encode decode
  rw [scalars_flatMap (isScalar_of_mem_scan_none _)]

theorem encodeScalar_toNat (c : Char) : encodeScalar c.toNat = String.utf8EncodeChar c := by
  have hc := c.valid
  unfold UInt32.isValidChar Nat.isValidChar at hc
  change encodeScalar c.val.toNat = _
  unfold encodeScalar String.utf8EncodeChar
  generalize c.val.toNat = n at hc
  dsimp only
  split_ifs <;> try omega
  · rfl
  · rw [show n / 64 % 32 + 192 = 0xc0 + n / 0x40 by omega, Nat.add_comm (n % 64)]
  · rw [show n / 4096 % 16 + 224 = 0xe0 + n / 0x1000 by omega, Nat.add_comm (n / 64 % 64),
      Nat.add_comm (n % 64)]
  · rw [show n / 262144 % 8 + 240 = 0xf0 + n / 0x40000 by omega, Nat.add_comm (n / 4096 % 64),
      Nat.add_comm (n / 64 % 64), Nat.add_comm (n % 64)]

/-- Bytes are well formed when they are the bytes of characters. -/
theorem isValidUTF8_iff : bytes.toByteArray.IsValidUTF8 ↔
    ∃ ns : List Nat, (∀ n ∈ ns, IsScalar n) ∧ bytes = ns.flatMap encodeScalar := by
  constructor
  · rintro ⟨cs, hcs⟩
    refine ⟨cs.map Char.toNat, ?_, ?_⟩
    · rintro n hn
      obtain ⟨c, -, rfl⟩ := List.mem_map.1 hn
      have hc := c.valid
      unfold UInt32.isValidChar Nat.isValidChar at hc
      change IsScalar c.val.toNat
      unfold IsScalar
      omega
    · rw [List.toByteArray_inj.1 hcs, List.flatMap_map]
      exact List.flatMap_congr fun c _ => (encodeScalar_toNat c).symm
  · rintro ⟨ns, hns, rfl⟩
    refine ⟨ns.map Char.ofNat, ?_⟩
    unfold List.utf8Encode
    rw [List.toByteArray_inj, List.flatMap_map]
    refine List.flatMap_congr fun n hn => ?_
    have hvalid : n.isValidChar := by
      have hn := hns n hn
      unfold IsScalar at hn
      unfold Nat.isValidChar
      omega
    have hof : (Char.ofNat n).toNat = n := by
      unfold Char.ofNat
      rw [dif_pos hvalid]
      rfl
    rw [← encodeScalar_toNat, hof]

theorem dropMark_mark (bytes : List UInt8) : dropMark (mark ++ bytes) = bytes := by
  unfold dropMark
  rw [if_pos (List.isPrefixOf_iff_prefix.2 (List.prefix_append ..))]
  rfl

theorem dropMark_of_unmarked (h : ¬ mark <+: bytes) : dropMark bytes = bytes := by
  unfold dropMark
  rw [if_neg fun hm => h (List.isPrefixOf_iff_prefix.1 hm)]

/-- The mark is a character like others where nothing drops it. -/
theorem scan_mark (bytes : List UInt8) : scan none (mark ++ bytes) = 0xfeff :: scan none bytes := by
  have hmark : mark = encodeScalar 0xfeff := by decide
  rw [hmark]
  exact scan_encodeScalar (Or.inr (by decide)) bytes

/-- Bytes come back from their text when they are well formed and have no mark in front, and only then. -/
theorem encode_decode_eq_iff :
    encode (decode bytes) = bytes ↔ bytes.toByteArray.IsValidUTF8 ∧ ¬ mark <+: bytes := by
  rw [encode_decode]
  constructor
  · intro h
    refine ⟨isValidUTF8_iff.2 ⟨_, isScalar_of_mem_scan_none _, h.symm⟩, ?_⟩
    rintro ⟨rest, rfl⟩
    have hscan := scan_flatMap _ (isScalar_of_mem_scan_none (dropMark (mark ++ rest)))
    rw [h, dropMark_mark, scan_mark] at hscan
    exact List.cons_ne_self _ _ hscan
  · rintro ⟨hvalid, hmark⟩
    obtain ⟨ns, hns, rfl⟩ := isValidUTF8_iff.1 hvalid
    rw [dropMark_of_unmarked hmark, scan_flatMap ns hns]

theorem length_encodeScalar_le (n : Nat) : (encodeScalar n).length ≤ 4 := by
  unfold encodeScalar
  split_ifs <;> simp only [List.length_cons, List.length_nil] <;> omega

theorem length_flatMap_encodeScalar_le (ns : List Nat) :
    (ns.flatMap encodeScalar).length ≤ 4 * ns.length := by
  induction ns with
  | nil => exact Nat.le_refl 0
  | cons n ns ih =>
    have hn := length_encodeScalar_le n
    rw [List.flatMap_cons, List.length_append, List.length_cons]
    omega

/-- A byte ends at most one character, and opens at most one. -/
theorem length_scan_le (pending : Option Pending) (bytes : List UInt8) :
    (scan pending bytes).length ≤ pending.toList.length + bytes.length := by
  fun_induction scan pending bytes <;>
    simp only [List.length_cons, List.length_nil, Option.toList_none, Option.toList_some] at * <;>
    omega

theorem scan_flatMap_append (h : ∀ n ∈ ns, IsScalar n) (rest : List UInt8) :
    scan none (ns.flatMap encodeScalar ++ rest) = ns ++ scan none rest := by
  induction ns with
  | nil => rfl
  | cons n ns ih =>
    rw [List.flatMap_cons, List.append_assoc, scan_encodeScalar (h n List.mem_cons_self),
      ih fun m hm => h m (List.mem_cons_of_mem _ hm), List.cons_append]

/-- Bytes that go on as characters are whole characters up to a few bytes of the next one. -/
theorem exists_of_prefix_flatMap (h : bytes <+: ns.flatMap encodeScalar) :
    ∃ ms rest, ms <+: ns ∧ bytes = ms.flatMap encodeScalar ++ rest ∧ rest.length ≤ 4 := by
  induction ns generalizing bytes with
  | nil => exact ⟨[], [], List.prefix_rfl, List.prefix_nil.1 h, Nat.zero_le 4⟩
  | cons n ns ih =>
    rw [List.flatMap_cons] at h
    rcases Nat.le_total bytes.length (encodeScalar n).length with hle | hle
    · exact ⟨[], bytes, List.nil_prefix, rfl, Nat.le_trans hle (length_encodeScalar_le n)⟩
    · obtain ⟨behind, rfl⟩ := List.prefix_of_prefix_length_le (List.prefix_append ..) h hle
      obtain ⟨ms, rest, hms, rfl, hrest⟩ := ih ((List.prefix_append_right_inj _).1 h)
      refine ⟨n :: ms, rest, List.prefix_cons_inj n |>.2 hms, ?_, hrest⟩
      rw [List.flatMap_cons, List.append_assoc]

/-- Bytes with which the bytes of their text start are about as many as these. -/
theorem length_encode_decode_le (h : bytes <+: encode (decode bytes)) :
    (encode (decode bytes)).length ≤ bytes.length + 16 := by
  rw [encode_decode] at h ⊢
  obtain ⟨ms, rest, hms, hbytes, hrest⟩ := exists_of_prefix_flatMap h
  have hscalars : ∀ n ∈ ms, IsScalar n := fun n hn =>
    isScalar_of_mem_scan_none _ n (hms.subset hn)
  have hscan : scan none bytes = ms ++ scan none rest := by
    rw [hbytes]
    exact scan_flatMap_append hscalars rest
  have htail : ((scan none rest).flatMap encodeScalar).length ≤ 4 * (0 + rest.length) :=
    Nat.le_trans (length_flatMap_encodeScalar_le _) (Nat.mul_le_mul_left 4 (length_scan_le none rest))
  have hall : ((scan none bytes).flatMap encodeScalar).length ≤ bytes.length + 16 := by
    rw [hscan, List.flatMap_append, List.length_append, hbytes, List.length_append]
    omega
  -- dropping the mark drops its character
  by_cases hmark : mark <+: bytes
  · obtain ⟨behind, rfl⟩ := hmark
    rw [scan_mark, List.flatMap_cons, List.length_append] at hall
    rw [dropMark_mark]
    omega
  · rwa [dropMark_of_unmarked hmark]

end LeaseVec.Text.Utf8
