import LeaseVec.Text.Utf8
import Mathlib.Tactic.SplitIfs

/-!
# Reading back what was written in UTF-8

The bytes of a text are read as the text again, up to surrogates that stand alone and a byte-order mark
in front. Text that has neither is read back as it was.
-/

namespace LeaseVec.Text

/-- Whether every surrogate is half of a pair. -/
def isWellFormed : Text → Bool
  | [] => true
  | [u] => !(isLead u || isTrail u)
  | u :: v :: rest =>
    if isLead u then isTrail v && isWellFormed rest else !isTrail u && isWellFormed (v :: rest)

namespace Utf8

/-- The numbers of characters: surrogates are none. -/
def IsScalar (n : Nat) : Prop := n < 0xd800 ∨ 0xe000 ≤ n ∧ n < 0x110000

theorem toNat_ofNat_of_lt {k : Nat} (h : k < 256) : (UInt8.ofNat k).toNat = k := by
  rw [UInt8.toNat_ofNat']
  exact Nat.mod_eq_of_lt h

theorem lt_ofNat {k : Nat} (h : k < 256) (b : UInt8) : UInt8.ofNat k < b ↔ k < b.toNat := by
  rw [UInt8.lt_iff_toNat_lt, toNat_ofNat_of_lt h]

theorem ofNat_eq {k : Nat} (h : k < 256) (b : UInt8) : UInt8.ofNat k = b ↔ k = b.toNat := by
  rw [← UInt8.toNat_inj, toNat_ofNat_of_lt h]

theorem opening_ofNat {k : Nat} (h : k < 256) :
    opening (UInt8.ofNat k) =
      if k < 0x80 then .whole k
      else if k < 0xc2 then .malformed
      else if k < 0xe0 then .unfinished ⟨1, 0x80, 0xbf, k - 0xc0⟩
      else if k < 0xf0 then
        .unfinished ⟨2, if k = 0xe0 then 0xa0 else 0x80, if k = 0xed then 0x9f else 0xbf, k - 0xe0⟩
      else if k < 0xf5 then
        .unfinished ⟨3, if k = 0xf0 then 0x90 else 0x80, if k = 0xf4 then 0x8f else 0xbf, k - 0xf0⟩
      else .malformed := by
  unfold opening
  simp only [lt_ofNat h, ofNat_eq h, toNat_ofNat_of_lt h]
  rfl

/-- A continuation byte in the range that is expected adds six bits. -/
theorem scan_continue {more k bits : Nat} {low high : UInt8} (rest : List UInt8) (hk : k < 0x40)
    (hlow : low.toNat ≤ 0x80 + k) (hhigh : 0x80 + k ≤ high.toNat) :
    scan (some ⟨more, low, high, bits⟩) (UInt8.ofNat (0x80 + k) :: rest) =
      if more ≤ 1 then (bits * 0x40 + k) :: scan none rest
      else scan (some ⟨more - 1, 0x80, 0xbf, bits * 0x40 + k⟩) rest := by
  have hb : (UInt8.ofNat (0x80 + k)).toNat = 0x80 + k := toNat_ofNat_of_lt (by omega)
  have hrange : low ≤ UInt8.ofNat (0x80 + k) ∧ UInt8.ofNat (0x80 + k) ≤ high := by
    rw [UInt8.le_iff_toNat_le, UInt8.le_iff_toNat_le, hb]
    exact ⟨hlow, hhigh⟩
  rw [scan, if_pos hrange, hb, Nat.add_sub_cancel_left]

theorem scan_last {k bits : Nat} (rest : List UInt8) (hk : k < 0x40) :
    scan (some ⟨1, 0x80, 0xbf, bits⟩) (UInt8.ofNat (0x80 + k) :: rest) =
      (bits * 0x40 + k) :: scan none rest := by
  rw [scan_continue rest hk ((by decide : UInt8.toNat 0x80 = 0x80) ▸ Nat.le_add_right ..)
    (by rw [(by decide : UInt8.toNat 0xbf = 0xbf)]; omega), if_pos (Nat.le_refl 1)]

theorem scan_last_two {k l bits : Nat} {low high : UInt8} (rest : List UInt8) (hk : k < 0x40)
    (hl : l < 0x40) (hlow : low.toNat ≤ 0x80 + k) (hhigh : 0x80 + k ≤ high.toNat) :
    scan (some ⟨2, low, high, bits⟩) (UInt8.ofNat (0x80 + k) :: UInt8.ofNat (0x80 + l) :: rest) =
      ((bits * 0x40 + k) * 0x40 + l) :: scan none rest := by
  rw [scan_continue _ hk hlow hhigh, if_neg (by decide), scan_last rest hl]

/-- The bytes of a character are read as that character. -/
theorem scan_encodeScalar {n : Nat} (h : IsScalar n) (rest : List UInt8) :
    scan none (encodeScalar n ++ rest) = n :: scan none rest := by
  have h80 : UInt8.toNat 0x80 = 0x80 := by decide
  have hbf : UInt8.toNat 0xbf = 0xbf := by decide
  unfold IsScalar at h
  unfold encodeScalar
  split_ifs with h₁ h₂ h₃
  · rw [List.singleton_append, scan, opening_ofNat (by omega), if_pos h₁]
  · rw [List.cons_append, scan, opening_ofNat (by omega), if_neg (by omega), if_neg (by omega),
      if_pos (by omega)]
    simp only [List.singleton_append]
    rw [scan_last rest (by omega)]
    congr 1
    omega
  · have hlow : UInt8.toNat (if 0xe0 + n / 0x1000 = 0xe0 then 0xa0 else 0x80) ≤
        0x80 + n / 0x40 % 0x40 := by
      have ha0 : UInt8.toNat 0xa0 = 0xa0 := by decide
      split_ifs <;> omega
    have hhigh : 0x80 + n / 0x40 % 0x40 ≤
        UInt8.toNat (if 0xe0 + n / 0x1000 = 0xed then 0x9f else 0xbf) := by
      have h9f : UInt8.toNat 0x9f = 0x9f := by decide
      split_ifs <;> omega
    rw [List.cons_append, scan, opening_ofNat (by omega), if_neg (by omega), if_neg (by omega),
      if_neg (by omega), if_pos (by omega)]
    simp only [List.cons_append, List.nil_append]
    rw [scan_last_two rest (by omega) (by omega) hlow hhigh]
    congr 1
    omega
  · have hlow : UInt8.toNat (if 0xf0 + n / 0x40000 = 0xf0 then 0x90 else 0x80) ≤
        0x80 + n / 0x1000 % 0x40 := by
      have h90 : UInt8.toNat 0x90 = 0x90 := by decide
      split_ifs <;> omega
    have hhigh : 0x80 + n / 0x1000 % 0x40 ≤
        UInt8.toNat (if 0xf0 + n / 0x40000 = 0xf4 then 0x8f else 0xbf) := by
      have h8f : UInt8.toNat 0x8f = 0x8f := by decide
      split_ifs <;> omega
    rw [List.cons_append, scan, opening_ofNat (by omega), if_neg (by omega), if_neg (by omega),
      if_neg (by omega), if_neg (by omega), if_pos (by omega)]
    simp only [List.cons_append, List.nil_append]
    rw [scan_continue _ (by omega) hlow hhigh, if_neg (by decide),
      scan_last_two rest (by omega) (by omega) (by omega) (by omega)]
    congr 1
    omega

theorem isLead_iff {u : UInt16} : isLead u = true ↔ 0xd800 ≤ u.toNat ∧ u.toNat < 0xdc00 := by
  unfold isLead
  rw [Bool.and_eq_true, decide_eq_true_eq, decide_eq_true_eq, UInt16.le_iff_toNat_le,
    UInt16.lt_iff_toNat_lt]
  rfl

theorem isTrail_iff {u : UInt16} : isTrail u = true ↔ 0xdc00 ≤ u.toNat ∧ u.toNat < 0xe000 := by
  unfold isTrail
  rw [Bool.and_eq_true, decide_eq_true_eq, decide_eq_true_eq, UInt16.le_iff_toNat_le,
    UInt16.lt_iff_toNat_lt]
  rfl

theorem isScalar_single (u : UInt16) :
    IsScalar (if isLead u || isTrail u then replacement else u.toNat) := by
  have hu := u.toNat_lt
  unfold IsScalar
  split_ifs with h
  · right
    decide
  · rw [Bool.or_eq_true, isLead_iff, isTrail_iff] at h
    omega

theorem isScalar_pair {u v : UInt16} (hu : isLead u = true) (hv : isTrail v = true) :
    IsScalar (pairScalar u v) := by
  rw [isLead_iff] at hu
  rw [isTrail_iff] at hv
  unfold IsScalar pairScalar
  omega

theorem isScalar_of_mem_scalars (t : Text) : ∀ n ∈ scalars t, IsScalar n := by
  fun_induction scalars t with
  | case1 => exact fun n hn => absurd hn List.not_mem_nil
  | case2 u =>
    rintro n hn
    rw [List.mem_singleton.1 hn]
    exact isScalar_single u
  | case3 u v rest h ih =>
    rw [Bool.and_eq_true] at h
    rintro n hn
    rcases List.mem_cons.1 hn with hn | hn
    · rw [hn]
      exact isScalar_pair h.1 h.2
    · exact ih n hn
  | case4 u v rest h ih =>
    rintro n hn
    rcases List.mem_cons.1 hn with hn | hn
    · rw [hn]
      exact isScalar_single u
    · exact ih n hn

theorem scan_flatMap (ns : List Nat) (h : ∀ n ∈ ns, IsScalar n) :
    scan none (ns.flatMap encodeScalar) = ns := by
  induction ns with
  | nil => rfl
  | cons n ns ih =>
    rw [List.flatMap_cons, scan_encodeScalar (h n List.mem_cons_self),
      ih fun m hm => h m (List.mem_cons_of_mem _ hm)]

/-- A text whose first character is the mark starts with the mark. -/
theorem head_of_scalars {t : Text} {ns : List Nat} (h : scalars t = 0xfeff :: ns) :
    t.head? = some 0xfeff := by
  have hsingle : ∀ u : UInt16, (if isLead u || isTrail u then replacement else u.toNat) = 0xfeff →
      u = 0xfeff := by
    intro u hu
    split_ifs at hu with h
    · exact absurd hu (by decide)
    · exact UInt16.toNat_inj.1 hu
  match t with
  | [] => cases h
  | [u] =>
    rw [scalars, List.cons.injEq] at h
    rw [hsingle u h.1]
    rfl
  | u :: v :: rest =>
    rw [scalars] at h
    by_cases hpair : (isLead u && isTrail v) = true
    · rw [if_pos hpair, List.cons.injEq] at h
      have hbig : 0x10000 ≤ pairScalar u v := by
        unfold pairScalar
        omega
      omega
    · rw [if_neg hpair, List.cons.injEq] at h
      rw [hsingle u h.1]
      rfl

/-- The bytes of a text start with the mark only if the text does. -/
theorem dropMark_encode {t : Text} (h : t.head? ≠ some 0xfeff) : dropMark (encode t) = encode t := by
  unfold dropMark
  rw [if_neg]
  intro hmark
  obtain ⟨rest, hrest⟩ := List.isPrefixOf_iff_prefix.1 hmark
  have hscan := scan_flatMap (scalars t) (isScalar_of_mem_scalars t)
  have henc : mark = encodeScalar 0xfeff := by decide
  have hscalar : IsScalar 0xfeff := Or.inr (by decide)
  change scan none (encode t) = scalars t at hscan
  rw [← hrest, henc, scan_encodeScalar hscalar] at hscan
  exact h (head_of_scalars hscan.symm)

theorem decode_encode {t : Text} (h : t.head? ≠ some 0xfeff) : decode (encode t) = settled t := by
  unfold decode settled
  rw [dropMark_encode h]
  exact congrArg _ (scan_flatMap (scalars t) (isScalar_of_mem_scalars t))

theorem ofScalar_toNat (u : UInt16) : ofScalar u.toNat = [u] := by
  unfold ofScalar
  rw [if_pos u.toNat_lt, UInt16.ofNat_toNat]

theorem ofScalar_pair {u v : UInt16} (hu : isLead u = true) (hv : isTrail v = true) :
    ofScalar (pairScalar u v) = [u, v] := by
  rw [isLead_iff] at hu
  rw [isTrail_iff] at hv
  unfold ofScalar pairScalar
  rw [if_neg (by omega)]
  have hlead : 0xd800 + (0x10000 + (u.toNat - 0xd800) * 0x400 + (v.toNat - 0xdc00) - 0x10000) / 0x400 =
      u.toNat := by omega
  have htrail : 0xdc00 + (0x10000 + (u.toNat - 0xd800) * 0x400 + (v.toNat - 0xdc00) - 0x10000) % 0x400 =
      v.toNat := by omega
  rw [hlead, htrail, UInt16.ofNat_toNat, UInt16.ofNat_toNat]

/-- In well-formed text nothing is replaced. -/
theorem settled_of_isWellFormed {t : Text} (h : t.isWellFormed = true) : settled t = t := by
  unfold settled
  fun_induction scalars t with
  | case1 => rfl
  | case2 u =>
    rw [isWellFormed, Bool.not_eq_true'] at h
    rw [h, List.flatMap_singleton]
    exact ofScalar_toNat u
  | case3 u v rest hpair ih =>
    rw [Bool.and_eq_true] at hpair
    rw [isWellFormed, if_pos hpair.1, Bool.and_eq_true] at h
    rw [List.flatMap_cons, ofScalar_pair hpair.1 hpair.2, ih h.2]
    rfl
  | case4 u v rest hpair ih =>
    rw [isWellFormed] at h
    split_ifs at h with hlead
    · rw [Bool.and_eq_true] at h
      exact absurd (by rw [hlead, h.1]; rfl) hpair
    · rw [Bool.and_eq_true, Bool.not_eq_true'] at h
      have hneither : (isLead u || isTrail u) = false := by
        rw [h.1, Bool.eq_false_iff.2 hlead]
        rfl
      rw [hneither, List.flatMap_cons, ih h.2]
      change ofScalar u.toNat ++ _ = _
      rw [ofScalar_toNat]
      rfl

/-- A unit that is kept is no half of a pair on its own. -/
theorem single_of_ofScalar {u : UInt16}
    (h : ofScalar (if isLead u || isTrail u then replacement else u.toNat) = [u]) :
    (isLead u || isTrail u) = false := by
  rw [Bool.eq_false_iff]
  intro hhalf
  rw [if_pos hhalf] at h
  have hu : u = 0xfffd := (List.cons.inj h).1.symm
  rw [hu] at hhalf
  exact absurd hhalf (by decide)

theorem length_ofScalar_single (u : UInt16) :
    (ofScalar (if isLead u || isTrail u then replacement else u.toNat)).length = 1 := by
  split_ifs
  · rfl
  · rw [ofScalar_toNat]
    rfl

/-- Replacing keeps the number of units. -/
theorem length_settled (t : Text) : (settled t).length = t.length := by
  unfold settled
  fun_induction scalars t with
  | case1 => rfl
  | case2 u => rw [List.flatMap_singleton, length_ofScalar_single, List.length_singleton]
  | case3 u v rest hpair ih =>
    rw [Bool.and_eq_true] at hpair
    rw [List.flatMap_cons, ofScalar_pair hpair.1 hpair.2, List.length_append, ih]
    exact Nat.add_comm 2 rest.length
  | case4 u v rest hpair ih =>
    rw [List.flatMap_cons, List.length_append, length_ofScalar_single, ih]
    exact Nat.add_comm 1 (rest.length + 1)

/-- Text in which nothing is replaced is well formed. -/
theorem isWellFormed_of_settled {t : Text} (h : settled t = t) : t.isWellFormed = true := by
  unfold settled at h
  fun_induction scalars t with
  | case1 => rfl
  | case2 u =>
    rw [List.flatMap_singleton] at h
    rw [isWellFormed, single_of_ofScalar h]
    rfl
  | case3 u v rest hpair ih =>
    rw [Bool.and_eq_true] at hpair
    rw [List.flatMap_cons, ofScalar_pair hpair.1 hpair.2] at h
    rw [isWellFormed, if_pos hpair.1, hpair.2]
    have hrest : [u, v] ++ _ = [u, v] ++ rest := h
    exact ih (List.append_cancel_left hrest)
  | case4 u v rest hpair ih =>
    rw [List.flatMap_cons] at h
    have hsplit : _ ++ _ = [u] ++ v :: rest := h
    obtain ⟨hfirst, hrest⟩ := List.append_inj hsplit (length_ofScalar_single u)
    have hneither := single_of_ofScalar hfirst
    rw [Bool.or_eq_false_iff] at hneither
    rw [isWellFormed, hneither.1, hneither.2]
    exact ih hrest

/-- A mark in front is lost. -/
theorem decode_encode_mark (t : Text) : decode (encode (0xfeff :: t)) = settled t := by
  have hscalars : scalars (0xfeff :: t) = 0xfeff :: scalars t := by
    cases t with
    | nil => rfl
    | cons v rest =>
      have hlead : isLead 0xfeff = false := by decide
      rw [scalars, hlead, Bool.false_and, if_neg Bool.false_ne_true]
      rfl
  have hencode : encode (0xfeff :: t) = mark ++ encode t := by
    unfold encode
    rw [hscalars]
    rfl
  unfold decode settled
  rw [hencode]
  exact congrArg _ (scan_flatMap (scalars t) (isScalar_of_mem_scalars t))

/-- A text comes back from its bytes when it is well formed and has no mark in front, and only then. -/
theorem decode_encode_eq_iff {t : Text} :
    decode (encode t) = t ↔ t.isWellFormed = true ∧ t.head? ≠ some 0xfeff := by
  constructor
  · intro h
    have hmark : t.head? ≠ some 0xfeff := by
      intro hhead
      obtain ⟨rest, rfl⟩ := List.head?_eq_some_iff.1 hhead
      have hlength := congrArg List.length h
      rw [decode_encode_mark, length_settled, List.length_cons] at hlength
      omega
    rw [decode_encode hmark] at h
    exact ⟨isWellFormed_of_settled h, hmark⟩
  · rintro ⟨hformed, hmark⟩
    rw [decode_encode hmark, settled_of_isWellFormed hformed]

end Utf8

end LeaseVec.Text
