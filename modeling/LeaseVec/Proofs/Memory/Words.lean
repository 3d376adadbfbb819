import LeaseVec.Memory.Basic
import Mathlib.Tactic.Ring

/-!
# Sequences of words

A sequence of whole words is cut where its bytes are cut, so writing some words in place of others
changes these words and no others. Words that are written and read again lose only what does not fit.
-/

namespace LeaseVec

/-- A part that is replaced within a slice. -/
theorem Bytes.slice_overwrite_inside {bytes part : Bytes} {offset length position : Nat}
    (hp : position + part.length ≤ length) (hl : offset + length ≤ bytes.length) :
    (bytes.overwrite (offset + position) part).slice offset length =
      (bytes.slice offset length).overwrite position part := by
  have hfirst : (bytes.take (offset + position)).drop offset = (bytes.drop offset).take position := by
    rw [List.drop_take, Nat.add_sub_cancel_left]
  have hlength : (bytes.take (offset + position)).length = offset + position := by
    rw [List.length_take]
    omega
  have hposition : ((bytes.drop offset).take position ++ part).length = position + part.length := by
    rw [List.length_append, List.length_take, List.length_drop]
    omega
  unfold Bytes.overwrite
  rw [if_pos (by omega), if_pos (by rw [Bytes.length_slice]; omega)]
  unfold Bytes.slice
  rw [List.append_assoc, List.drop_append_of_le_length (by omega), hfirst, ← List.append_assoc, List.take_append,
    List.take_of_length_le (by omega), hposition, List.take_take, Nat.min_eq_left (by omega), List.drop_take,
    List.drop_drop, Nat.add_assoc]

namespace Word

theorem decode_lt (bytes : Bytes) : decode bytes < 256 ^ bytes.length := by
  induction bytes with
  | nil => simp [decode]
  | cons b rest ih =>
    have hb : b.toNat < 256 := b.toNat_lt
    rw [decode, List.length_cons, Nat.pow_succ]
    omega

/-- Only as many bytes as a word has can change its value. -/
theorem decode_take_lt (width : Nat) (bytes : Bytes) : decode (bytes.take width) < 256 ^ width := by
  have hl : (bytes.take width).length ≤ width := by
    rw [List.length_take]
    exact Nat.min_le_left _ _
  exact (decode_lt _).trans_le (Nat.pow_le_pow_right (by decide) hl)

theorem split_lt {width count n : Nat} {bytes : Bytes} (h : n ∈ split width count bytes) :
    n < 256 ^ width := by
  induction count generalizing bytes with
  | zero => simp [split] at h
  | succ count ih =>
    rcases List.mem_cons.1 h with rfl | hrest
    · exact decode_take_lt width bytes
    · exact ih hrest

/-- A word that fits is read back as it was written. -/
theorem decode_encode_of_lt {width n : Nat} (h : n < 256 ^ width) : decode (encode width n) = n := by
  rw [decode_encode, Nat.pow_eq, Nat.mod_eq_of_lt h]

theorem split_append {width a : Nat} (b : Nat) {x : Bytes} (y : Bytes) (h : x.length = a * width) :
    split width (a + b) (x ++ y) = split width a x ++ split width b y := by
  induction a generalizing x with
  | zero =>
    have hx : x = [] := List.length_eq_zero_iff.1 (by simpa using h)
    rw [hx, Nat.zero_add]
    rfl
  | succ a ih =>
    rw [Nat.succ_mul] at h
    have htake : (x ++ y).take width = x.take width := List.take_append_of_le_length (by omega)
    have hdrop : (x ++ y).drop width = x.drop width ++ y := List.drop_append_of_le_length (by omega)
    have hrest : (x.drop width).length = a * width := by
      rw [List.length_drop]
      omega
    rw [Nat.succ_add, split, split, htake, hdrop, ih hrest, List.cons_append]

/-- Only the bytes of the words are looked at. -/
theorem split_take (width count : Nat) (bytes : Bytes) :
    split width count (bytes.take (count * width)) = split width count bytes := by
  induction count generalizing bytes with
  | zero => rfl
  | succ count ih =>
    rw [split, split, Nat.succ_mul, List.take_take, List.drop_take, Nat.add_sub_cancel, ih,
      Nat.min_eq_left (Nat.le_add_left _ _)]

theorem concat_cons (width n : Nat) (words : List Nat) :
    concat width (n :: words) = encode width n ++ concat width words := rfl

theorem split_concat (width : Nat) (words : List Nat) (h : ∀ n ∈ words, n < 256 ^ width) :
    split width words.length (concat width words) = words := by
  induction words with
  | nil => rfl
  | cons n rest ih =>
    have hn := h n (List.mem_cons_self ..)
    have htake : (encode width n ++ concat width rest).take width = encode width n :=
      List.take_left' (length_encode width n)
    have hdrop : (encode width n ++ concat width rest).drop width = concat width rest :=
      List.drop_left' (length_encode width n)
    rw [concat_cons, List.length_cons, split, htake, hdrop, decode_encode_of_lt hn,
      ih fun m hm => h m (List.mem_cons_of_mem n hm)]

theorem encode_zero (width : Nat) : encode width 0 = List.replicate width 0 := by
  induction width with
  | zero => rfl
  | succ width ih => rw [encode, Nat.zero_mod, Nat.zero_div, ih, List.replicate_succ]; rfl

/-- Zero bytes are words of zero. -/
theorem split_zeros {width : Nat} (count : Nat) :
    split width count (List.replicate (count * width) 0) = List.replicate count 0 := by
  have hconcat : concat width (List.replicate count 0) = List.replicate (count * width) 0 := by
    induction count with
    | zero => rw [Nat.zero_mul]; rfl
    | succ count ih =>
      rw [List.replicate_succ, concat_cons, ih, encode_zero, List.replicate_append_replicate, Nat.succ_mul,
        Nat.add_comm]
  have hsplit := split_concat width (List.replicate count 0) fun n hn => by
    rw [List.eq_of_mem_replicate hn]
    exact Nat.pow_pos (by decide)
  rwa [hconcat, List.length_replicate] at hsplit

/-- The word at a position. -/
theorem getElem?_split {width count : Nat} (bytes : Bytes) (i : Nat) :
    (split width count bytes)[i]? =
      if i < count then some (decode ((bytes.drop (i * width)).take width)) else none := by
  induction count generalizing bytes i with
  | zero => simp [split]
  | succ count ih =>
    cases i with
    | zero => simp [split]
    | succ i =>
      rw [split, List.getElem?_cons_succ, ih, List.drop_drop, Nat.succ_mul, Nat.add_comm width]
      simp only [Nat.add_lt_add_iff_right]

/-- Words in place of the ones from a position on. -/
theorem split_overwrite {width : Nat} {before inside : Bytes} (behind : Bytes) {a b c : Nat}
    (hb : before.length = a * width) (hi : inside.length = b * width) :
    split width (a + b + c) (before ++ inside ++ behind) =
      split width a before ++ split width b inside ++ split width c behind := by
  have hbi : (before ++ inside).length = (a + b) * width := by
    rw [List.length_append, hb, hi, Nat.add_mul]
  rw [split_append c behind hbi, split_append b inside hb]

/-- Bytes that are whole words, cut at two places between words. -/
theorem split_parts {width position n count : Nat} {bytes : Bytes}
    (hl : bytes.length = count * width) (hp : position + n ≤ count) :
    split width count bytes =
      split width position (bytes.take (position * width)) ++
      split width n ((bytes.drop (position * width)).take (n * width)) ++
      split width (count - (position + n)) (bytes.drop (position * width + n * width)) := by
  have hend : (position + n) * width ≤ count * width := Nat.mul_le_mul_right _ hp
  rw [Nat.add_mul] at hend
  have hbefore : (bytes.take (position * width)).length = position * width := by
    rw [List.length_take]
    omega
  have hinside : ((bytes.drop (position * width)).take (n * width)).length = n * width := by
    rw [List.length_take, List.length_drop]
    omega
  have hwhole : bytes.take (position * width) ++ (bytes.drop (position * width)).take (n * width) ++
      bytes.drop (position * width + n * width) = bytes := by
    rw [List.append_assoc, ← List.drop_drop, List.take_append_drop, List.take_append_drop]
  have hsplit := split_overwrite (bytes.drop (position * width + n * width))
    (c := count - (position + n)) hbefore hinside
  rwa [hwhole, Nat.add_sub_cancel' hp] at hsplit

/-- Writing words replaces the ones from a position on. -/
theorem split_write {width position count : Nat} {words : List Nat} {bytes : Bytes}
    (hl : bytes.length = count * width) (hp : position + words.length ≤ count)
    (hw : ∀ n ∈ words, n < 256 ^ width) :
    split width count (bytes.overwrite (position * width) (concat width words)) =
      (split width count bytes).take position ++ words ++
        (split width count bytes).drop (position + words.length) := by
  have hend : (position + words.length) * width ≤ count * width := Nat.mul_le_mul_right _ hp
  rw [Nat.add_mul] at hend
  have hconcat : (concat width words).length = words.length * width := length_concat ..
  have hbefore : (bytes.take (position * width)).length = position * width := by
    rw [List.length_take]
    omega
  have hnew := split_overwrite (bytes.drop (position * width + words.length * width))
    (c := count - (position + words.length)) hbefore hconcat
  rw [Nat.add_sub_cancel' hp, split_concat _ _ hw] at hnew
  have hover : bytes.overwrite (position * width) (concat width words) =
      bytes.take (position * width) ++ concat width words ++
        bytes.drop (position * width + words.length * width) := by
    rw [Bytes.overwrite, hconcat, if_pos (by omega)]
  have hcut := split_parts hl hp
  have htake : (split width count bytes).take position =
      split width position (bytes.take (position * width)) := by
    rw [hcut, List.append_assoc, List.take_left' (length_split ..)]
  have hdrop : (split width count bytes).drop (position + words.length) =
      split width (count - (position + words.length))
        (bytes.drop (position * width + words.length * width)) := by
    rw [hcut, List.drop_left']
    rw [List.length_append, length_split, length_split]
  rw [hover, hnew, htake, hdrop]

end Word

end LeaseVec
