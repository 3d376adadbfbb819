import LeaseVec.Proofs.Bundle.Readings
import LeaseVec.Proofs.Bundle.Refusals

/-!
# Larger bounds on counts

A bound is looked at in one place only, where a count is compared with it. Decoding the same bytes under two
bounds goes the same way until a count lies at or above the smaller one, and there the decoding under the
smaller bound ends. So what is decoded under a bound is decoded under every larger one, with the same fields
and the same world behind it.
-/

namespace LeaseVec

open Number

variable {α β : Type} {F : Fault → Prop}

/-- Two steps end alike from every state, unless the first ends with a fault of a certain sort. -/
def AlikeUnless {σ : Type} (F : Fault → Prop) (x y : EStateM Fault σ α) : Prop :=
  ∀ s, x s = y s ∨ ∃ e s', x s = .error e s' ∧ F e

namespace AlikeUnless

variable {σ : Type} {x y : EStateM Fault σ α} {f g : α → EStateM Fault σ β}

theorem refl (x : EStateM Fault σ α) : AlikeUnless F x x := fun _ => Or.inl rfl

theorem bind (h : AlikeUnless F x y) (hf : ∀ a, AlikeUnless F (f a) (g a)) :
    AlikeUnless F (x >>= f) (y >>= g) := by
  intro s
  show EStateM.bind x f s = EStateM.bind y g s ∨ ∃ e s', EStateM.bind x f s = .error e s' ∧ F e
  unfold EStateM.bind
  rcases h s with halike | ⟨e, s', hstopped, he⟩
  · rw [halike]
    cases y s with
    | ok a s' => exact hf a s'
    | error e s' => exact Or.inl rfl
  · rw [hstopped]
    exact Or.inr ⟨e, s', rfl, he⟩

/-- Without a fault of that sort the two steps are the same. -/
theorem eq_of_never (h : AlikeUnless F x y) (hF : ∀ e, ¬ F e) : x = y := by
  funext s
  rcases h s with halike | ⟨e, -, -, he⟩
  · exact halike
  · exact absurd he (hF e)

theorem scan {s t : Scan α} (h : ∀ bytes, AlikeUnless F (s bytes) (t bytes)) (reader : Nat) :
    AlikeUnless F (World.scan reader s) (World.scan reader t) := by
  intro w
  rcases h (w.bytes (w.reader reader).source) (w.reader reader).offset with halike | ⟨e, k, hstopped, he⟩
  · left
    unfold World.scan
    simp only [halike]
  · exact Or.inr ⟨e, _, World.scan_error hstopped, he⟩

end AlikeUnless

/-- The fault of a count that a limit refuses, where a larger limit might not. -/
def Fault.Oversteps (limit limit' : Int) (e : Fault) : Prop :=
  limit < limit' ∧ ∃ count, e = .countTooLarge count limit ∧ limit ≤ count

section Limits

variable {bound bound' : Option Scalar} {limit limit' : Int}

/-- A count that is below the smaller limit is below the larger one, too. -/
theorem acceptCount_alike (count : Nat) (hle : limit ≤ limit') :
    acceptCount count limit = acceptCount count limit' ∨
      ∃ e, acceptCount count limit = .error e ∧ Fault.Oversteps limit limit' e := by
  rcases eq_or_lt_of_le hle with rfl | hlt
  · exact Or.inl rfl
  · rcases lt_or_ge (count : Int) limit with hbelow | habove
    · left
      have hsmall : acceptCount count limit = .ok count := acceptCount_ok.2 ⟨by omega, hbelow, by simp⟩
      have hlarge : acceptCount count limit' = .ok count := acceptCount_ok.2 ⟨by omega, by omega, by simp⟩
      rw [hsmall, hlarge]
    · exact Or.inr ⟨_, if_pos (Or.inr habove), hlt, count, rfl, habove⟩

theorem Scan.count_alike (h : corruptFrom bound = .ok limit) (h' : corruptFrom bound' = .ok limit')
    (hle : limit ≤ limit') (bytes : Bytes) :
    AlikeUnless (Fault.Oversteps limit limit') (Scan.count bound bytes) (Scan.count bound' bytes) := by
  rw [Scan.count_eq h, Scan.count_eq h']
  refine (AlikeUnless.refl (Scan.u64 bytes)).bind fun c => ?_
  show AlikeUnless _ (Scan.ofExcept (acceptCount c limit) bytes) (Scan.ofExcept (acceptCount c limit') bytes)
  rcases acceptCount_alike c hle with halike | ⟨e, hrefused, he⟩
  · rw [halike]
    exact .refl _
  · rw [hrefused]
    exact fun k => Or.inr ⟨e, k, rfl, he⟩

theorem Scan.field_alike (kind : Kind) (stride : Binary64) (h : corruptFrom bound = .ok limit)
    (h' : corruptFrom bound' = .ok limit') (hle : limit ≤ limit') (bytes : Bytes) :
    AlikeUnless (Fault.Oversteps limit limit') (Scan.field kind stride bound bytes)
      (Scan.field kind stride bound' bytes) :=
  (Scan.count_alike h h' hle bytes).bind fun _ => .refl _

namespace Bundle

/-- The same way of decoding under another bound. -/
def Policy.bounded (policy : Policy) (bound : Option Scalar) : Policy :=
  { policy with read := { policy.read with bound := bound } }

open World

theorem decodeField_alikeUnless (reader : Nat) (policy : Policy) (h : corruptFrom bound = .ok limit)
    (h' : corruptFrom bound' = .ok limit') (hle : limit ≤ limit') :
    AlikeUnless (Fault.Oversteps limit limit') (decodeField reader (policy.bounded bound))
      (decodeField reader (policy.bounded bound')) := by
  rw [decodeField_eq, decodeField_eq]
  refine (AlikeUnless.refl _).bind fun head => (AlikeUnless.refl _).bind fun vec => ?_
  refine AlikeUnless.bind ?_ fun mode => .refl _
  rw [readField_eq, readField_eq]
  refine (AlikeUnless.refl _).bind fun _ => (AlikeUnless.refl _).bind fun w => ?_
  exact (AlikeUnless.scan (Scan.field_alike _ _ h h' hle) reader).bind fun found => .refl _

theorem decodeFields_alikeUnless (reader : Nat) (policy : Policy) (h : corruptFrom bound = .ok limit)
    (h' : corruptFrom bound' = .ok limit') (hle : limit ≤ limit') (count : Nat) :
    AlikeUnless (Fault.Oversteps limit limit') (decodeFields reader (policy.bounded bound) count)
      (decodeFields reader (policy.bounded bound') count) := by
  induction count with
  | zero => exact .refl _
  | succ count ih =>
    rw [decodeFields_succ, decodeFields_succ]
    exact (decodeField_alikeUnless reader policy h h' hle).bind fun field => ih.bind fun rest => .refl _

/-- Decoding under a smaller limit goes as under a larger one, until it refuses a count. -/
theorem decode_alikeUnless (reader : Nat) (policy : Policy) (h : corruptFrom bound = .ok limit)
    (h' : corruptFrom bound' = .ok limit') (hle : limit ≤ limit') :
    AlikeUnless (Fault.Oversteps limit limit') (decode reader (policy.bounded bound))
      (decode reader (policy.bounded bound')) := by
  rw [decode_eq, decode_eq]
  exact (AlikeUnless.refl _).bind (decodeFields_alikeUnless reader policy h h' hle)

/-- What is decoded under a smaller limit is decoded under a larger one. -/
theorem decode_ok_of_le {reader : Nat} {policy : Policy} {w w' : World} {fields : List Field}
    (h : corruptFrom bound = .ok limit) (h' : corruptFrom bound' = .ok limit') (hle : limit ≤ limit')
    (hd : decode reader (policy.bounded bound) w = .ok fields w') :
    decode reader (policy.bounded bound') w = .ok fields w' := by
  rcases decode_alikeUnless reader policy h h' hle w with halike | ⟨e, s, hstopped, -⟩
  · exact halike.symm.trans hd
  · cases hd.symm.trans hstopped

/-- Only the limit that a bound stands for matters. -/
theorem decode_eq_of_limit (reader : Nat) (policy : Policy) (h : corruptFrom bound = .ok limit)
    (h' : corruptFrom bound' = .ok limit) :
    decode reader (policy.bounded bound) = decode reader (policy.bounded bound') :=
  (decode_alikeUnless reader policy h h' le_rfl).eq_of_never fun _ he => lt_irrefl _ he.1

end Bundle

end Limits

namespace Bundle

open World

/-- Decoding is monotone in the bound on counts. Given two integers `m ≤ m'` of any size and sign, what is
decoded under `m` is decoded under `m'` and without a bound, with the same fields and the same world behind it,
and every count that it has read is below `m` and the ceiling. When decoding fails under `m` it fails in the
same way under `m'`, unless it has refused a count that is at or above `m`. From the ceiling on, a bound changes
nothing. -/
theorem decode_bounded_mono {b b' : Scalar} {m m' : Int} (reader : Nat) (policy : Policy) (w : World)
    (hm : b.whole = .ok m) (hm' : b'.whole = .ok m') (hle : m ≤ m') :
    (∀ fields w', decode reader (policy.bounded (some b)) w = .ok fields w' →
      decode reader (policy.bounded (some b')) w = .ok fields w' ∧
      decode reader (policy.bounded none) w = .ok fields w' ∧
      ∀ before after, w.At reader before after → ∃ r, w'.ReadAs reader (some b) before after r fields ∧
        ∀ f ∈ r.fields, (f.count : Int) < min m (2 ^ 40)) ∧
    (∀ e w', decode reader (policy.bounded (some b)) w = .error e w' →
      decode reader (policy.bounded (some b')) w = .error e w' ∨
        ∃ count, e = .countTooLarge count m ∧ m ≤ count) ∧
    (2 ^ 40 ≤ m → decode reader (policy.bounded (some b)) w = decode reader (policy.bounded none) w) := by
  have hlimit := corruptFrom_some hm
  have hlimit' := corruptFrom_some hm'
  have hnone : corruptFrom none = .ok (2 ^ 40) := rfl
  refine ⟨?_, ?_, ?_⟩
  · intro fields w' hd
    refine ⟨decode_ok_of_le hlimit hlimit' (by omega) hd, decode_ok_of_le hlimit hnone (by omega) hd, ?_⟩
    intro before after h
    obtain ⟨r, hread⟩ := readAs_of_decode h hd
    refine ⟨r, hread, fun f hf => ?_⟩
    obtain ⟨limit, hpermits, hlt⟩ := hread.permitted f hf
    rw [Policy.bounded, hlimit] at hpermits
    cases hpermits
    exact hlt
  · intro e w' hd
    rcases decode_alikeUnless reader policy hlimit hlimit' (by omega) w with
      halike | ⟨e', s, hstopped, hlt, count, rfl, hcount⟩
    · exact Or.inl (halike.symm.trans hd)
    · cases hd.symm.trans hstopped
      -- the larger limit is at most the ceiling, so the smaller one is the bound itself
      have hself : min m (2 ^ 40) = m := by omega
      rw [hself] at hcount ⊢
      exact Or.inr ⟨count, rfl, hcount⟩
  · intro hceiling
    rw [min_eq_right hceiling] at hlimit
    rw [decode_eq_of_limit reader policy hlimit hnone]

/-- A bundle of two fields, of two and of five bytes, with a reader that may borrow them and one that copies. -/
def twoAndFive : World :=
  { (default : World) with
    memory := ⟨#[(⟨0, [⟨[97], .u8, 1, [0, 0, 0], 2, [7, 9]⟩,
      ⟨[98], .u8, 1, [0], 5, [1, 2, 3, 4, 5]⟩]⟩ : Reading).bytes], 0, default⟩
    regions := #[⟨[], 69, some ⟨0, 0, 69, false⟩⟩]
    readers := #[⟨⟨0, 0, 69, false⟩, 0, some 0⟩, ⟨⟨0, 0, 69, false⟩, 0, none⟩] }

/-- The second field is too long for a bound of five, so that six is the least bound that decodes them. -/
theorem decode_bounded_mono_twoAndFive :
    (∃ fields w', decode 0 (Policy.bounded {} (some (.integer 6))) twoAndFive = .ok fields w' ∧
      decode 0 (Policy.bounded {} (some (.integer (2 ^ 70)))) twoAndFive = .ok fields w' ∧
      decode 0 (Policy.bounded {} none) twoAndFive = .ok fields w') ∧
    ∃ count w', decode 1 (Policy.bounded {} (some (.integer 5))) twoAndFive =
      .error (.countTooLarge count 5) w' ∧ 5 ≤ count := by
  have hfields : (answer? (decode 0 (Policy.bounded {} (some (.integer 6))) twoAndFive)).isSome = true := by
    decide +kernel
  have hlarger : (answer? (decode 1 (Policy.bounded {} (some (.integer 6))) twoAndFive)).isSome = true := by
    decide +kernel
  have hsmaller : answer? (decode 1 (Policy.bounded {} (some (.integer 5))) twoAndFive) = none := by
    decide +kernel
  constructor
  · obtain ⟨fields, hfields⟩ := Option.isSome_iff_exists.1 hfields
    obtain ⟨w', hd⟩ := exists_of_answer? hfields
    have hsix : (Scalar.integer 6).whole = .ok 6 := rfl
    have hhuge : (Scalar.integer (2 ^ 70)).whole = .ok (2 ^ 70) := rfl
    obtain ⟨hmono, -⟩ := decode_bounded_mono 0 {} twoAndFive hsix hhuge (by decide)
    obtain ⟨hgiven, hnone, -⟩ := hmono fields w' hd
    exact ⟨fields, w', hd, hgiven, hnone⟩
  · have hfive : (Scalar.integer 5).whole = .ok 5 := rfl
    have hsix : (Scalar.integer 6).whole = .ok 6 := rfl
    obtain ⟨-, hrefused, -⟩ := decode_bounded_mono 1 {} twoAndFive hfive hsix (by decide)
    cases hd : decode 1 (Policy.bounded {} (some (.integer 5))) twoAndFive with
    | ok fields w' =>
      rw [hd] at hsmaller
      cases hsmaller
    | error e w' =>
      rcases hrefused e w' hd with hsame | ⟨count, rfl, hcount⟩
      · rw [hsame] at hlarger
        cases hlarger
      · exact ⟨count, w', rfl, hcount⟩

end Bundle

end LeaseVec
