import LeaseVec.Proofs.Bundle.Atomic
import LeaseVec.Proofs.Bundle.Bounds

/-!
# Configurations and decoding agree on their limits

A configuration has defaults and a largest bound of its own, and so has decoding. Decoding under a configuration is
decoding with what the raw value states and with nothing else, as the two sets of defaults say the same. The bound
of the configuration is the least count that is refused.
-/

namespace LeaseVec

open Number Number.Binary64

namespace World

variable {w : World} {reader vec start : Nat} {stride : Binary64} {bytes before rest : Bytes}

/-- Of all that can go wrong with a field, only its count leads to the fault of a count that is too large, and it
does so from the limit on. -/
theorem Stands.countTooLarge_iff {policy : ReadPolicy} {s : Nat} {limit : Int} (h : w.Stands reader bytes start)
    (hvec : vec < w.vecs.size) (hs : acceptStride stride = .ok s) (hroom : start + 8 ≤ bytes.length)
    (hlimit : corruptFrom policy.bound = .ok limit) :
    (∃ count least w', readField reader vec stride policy w = .error (.countTooLarge count least) w') ↔
      limit ≤ (Word.decode (bytes.slice start 8) : Int) := by
  constructor
  · rintro ⟨count, least, w', hrefused⟩
    have hends := h.readField_of_stride hvec hs policy
    rw [hrefused] at hends
    cases hends with
    | stopped why =>
      cases why with
      | noField _ _ hno =>
        cases hno with
        | unusable _ he =>
          rw [hlimit] at he
          cases he
        | corrupt _ hl hle =>
          cases hlimit.symm.trans hl
          exact hle
        | cut _ _ he => rcases he with he | he <;> cases he
      | refused _ _ _ _ _ hrefuses => cases hrefuses
  · intro hle
    obtain ⟨hwhole, hpos⟩ := acceptStride_ok.1 hs
    have hcount : Scan.count policy.bound bytes start =
        .error (.countTooLarge (Word.decode (bytes.slice start 8) : Int) limit) (start + 8) := by
      rw [Scan.count_of_room policy.bound hroom, hlimit]
      have hrefused : acceptCount (Word.decode (bytes.slice start 8)) limit =
          .error (.countTooLarge (Word.decode (bytes.slice start 8) : Int) limit) := if_pos (Or.inr hle)
      show Scan.ofExcept (acceptCount _ limit) bytes (start + 8) = _
      rw [hrefused]
      rfl
    have hfield : Scan.field (w.vec vec).kind stride policy.bound bytes start =
        .error (.countTooLarge (Word.decode (bytes.slice start 8) : Int) limit) (start + 8) :=
      Scan.bind_error hcount
    rw [← h.bytes_eq, ← h.offset_eq] at hfield
    exact ⟨_, _, _, readField_of_noField hs hfield⟩

end World

namespace Bundle

open World

variable {w : World} {reader n : Nat} {before rest : Bytes} {policy : Policy} {f : FieldReading} {limit : Int}

/-- A field behind its description is refused for its count from the limit on, whatever stands behind the count. -/
theorem countTooLarge_iff (h : w.At reader before (f.description ++ (Word.encode 8 n ++ rest)))
    (hf : f.Described before.length) (hn : n < 2 ^ 64) (hlimit : corruptFrom policy.read.bound = .ok limit) :
    (∃ count least w', decodeField reader policy w = .error (.countTooLarge count least) w') ↔
      limit ≤ n := by
  obtain ⟨w₁, hrun, -, hat, hvec, -⟩ := decodeField_description policy h hf
  have hroom : (before ++ f.description).length + 8 ≤
      ((before ++ f.description) ++ (Word.encode 8 n ++ rest)).length := by
    simp only [List.length_append, Word.length_encode]
    omega
  have hcount : Word.decode (((before ++ f.description) ++ (Word.encode 8 n ++ rest)).slice
      (before ++ f.description).length 8) = n := by
    rw [Bytes.slice, List.drop_left' rfl, List.take_left' (Word.length_encode ..)]
    exact Word.decode_encode_of_lt hn
  have hiff := hat.stands.countTooLarge_iff hvec (acceptStride_ok.2 ⟨whole_stride hf, hf.stride_pos⟩) hroom hlimit
  rw [hcount] at hiff
  rw [← hiff, hrun]
  constructor
  · rintro ⟨count, least, w', hd⟩
    cases hread : readField reader w.vecs.size (ofNat f.stride) policy.read w₁ with
    | ok mode w₂ =>
      rw [Action.bind_ok hread] at hd
      cases hd
    | error e w₂ =>
      rw [Action.bind_error hread] at hd
      cases hd
      exact ⟨count, least, w', rfl⟩
  · rintro ⟨count, least, w', hread⟩
    exact ⟨count, least, w', Action.bind_error hread⟩

end Bundle

namespace Config

open World LeaseVec.Bundle

/-- Decoding with what is stated. What is left out takes the default of decoding. -/
def Stated.policy (s : Stated) : Bundle.Policy where
  read := { inPlace := s.inPlace.getD ({} : ReadPolicy).inPlace, bound := s.bound.map .number }
  checked := s.checked.getD ({} : Bundle.Policy).checked

/-- Whether a default is filled in by the configuration or by decoding makes no difference. -/
theorem decode_filled (s : Stated) (reader : Nat) :
    decode reader s.filled.policy = decode reader s.policy := by
  have hfilled : s.filled.policy = s.policy.bounded (some (.number s.filled.bound)) := rfl
  have hstated : s.policy = s.policy.bounded (s.bound.map .number) := rfl
  rw [hfilled, hstated]
  cases hb : s.bound with
  | none =>
    have hbound : s.filled.bound = default.bound := by simp [Stated.filled, hb]
    have hdefault := corruptFrom_some (whole_number toInt?_default_bound)
    have hnone : corruptFrom none = .ok (2 ^ 40) := rfl
    rw [min_self] at hdefault
    rw [hbound]
    exact decode_eq_of_limit reader s.policy hdefault hnone
  | some x =>
    have hbound : s.filled.bound = x := by simp [Stated.filled, hb]
    rw [hbound]
    rfl

theorem decode_default (reader : Nat) : decode reader default.policy = decode reader {} := by
  rw [← filled_nothing, decode_filled]
  rfl

/-- Configurations and decoding agree on their limits. A raw value is accepted when its entries are of the right
types and the bound on counts lies between `1` and `2 ^ 40`, and only then. The configuration that it gives is
accepted as it is and gives itself. Every reader decodes under it what it decodes under the options that the value
states, with those left out that the value leaves out, and a field is refused for its count when that is at or above
the bound of the configuration, and only then. The value that states nothing gives the defaults of decoding. -/
theorem ofJson_agrees (raw : Json) :
    ((∃ c, ofJson raw = .ok c) ↔ Acceptable raw) ∧
    (∀ c, ofJson raw = .ok c →
      ofJson c.toJson = .ok c ∧
      (∀ reader, decode reader c.policy = decode reader (stated raw).policy) ∧
      ∃ limit : Int, c.bound.toInt? = some limit ∧
        ∀ (w : World) (reader n : Nat) (before rest : Bytes) (f : FieldReading),
          w.At reader before (f.description ++ (Word.encode 8 n ++ rest)) → f.Described before.length →
          n < 2 ^ 64 →
            ((∃ count least w', decodeField reader c.policy w = .error (.countTooLarge count least) w') ↔
              limit ≤ n)) ∧
    (ofJson (.object []) = .ok default ∧ ∀ reader, decode reader default.policy = decode reader {}) := by
  refine ⟨⟨?_, ?_⟩, ?_, ofJson_empty, decode_default⟩
  · rintro ⟨c, hc⟩
    exact (ofJson_ok_iff.1 hc).1
  · intro hraw
    exact ⟨_, ofJson_ok_iff.2 ⟨hraw, rfl⟩⟩
  · intro c hc
    obtain ⟨hraw, rfl⟩ := ofJson_ok_iff.1 hc
    have hbounding := hraw.bounding
    refine ⟨ofJson_toJson hbounding, decode_filled (stated raw), ?_⟩
    obtain ⟨limit, hlimit, -, hle⟩ := hbounding
    refine ⟨limit, hlimit, fun w reader n before rest f h hf hn => ?_⟩
    have hcorrupt := corruptFrom_some (whole_number hlimit)
    rw [min_eq_left hle] at hcorrupt
    exact countTooLarge_iff h hf hn hcorrupt

/-- A configuration that states a bound of five. -/
def boundedByFive : Json :=
  .object [(Text.ofString "attach", .object [(Text.ofString "maxCount", .number (ofNat 5))])]

/-- A field of five bytes. -/
def fiveBytes : FieldReading := ⟨[97], .u8, 1, [0, 0, 0], 5, [1, 2, 3, 4, 5]⟩

/-- A reader in front of it. -/
def atFiveBytes : World :=
  { World.empty with
    memory := ⟨#[fiveBytes.bytes], 0, Inhabited.default⟩
    readers := #[⟨⟨0, 0, 29, false⟩, 0, none⟩] }

/-- Under the bound the field is refused, and without one it is decoded. -/
theorem ofJson_agrees_boundedByFive :
    ∃ c, ofJson boundedByFive = .ok c ∧ ofJson c.toJson = .ok c ∧
      (∃ count least w', decodeField 0 c.policy atFiveBytes = .error (.countTooLarge count least) w') ∧
      (answer? (decodeField 0 {} atFiveBytes)).isSome = true := by
  have hfive : (ofNat 5).toInt? = some 5 := (whole_ofNat (n := 5) (by decide)).toInt?
  have hat : atFiveBytes.At 0 [] (fiveBytes.description ++ (Word.encode 8 5 ++ [1, 2, 3, 4, 5])) :=
    ⟨by decide, ⟨by decide, by decide⟩, by decide, by decide, rfl⟩
  have hdescribed : fiveBytes.Described 0 := ⟨by decide, by decide, by decide, by decide⟩
  have hraw : Acceptable boundedByFive := by
    refine ⟨rfl, fun _ h => (by cases h), fun _ h => (by cases h), ?_⟩
    intro attach hattach
    obtain rfl := Option.some.inj hattach
    refine ⟨rfl, fun _ h => (by cases h), fun v hv => ?_⟩
    exact ⟨ofNat 5, (Option.some.inj hv).symm, 5, hfive, by decide, by decide⟩
  obtain ⟨haccepted, hagrees, -⟩ := ofJson_agrees boundedByFive
  obtain ⟨c, hc⟩ := haccepted.2 hraw
  obtain ⟨hsame, -, limit, hlimit, hcorrupt⟩ := hagrees c hc
  have hbound : c.bound = ofNat 5 := by
    have hstated : (stated boundedByFive).bound = some (ofNat 5) := rfl
    rw [(ofJson_ok_iff.1 hc).2, Stated.filled, hstated, Option.getD_some]
  rw [hbound, hfive] at hlimit
  cases hlimit
  exact ⟨c, hc, hsame, (hcorrupt atFiveBytes 0 5 [] _ fiveBytes hat hdescribed (by decide)).2 (by decide),
    by decide +kernel⟩

end Config

end LeaseVec
