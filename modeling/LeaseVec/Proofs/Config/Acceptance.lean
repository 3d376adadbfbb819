import LeaseVec.Config.Basic
import LeaseVec.Proofs.Number.Whole
import LeaseVec.Proofs.Outcome

/-!
# Which values are configurations

A raw value is accepted entry by entry, and an accepted one gives the configuration that has what the value states
and the defaults for the rest. A configuration that is given back as a raw value is accepted and stays the same.
-/

namespace LeaseVec.Config

open Number Number.Binary64

/-- An entry is left out or a boolean. -/
def BoolEntry (raw : Json) (key : String) : Prop :=
  ∀ v, raw.get? (Text.ofString key) = some v → ∃ b, v = .bool b

/-- A number that may be a bound on counts: an integer from `1` to `2 ^ 40`. -/
def Bounding (x : Binary64) : Prop := ∃ i : Int, x.toInt? = some i ∧ 1 ≤ i ∧ i ≤ 2 ^ 40

theorem whole_number {x : Binary64} {i : Int} (h : x.toInt? = some i) : (Scalar.number x).whole = .ok i := by
  simp only [Scalar.whole, h]

/-- The bound is left out or a number that may be one. -/
def BoundEntry (attach : Json) : Prop :=
  ∀ v, attach.get? (Text.ofString "maxCount") = some v → ∃ x, v = .number x ∧ Bounding x

/-- The boolean that an entry states. -/
def bool? (raw : Json) (key : String) : Option Bool :=
  match raw.get? (Text.ofString key) with
  | some (.bool b) => some b
  | _ => none

/-- The number that an entry states. -/
def number? (raw : Json) (key : String) : Option Binary64 :=
  match raw.get? (Text.ofString key) with
  | some (.number x) => some x
  | _ => none

theorem optionalBool_ok_iff {raw : Json} {key place : String} {o : Option Bool} :
    optionalBool raw key place = .ok o ↔ BoolEntry raw key ∧ o = bool? raw key := by
  unfold optionalBool BoolEntry bool?
  cases raw.get? (Text.ofString key) with
  | none => simp [eq_comm]
  | some v => cases v <;> simp [eq_comm]

theorem optionalBound_ok_iff {attach : Json} {o : Option Binary64} :
    optionalBound attach = .ok o ↔ BoundEntry attach ∧ o = number? attach "maxCount" := by
  unfold optionalBound BoundEntry number?
  cases attach.get? (Text.ofString "maxCount") with
  | none => simp [eq_comm]
  | some v =>
    cases v with
    | number x =>
      cases hx : x.toInt? with
      | none => simp [Bounding, hx]
      | some i =>
        have hin : Bounding x ↔ 1 ≤ i ∧ i ≤ largestBound := by simp [Bounding, hx, largestBound]
        simp only [hx]
        split_ifs with hi
        · simp [hin.2 hi, eq_comm]
        · simp [hin.not.2 hi]
    | _ => simp

/-- What a value has to be to be accepted. -/
structure Acceptable (raw : Json) : Prop where
  container : raw.isContainer = true
  checked : BoolEntry raw "assertions"
  debug : BoolEntry raw "debug"
  attach : ∀ attach, raw.get? (Text.ofString "attach") = some attach →
    attach.isContainer = true ∧ BoolEntry attach "zeroCopy" ∧ BoundEntry attach

/-- What a value states; the rest is left out. -/
structure Stated where
  inPlace : Option Bool
  bound : Option Binary64
  checked : Option Bool
  debug : Option Bool

def stated (raw : Json) : Stated where
  inPlace := (raw.get? (Text.ofString "attach")).bind (bool? · "zeroCopy")
  bound := (raw.get? (Text.ofString "attach")).bind (number? · "maxCount")
  checked := bool? raw "assertions"
  debug := bool? raw "debug"

/-- What is left out takes the default of a configuration. -/
def Stated.filled (s : Stated) : Config where
  inPlace := s.inPlace.getD default.inPlace
  bound := s.bound.getD default.bound
  checked := s.checked.getD default.checked
  debug := s.debug.getD default.debug

theorem ofJson_ok_iff {raw : Json} {c : Config} :
    ofJson raw = .ok c ↔ Acceptable raw ∧ c = (stated raw).filled := by
  unfold ofJson
  rw [Outcome.check_ok_iff]
  constructor
  · rintro ⟨hcontainer, h⟩
    obtain ⟨checked, hchecked, h⟩ := Outcome.bind_ok_iff.1 h
    obtain ⟨debug, hdebug, h⟩ := Outcome.bind_ok_iff.1 h
    obtain ⟨hcheckedEntry, rfl⟩ := optionalBool_ok_iff.1 hchecked
    obtain ⟨hdebugEntry, rfl⟩ := optionalBool_ok_iff.1 hdebug
    cases ha : raw.get? (Text.ofString "attach") with
    | none =>
      rw [ha] at h
      cases h
      refine ⟨⟨by simpa using hcontainer, hcheckedEntry, hdebugEntry, by simp [ha]⟩, ?_⟩
      unfold stated
      rw [ha]
      rfl
    | some attach =>
      rw [ha] at h
      obtain ⟨hattach, h⟩ := Outcome.check_ok_iff.1 h
      obtain ⟨inPlace, hinPlace, h⟩ := Outcome.bind_ok_iff.1 h
      obtain ⟨bound, hbound, h⟩ := Outcome.bind_ok_iff.1 h
      obtain ⟨hinPlaceEntry, rfl⟩ := optionalBool_ok_iff.1 hinPlace
      obtain ⟨hboundEntry, rfl⟩ := optionalBound_ok_iff.1 hbound
      cases h
      refine ⟨⟨by simpa using hcontainer, hcheckedEntry, hdebugEntry, ?_⟩, ?_⟩
      · intro other hother
        cases ha.symm.trans hother
        exact ⟨by simpa using hattach, hinPlaceEntry, hboundEntry⟩
      · unfold stated
        rw [ha]
        rfl
  · rintro ⟨h, rfl⟩
    refine ⟨by simpa using h.container, ?_⟩
    refine Outcome.bind_ok_iff.2 ⟨_, optionalBool_ok_iff.2 ⟨h.checked, rfl⟩, ?_⟩
    refine Outcome.bind_ok_iff.2 ⟨_, optionalBool_ok_iff.2 ⟨h.debug, rfl⟩, ?_⟩
    unfold stated
    cases ha : raw.get? (Text.ofString "attach") with
    | none => rfl
    | some attach =>
      obtain ⟨hattach, hinPlace, hbound⟩ := h.attach attach ha
      refine Outcome.check_ok_iff.2 ⟨by simpa using hattach, ?_⟩
      refine Outcome.bind_ok_iff.2 ⟨_, optionalBool_ok_iff.2 ⟨hinPlace, rfl⟩, ?_⟩
      exact Outcome.bind_ok_iff.2 ⟨_, optionalBound_ok_iff.2 ⟨hbound, rfl⟩, rfl⟩

theorem acceptable_empty : Acceptable (.object []) where
  container := rfl
  checked := fun _ h => by cases h
  debug := fun _ h => by cases h
  attach := fun _ h => by cases h

theorem filled_nothing : (Stated.mk none none none none).filled = default := by
  unfold Stated.filled
  -- the bound of the default is a double, and must not be computed
  generalize default = d
  rfl

/-- Where nothing is stated everything takes its default. -/
theorem ofJson_empty : ofJson (.object []) = .ok default :=
  ofJson_ok_iff.2 ⟨acceptable_empty, filled_nothing.symm⟩

theorem toInt?_default_bound : default.bound.toInt? = some (2 ^ 40) := by
  have hwhole : Whole (ofNat largestBound) largestBound := whole_ofNat (by decide)
  -- the double must not be computed
  have hbound : default.bound = ofNat largestBound := by rw [default]
  rw [hbound, hwhole.toInt?]
  rfl

/-- Whether it is stated or left out, the bound is one. -/
theorem Acceptable.bounding {raw : Json} (h : Acceptable raw) : Bounding (stated raw).filled.bound := by
  have hdefault : Bounding default.bound := ⟨2 ^ 40, toInt?_default_bound, by decide, le_rfl⟩
  unfold stated Stated.filled
  cases ha : raw.get? (Text.ofString "attach") with
  | none => simpa using hdefault
  | some attach =>
    obtain ⟨-, -, hbound⟩ := h.attach attach ha
    cases hv : attach.get? (Text.ofString "maxCount") with
    | none => simpa [number?, hv] using hdefault
    | some v =>
      obtain ⟨x, rfl, hx⟩ := hbound v hv
      simpa [number?, hv] using hx

/-- The value of the entry `attach`. -/
def attachJson (c : Config) : Json :=
  .object [(Text.ofString "zeroCopy", .bool c.inPlace), (Text.ofString "maxCount", .number c.bound)]

theorem stated_toJson (c : Config) :
    stated c.toJson = ⟨some c.inPlace, some c.bound, some c.checked, some c.debug⟩ := rfl

theorem acceptable_toJson {c : Config} (h : Bounding c.bound) : Acceptable c.toJson where
  container := rfl
  checked := by
    intro v hv
    exact ⟨c.checked, (Option.some.inj hv).symm⟩
  debug := by
    intro v hv
    exact ⟨c.debug, (Option.some.inj hv).symm⟩
  attach := by
    intro attach hattach
    obtain rfl : c.attachJson = attach := Option.some.inj hattach
    refine ⟨rfl, ?_, ?_⟩
    · intro v hv
      exact ⟨c.inPlace, (Option.some.inj hv).symm⟩
    · intro v hv
      exact ⟨c.bound, (Option.some.inj hv).symm, h⟩

/-- A configuration with a bound that may be one is a raw value of itself. -/
theorem ofJson_toJson {c : Config} (h : Bounding c.bound) : ofJson c.toJson = .ok c := by
  rw [ofJson_ok_iff, stated_toJson]
  exact ⟨acceptable_toJson h, rfl⟩

end LeaseVec.Config
