import LeaseVec.Bundle.Basic

/-!
# Configuration

A configuration says how bundles are attached and what is checked. A raw value is accepted when every
entry that it has is of the right type; what it leaves out takes the default.
-/

namespace LeaseVec

open Number

structure Config where
  /-- Whether fields may stay where they are in the bytes of a region. -/
  inPlace : Bool
  /-- Counts at or above this are corrupt. -/
  bound : Binary64
  /-- Whether unchecked reads check their index all the same. -/
  checked : Bool
  /-- Whether a survey logs every field. -/
  debug : Bool
  deriving DecidableEq

namespace Config

/-- The largest bound on counts, `2 ^ 40`. -/
def largestBound : Nat := 0x10000000000

def default : Config := ⟨true, Binary64.ofNat largestBound, false, false⟩

/-- An entry that may be left out and has to be a boolean. -/
def optionalBool (raw : Json) (key : String) (place : String) :
    Except ConfigFault (Option Bool) :=
  match raw.get? (Text.ofString key) with
  | none => .ok none
  | some (.bool b) => .ok (some b)
  | some _ => .error (.notBoolean s!"{place}.{key}")

/-- The bound on counts, which may be left out. -/
def optionalBound (attach : Json) : Except ConfigFault (Option Binary64) :=
  match attach.get? (Text.ofString "maxCount") with
  | none => .ok none
  | some (.number x) =>
    match x.toInt? with
    | some i => if 1 ≤ i ∧ i ≤ largestBound then .ok (some x) else .error .badBound
    | none => .error .badBound
  | some _ => .error .badBound

/-- The configuration that a raw value gives. -/
def ofJson (raw : Json) : Except ConfigFault Config := do
  if !raw.isContainer then throw .notObject
  let checked ← optionalBool raw "assertions" "config"
  let debug ← optionalBool raw "debug" "config"
  let c : Config :=
    { default with
      checked := checked.getD default.checked
      debug := debug.getD default.debug }
  match raw.get? (Text.ofString "attach") with
  | none => return c
  | some attach =>
    if !attach.isContainer then throw .attachNotObject
    let inPlace ← optionalBool attach "zeroCopy" "config.attach"
    let bound ← optionalBound attach
    return { c with
      inPlace := inPlace.getD default.inPlace
      bound := bound.getD default.bound }

/-- The configuration as a raw value. -/
def toJson (c : Config) : Json :=
  .object [
    (Text.ofString "attach", .object [
      (Text.ofString "zeroCopy", .bool c.inPlace),
      (Text.ofString "maxCount", .number c.bound)]),
    (Text.ofString "assertions", .bool c.checked),
    (Text.ofString "debug", .bool c.debug)]

/-- How bundles are decoded under a configuration. -/
def policy (c : Config) : Bundle.Policy := ⟨⟨c.inPlace, some (.number c.bound)⟩, c.checked⟩

end Config

end LeaseVec
