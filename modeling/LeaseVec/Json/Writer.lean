import LeaseVec.Json.Basic
import LeaseVec.Number.Decimal

/-!
# Writing JSON

The compact form: no blanks, members in the order of enumeration, numbers by their shortest digits,
and `null` for numbers that are not finite. Surrogates that stand alone are escaped.
-/

namespace LeaseVec.Json

open Number

def hexChar (n : Nat) : UInt16 := UInt16.ofNat (if n < 10 then 0x30 + n else 0x57 + n)

/-- A unit as a backslash, `u` and four hexadecimal digits. -/
def escapedUnit (u : UInt16) : Text :=
  let n := u.toNat
  [0x5c, 0x75, hexChar (n / 4096 % 16), hexChar (n / 256 % 16), hexChar (n / 16 % 16),
    hexChar (n % 16)]

/-- A unit inside quotes, where it is not half of a pair. -/
def quotedUnit (u : UInt16) : Text :=
  if u = 0x22 || u = 0x5c then [0x5c, u]
  else if u = 0x08 then [0x5c, 0x62]
  else if u = 0x0c then [0x5c, 0x66]
  else if u = 0x0a then [0x5c, 0x6e]
  else if u = 0x0d then [0x5c, 0x72]
  else if u = 0x09 then [0x5c, 0x74]
  else if u < 0x20 || Text.isLead u || Text.isTrail u then escapedUnit u
  else [u]

/-- The inside of a quoted text. -/
def quotedUnits : Text → Text
  | [] => []
  | [u] => quotedUnit u
  | u :: v :: rest =>
    if Text.isLead u && Text.isTrail v then u :: v :: quotedUnits rest
    else quotedUnit u ++ quotedUnits (v :: rest)

def quoted (t : Text) : Text := 0x22 :: quotedUnits t ++ [0x22]

def numberText (x : Binary64) : Text :=
  if x.isFinite then Text.ofString x.render else Text.ofString "null"

mutual

/-- The compact text of a value. -/
def render : Json → Text
  | null => Text.ofString "null"
  | bool true => Text.ofString "true"
  | bool false => Text.ofString "false"
  | number x => numberText x
  | string t => quoted t
  | array items => 0x5b :: renderItems items ++ [0x5d]
  | object members => 0x7b :: renderMembers members ++ [0x7d]

def renderItems : List Json → Text
  | [] => []
  | [v] => render v
  | v :: w :: rest => render v ++ 0x2c :: renderItems (w :: rest)

def renderMembers : List (Text × Json) → Text
  | [] => []
  | [(n, v)] => quoted n ++ 0x3a :: render v
  | (n, v) :: m :: rest => quoted n ++ 0x3a :: render v ++ 0x2c :: renderMembers (m :: rest)

end

end LeaseVec.Json
