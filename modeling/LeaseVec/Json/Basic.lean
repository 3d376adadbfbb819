import LeaseVec.Number.Arithmetic
import LeaseVec.Text.Basic

/-!
# JSON values

Objects keep their members in the order in which they are enumerated: names that are array indices
come first, in ascending order, then the others as they were added. Adding a name again replaces the
value and keeps the place.
-/

namespace LeaseVec

open Number

inductive Json where
  | null
  | bool (value : Bool)
  | number (value : Binary64)
  | string (value : Text)
  | array (items : List Json)
  | object (members : List (Text × Json))
  deriving Inhabited

namespace Json

/-- The array index that a name spells: digits without a leading zero, below `2 ^ 32 - 1`. -/
def arrayIndex? (name : Text) : Option Nat :=
  let isDigit := fun u : UInt16 => 0x30 ≤ u && u ≤ 0x39
  let value := name.foldl (fun n u => n * 10 + (u.toNat - 0x30)) 0
  if name.isEmpty || !name.all isDigit || 10 < name.length then none
  else if 1 < name.length && name.head? = some 0x30 then none
  else if value < 4294967295 then some value
  else none

/-- Insert a member whose name is new, keeping the order of enumeration. -/
def insertNew {α : Type} (name : Text) (value : α) : List (Text × α) → List (Text × α)
  | [] => [(name, value)]
  | (n, v) :: rest =>
    match arrayIndex? name, arrayIndex? n with
    | some i, some j => if i < j then (name, value) :: (n, v) :: rest
        else (n, v) :: insertNew name value rest
    | some _, none => (name, value) :: (n, v) :: rest
    | none, _ => (n, v) :: insertNew name value rest

/-- Put a member: replace the value of a known name, or insert a new one. -/
def put {α : Type} (name : Text) (value : α) (members : List (Text × α)) : List (Text × α) :=
  if members.any (fun m => m.1 = name) then
    members.map fun m => if m.1 = name then (m.1, value) else m
  else insertNew name value members

/-- The members in the order of enumeration, later ones of a name replacing earlier ones. -/
def collect {α : Type} (members : List (Text × α)) : List (Text × α) :=
  members.foldl (fun acc m => put m.1 m.2 acc) []

/-- The value of a name. -/
def lookup? {α : Type} (name : Text) (members : List (Text × α)) : Option α :=
  (members.find? fun m => m.1 = name).map (·.2)

/-- The member of a value under a name; values that are not objects have none. -/
def get? (name : Text) : Json → Option Json
  | object members => lookup? name members
  | _ => none

/-- Whether a value is an object or an array. -/
def isContainer : Json → Bool
  | array _ | object _ => true
  | _ => false

/-- Whether a value has a name of its own. An array has its indices and its length. -/
def owns (name : Text) : Json → Bool
  | object members => (lookup? name members).isSome
  | array items =>
    name = Text.ofString "length" ||
      match arrayIndex? name with
      | some i => i < items.length
      | none => false
  | _ => false

end Json

end LeaseVec
