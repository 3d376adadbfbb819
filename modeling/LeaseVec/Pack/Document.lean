import LeaseVec.Fault

/-!
# Field documents

A JSON document that describes the fields of a bundle: an object with an array of `fields`, each with
a name, a kind, a stride that may be left out, and values. Every value has to fit its kind, so that
nothing is wrapped or cut when it is stored. The first departure from the rules is reported.
-/

namespace LeaseVec.Pack

open Number

/-- A described field. -/
structure FieldSpec where
  name : Text
  kind : Kind
  stride : Binary64
  values : List Scalar
  deriving DecidableEq

/-- Whether a text is decimal digits after an optional minus. -/
def isDecimal (t : Text) : Bool :=
  let digits := if t.head? = some 0x2d then t.drop 1 else t
  !digits.isEmpty && digits.all fun u => 0x30 ≤ u && u ≤ 0x39

/-- The natural number that digits spell. -/
def digitsValue (digits : Text) : Nat :=
  digits.foldl (fun n u => n * 10 + (u.toNat - 0x30)) 0

/-- The integer of a decimal text. -/
def decimalValue (t : Text) : Int :=
  if t.head? = some 0x2d then -(digitsValue (t.drop 1) : Int) else digitsValue t

/-- The greatest integer up to which doubles tell integers apart. -/
def safeBound : Int := 0x1fffffffffffff

/-- The integer that a number or a decimal text gives exactly. -/
def wholeValue? : Json → Option Int
  | .number x =>
    match x.toInt? with
    | some i => if -safeBound ≤ i ∧ i ≤ safeBound then some i else none
    | none => none
  | .string t => if isDecimal t then some (decimalValue t) else none
  | _ => none

/-- A value of an eight-byte integer kind. -/
def wideValue (kind : Kind) (field index : Nat) (v : Json) : Except DocumentFault Scalar :=
  match wholeValue? v with
  | none => .error (.notInteger field index v)
  | some i =>
    if i < kind.range.1 ∨ kind.range.2 < i then .error (.outOfRange field index i kind)
    else .ok (.integer i)

/-- A value of a kind whose elements are doubles. -/
def numberValue (kind : Kind) (field index : Nat) (v : Json) : Except DocumentFault Scalar :=
  match v with
  | .number x =>
    if kind.isFloat then
      if !x.isFinite || (kind = .f32 && Binary32.largest.lt x.abs) then
        .error (.notFinite field index x kind)
      else .ok (.number x)
    else
      match x.toInt? with
      | some i =>
        if i < kind.range.1 ∨ kind.range.2 < i then .error (.notInRange field index x kind)
        else .ok (.number x)
      | none => .error (.notInRange field index x kind)
  | _ => .error (.notNumber field index v)

def value (kind : Kind) (field index : Nat) (v : Json) : Except DocumentFault Scalar :=
  if kind.isWide then wideValue kind field index v else numberValue kind field index v

/-- The values of a field, from an index on. -/
def values (kind : Kind) (field : Nat) : Nat → List Json → Except DocumentFault (List Scalar)
  | _, [] => .ok []
  | index, v :: rest => do
    let x ← value kind field index v
    let xs ← values kind field (index + 1) rest
    return x :: xs

/-- The stride of a field; one when it is left out. -/
def stride (field : Nat) : Option Json → Except DocumentFault Binary64
  | none => .ok 1
  | some (.number x) =>
    match x.toNat? with
    | some n => if 1 ≤ n then .ok x else .error (.badStride field)
    | none => .error (.badStride field)
  | some _ => .error (.badStride field)

/-- One field of the document. -/
def field (i : Nat) (raw : Json) : Except DocumentFault FieldSpec := do
  if !raw.isContainer then throw (.notObject i)
  match raw.get? (Text.ofString "name") with
  | some (.string name) =>
    if name.isEmpty then throw (.noName i)
    match raw.get? (Text.ofString "kind") with
    | some (.string kindName) =>
      match Kind.ofName? kindName with
      | none => throw (.noKind i)
      | some kind =>
        let s ← stride i (raw.get? (Text.ofString "stride"))
        match raw.get? (Text.ofString "values") with
        | some (.array items) =>
          if !(Binary64.ofNat items.length % s).isZero then
            throw (.unevenGroups i items.length s)
          let xs ← values kind i 0 items
          return ⟨name, kind, s, xs⟩
        | _ => throw (.noValues i)
    | _ => throw (.noKind i)
  | _ => throw (.noName i)

/-- The fields of the document, from a position on. -/
def fieldsFrom : Nat → List Json → Except DocumentFault (List FieldSpec)
  | _, [] => .ok []
  | i, raw :: rest => do
    let f ← field i raw
    let fs ← fieldsFrom (i + 1) rest
    return f :: fs

/-- The first name that occurs a second time. -/
def repeated? (seen : List Text) : List Text → Option Text
  | [] => none
  | name :: rest => if name ∈ seen then some name else repeated? (name :: seen) rest

/-- The fields that a document describes. -/
def fields (raw : Json) : Except DocumentFault (List FieldSpec) :=
  match raw.get? (Text.ofString "fields") with
  | some (.array items) => do
    let fs ← fieldsFrom 0 items
    match repeated? [] (fs.map (·.name)) with
    | some name => throw (.duplicateName name)
    | none => return fs
  | _ => .error .noFields

end LeaseVec.Pack
