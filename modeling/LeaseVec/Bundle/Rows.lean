import LeaseVec.Bundle.Basic

/-!
# Rows of a bundle

One row per field, with what a table of the bundle shows: how many counted units the field has, how
many bytes its elements take, and its first values.
-/

namespace LeaseVec.Bundle

open Number

structure Row where
  name : Text
  kind : Text
  stride : Binary64
  count : Binary64
  mode : Text
  bytes : Binary64
  preview : Text

/-- How many values a row shows. -/
def previewLength : Binary64 := 4

/-- The first values with commas between them, and an ellipsis when there are more. -/
def preview (values : List Scalar) (most : Binary64) : Text :=
  let separator := Text.ofString ", "
  let all := values.map fun x => Text.ofString x.render
  match most.toNat? with
  | some n =>
    if n < values.length then Text.join separator (all.take n) ++ Text.ofString ", …"
    else Text.join separator all
  | none => Text.join separator all

/-- The row of a field. -/
def Field.row (w : World) (f : Field) : Except Fault Row := do
  let v := w.vec f.vec
  let values ← w.elements v
  return {
    name := f.name
    kind := Text.ofString v.kind.name
    stride := Binary64.ofNat f.stride
    count := v.count / Binary64.ofNat f.stride
    mode := Text.ofString f.attached.name
    bytes := Binary64.ofNat (v.size * v.kind.width)
    preview := preview values previewLength }

/-- The rows of a bundle, in the order of its fields. -/
def rows (w : World) (fields : List Field) : Except Fault (List Row) := fields.mapM (·.row w)

/-- How many fields there are, and how many of them are borrowed. -/
def summary (modes : List Text) : Text :=
  let borrowed := (modes.filter fun m => m = Text.ofString Mode.borrowed.name).length
  Text.ofString
    s!"{modes.length} fields · {borrowed} borrowed · {modes.length - borrowed} owned"

end LeaseVec.Bundle
