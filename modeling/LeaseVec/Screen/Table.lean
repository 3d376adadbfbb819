import LeaseVec.Screen.Node
import LeaseVec.Bundle.Rows

/-!
# The table of a bundle

The view of a bundle: a title, the names of the columns, a row for each field, and a summary.
-/

namespace LeaseVec.Screen

open Number

/-- A column: its heading, its width, and what it shows of a row. -/
structure Column where
  label : String
  width : Nat
  content : Bundle.Row → Text
  isMode : Bool := false

def numberText (x : Binary64) : Text := Text.ofString x.render

def columns : List Column := [
  { label := "field", width := 16, content := (·.name) },
  { label := "kind", width := 6, content := (·.kind) },
  { label := "stride", width := 8, content := fun r => numberText r.stride },
  { label := "count", width := 10, content := fun r => numberText r.count },
  { label := "mode", width := 10, content := (·.mode), isMode := true },
  { label := "bytes", width := 10, content := fun r => numberText r.bytes },
  { label := "values", width := 28, content := (·.preview) }]

def tableWidth : Nat := columns.foldl (fun n c => n + c.width) 0

/-- A borrowed field has its mode in green. -/
def cellColor (c : Column) (r : Bundle.Row) : Option Text :=
  if c.isMode && r.mode = Text.ofString Mode.borrowed.name then some (Text.ofString "green")
  else none

def headings : Node :=
  .box (columns.map fun c => cell (Text.ofString c.label) (Binary64.ofNat c.width) gray) .row none

def rowNode (r : Bundle.Row) : Node :=
  .box (columns.map fun c => cell (c.content r) (Binary64.ofNat c.width) (cellColor c r)) .row none

/-- A line as wide as the table. -/
def rule : Node := .text (Text.times tableWidth lineChar) gray

/-- The whole view. -/
def bundleView (file : Text) (bytes : Binary64) (rows : List Bundle.Row) : Node :=
  let subtitle := file ++ Text.ofString " (" ++ numberText bytes ++ Text.ofString " bytes)"
  .box ([title (Text.ofString "cowvec inspect") [subtitle], headings, rule] ++
    rows.map rowNode ++ [rule, hint (Bundle.summary (rows.map (·.mode)))]) .column none

end LeaseVec.Screen
