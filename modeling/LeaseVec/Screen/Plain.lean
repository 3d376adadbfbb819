import LeaseVec.Screen.Node

/-!
# Views as plain text

A node is laid out as lines without colours: the children of a row stand side by side, those of a
column one under the other, and a box with a width is filled up to it with blanks.
-/

namespace LeaseVec.Screen

/-- A line filled up with blanks to a length. -/
def fill (length : Nat) (line : Text) : Text := line ++ List.replicate (length - line.length) 0x20

/-- The length of the longest line. -/
def extent (lines : List Text) : Nat := lines.foldl (fun n line => max n line.length) 0

/-- Two blocks of lines side by side. -/
def beside (left right : List Text) : List Text :=
  let room := extent left
  (List.range (max left.length right.length)).map fun i =>
    fill room (left.getD i []) ++ right.getD i []

/-- Fill a block up to a width where one is set. -/
def widen (width : Option Number.Binary64) (lines : List Text) : List Text :=
  match width.bind Number.Binary64.toNat? with
  | some n => lines.map (fill n)
  | none => lines

mutual

/-- The lines of a node. -/
def Node.lines : Node → List Text
  | .text content _ => [content]
  | .box children direction width => widen width (blockLines direction children)

/-- The lines of nodes that stand in a direction. -/
def blockLines (direction : Direction) : List Node → List Text
  | [] => []
  | n :: rest =>
    match direction with
    | .row => beside n.lines (blockLines direction rest)
    | .column => n.lines ++ blockLines direction rest

end

end LeaseVec.Screen
