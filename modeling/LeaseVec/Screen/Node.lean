import LeaseVec.Fault

/-!
# Screen nodes

What is shown is a tree of texts and boxes. The parts below are the ones that the views are built
from. Lengths of text count units.
-/

namespace LeaseVec.Screen

open Number

inductive Direction where
  | row
  | column
  deriving DecidableEq

inductive Node where
  | text (content : Text) (color : Option Text)
  | box (children : List Node) (direction : Direction) (width : Option Binary64)

def cyan : Option Text := some (Text.ofString "cyan")

def gray : Option Text := some (Text.ofString "gray")

/-- The second line of a title: none, one, or several. -/
def subtitles (lines : List Text) : List Node := lines.map fun t => .text t gray

/-- A title over its subtitles. -/
def title (label : Text) (lines : List Text) : Node :=
  .box (.text label cyan :: subtitles lines) .column none

/-- The width of a line where none is given: the terminal's less a margin, at least eight, or sixty
where the terminal's is not known. -/
def lineWidth (width columns : Option Binary64) : Binary64 :=
  match width with
  | some w => w
  | none =>
    match columns with
    | some c =>
      if c.isZero || c.isNaN then 60
      else
        let w := c - 4
        if w.lt 8 then 8 else w
    | none => 60

/-- A text written a number of times; the number is cut to a whole one. -/
def repeated (t : Text) (count : Binary64) : Except Fault Text :=
  let times := count.truncate?.getD 0
  match count with
  | .infinite _ => .error .repeatRefused
  | _ =>
    if times < 0 then .error .repeatRefused
    else if t.isEmpty then .ok []
    else if Text.longest < t.length * times.toNat then .error .repeatRefused
    else .ok (Text.times times.toNat t)

/-- The character of lines that are drawn across. -/
def lineChar : Text := Text.ofString "─"

/-- A line across. -/
def line (width columns : Option Binary64) (char : Text) : Except Fault Node :=
  (repeated char (lineWidth width columns)).map fun t => .text t gray

/-- A hint line. -/
def hint (t : Text) : Node := .text t gray

/-- The first units of a text, up to a position that is cut to a whole number. -/
def upTo (t : Text) (position : Binary64) : Text :=
  match position with
  | .infinite negative => if negative then [] else t
  | x =>
    let i := x.truncate?.getD 0
    if i < 0 then t.take (t.length - i.natAbs) else t.take i.toNat

/-- A text cut to fit a column, with an ellipsis in place of what is missing. -/
def cut (t : Text) (width : Binary64) : Text :=
  if (width - 1).lt (Binary64.ofNat t.length) then
    let room := width - 2
    upTo t (if room.lt 0 then 0 else room) ++ Text.ofString "…"
  else t

/-- A cell of fixed width. -/
def cell (t : Text) (width : Binary64) (color : Option Text) : Node :=
  .box [.text (cut t width) color] .row (some width)

end LeaseVec.Screen
