import LeaseVec.World.Basic

/-!
# Regions

A region keeps the bytes it is given when they start at a multiple of eight in their buffer, and a
slice of them otherwise, which of plain bytes is a copy, so that elements of every kind can be viewed in
place. Bytes that share stay where they are. Closing a region ends every borrow at once.
-/

namespace LeaseVec.World

/-- The boundary on which lent bytes start. -/
def boundary : Nat := 8

/-- The bytes themselves when they start on the boundary, or else a slice of them. -/
def onBoundary (r : ByteRange) : Action ByteRange := fun w =>
  if r.offset % boundary = 0 then .ok r w else slice r w

/-- A new region over bytes. -/
def lend (r : ByteRange) (label : Text) : Action Nat := do
  let held ← onBoundary r
  let w ← get
  set { w with regions := w.regions.push ⟨label, r.length, some held⟩ }
  return w.regions.size

/-- Whether borrows from a region are still good. -/
def isOpen (w : World) (id : Nat) : Bool := (w.region id).isOpen

/-- The fault of using a borrow from a region that is closed. -/
def ended (w : World) (id : Nat) : Fault := .borrowEnded (w.region id).label

/-- The bytes of a region that is open. -/
def lentBytes (w : World) (id : Nat) : Except Fault ByteRange :=
  match (w.region id).held with
  | some r => .ok r
  | none => .error (w.ended id)

/-- End every borrow from a region. -/
def close (id : Nat) : Action Unit :=
  modify fun w => { w with regions := w.regions.modify id fun r => { r with held := none } }

end LeaseVec.World
