import LeaseVec.World.Region

/-!
# Vectors

Reads never copy and never change the world. Every change first takes the vector to owned storage:
`own` copies a borrowed view once, reports it, and forgets the view.
-/

namespace LeaseVec.World

open Number

/-- A new vector without elements. -/
def newVec (kind : Kind) (checked : Bool) : Action Nat := fun w =>
  .ok w.vecs.size { w with vecs := w.vecs.push (.new kind checked) }

/-- The elements of a vector as a view, with the serial number that the next view gets. A vector
without storage has a view of nothing. -/
def viewOf (w : World) (v : Vec) : Except Fault View :=
  match v.holding with
  | .owned a => .ok (a.data w.memory.views)
  | .borrowed view region => if w.isOpen region then .ok view else .error (w.ended region)
  | .empty => .ok ⟨v.kind, w.memory.buffers.size, 0, 0, w.memory.views⟩

/-- The elements of a vector. -/
def elements (w : World) (v : Vec) : Except Fault (List Scalar) :=
  (w.viewOf v).map w.memory.elements

/-- The label of the region that lends the elements. -/
def lenderLabel? (w : World) (v : Vec) : Option Text :=
  v.lender?.map fun region => (w.region region).label

/-- The view of a vector's elements, kept by the caller. -/
def shareView (id : Nat) : Action View := do
  let w ← get
  let view ← Action.ofExcept (w.viewOf (w.vec id))
  if (w.vec id).mode = .empty then
    let _ ← alloc []
  let _ ← nextSerial
  return view

/-- Whether a vector's elements are the very view given. -/
def isView (w : World) (v : Vec) (view : View) : Except Fault Bool :=
  (w.viewOf v).map fun own => own.serial = view.serial

/-- Checked read. -/
def at? (w : World) (v : Vec) (index : Binary64) : Except Fault (Option Scalar) := do
  let view ← w.viewOf v
  let _ ← acceptIndex index view.length
  return w.memory.element? view index

/-- Unchecked read: outside the elements there is no result, unless the vector checks. -/
def get? (w : World) (v : Vec) (index : Binary64) : Except Fault (Option Scalar) := do
  let view ← w.viewOf v
  if v.checked then
    let _ ← acceptIndex index view.length
  return w.memory.element? view index

def front? (w : World) (v : Vec) : Except Fault (Option Scalar) := w.at? v 0

def back? (w : World) (v : Vec) : Except Fault (Option Scalar) := w.at? v (v.count - 1)

/-- Attach a view that a region lends. A vector that owns its storage refuses. -/
def attach (id : Nat) (view : View) (region : Nat) : Action Unit := do
  let w ← get
  if (w.vec id).mode = .owned then throw .alreadyOwned
  if w.isOpen region then set (w.setHolding id (.borrowed view region))
  else throw (w.ended region)

/-- Take a vector to owned storage, which is the answer. -/
def own (id : Nat) : Action Growable := do
  let w ← get
  let v := w.vec id
  match v.holding with
  | .owned a => return a
  | .empty =>
    let (a, m) := Growable.ofWords w.memory v.kind []
    set ({ w with memory := m }.setHolding id (.owned a))
    return a
  | .borrowed view region =>
    if w.isOpen region then
      Action.demand (view.kind.sameSort v.kind)
      let (a, m) := Growable.ofView w.memory v.kind view
      let event : Promotion := ⟨v.kind, a.length, (w.region region).label⟩
      set ({ w with memory := m, promotions := w.promotions.push event }.setHolding id (.owned a))
      return a
    else throw (w.ended region)

/-- Change the owned storage of a vector. When the change fails the vector stays owned. -/
def changeOwned (id : Nat) (change : Memory → Growable → Except Fault (Growable × Memory)) :
    Action Unit := do
  let a ← own id
  let w ← get
  let (a, m) ← Action.ofExcept (change w.memory a)
  set ({ w with memory := m }.setHolding id (.owned a))

/-- Checked write. -/
def setAt (id : Nat) (index : Binary64) (value : Scalar) : Action Unit := do
  let w ← get
  let i ← Action.ofExcept (acceptIndex index (w.vec id).size)
  if (w.vec id).kind.admits value then
    changeOwned id fun m a => .ok (a, m.writeWords a.slots i [a.kind.store value])
  else
    let _ ← own id
    throw .sortRefused

/-- The view of the elements for writing. -/
def writableView (id : Nat) : Action View := do
  let a ← own id
  return a.data (← nextSerial)

/-- Make room in the owned storage of a vector, and refuse a scalar of the wrong sort. -/
def refuse (id : Nat) (extra : Growable → Binary64) : Action Unit := do
  changeOwned id fun m a => (a.reserve m (extra a)).map (·.2)
  throw .sortRefused

/-- Add an element at the end. -/
def push (id : Nat) (value : Scalar) : Action Unit := do
  if ((← get).vec id).kind.admits value then changeOwned id fun m a => a.push m value
  else refuse id fun _ => 1

/-- Remove the last element, which is the answer. -/
def pop (id : Nat) : Action (Option Scalar) := do
  let a ← own id
  let w ← get
  let (x, a) := a.pop w.memory
  set (w.setHolding id (.owned a))
  return x

/-- Cut or extend; without a fill value new elements are zero. Where nothing is filled the fill value is
not looked at. -/
def resize (id : Nat) (length : Binary64) (fill : Option Scalar) : Action Unit := do
  if (lengthOf? length).isNone then throw (.invalidSize length)
  let v := (← get).vec id
  if v.kind.admits (fill.getD v.kind.zero) || !fills v.size length then
    changeOwned id fun m a => a.resize m length (fill.getD a.kind.zero)
  else refuse id fun a => length - a.size

/-- Exchange the elements with an array of the same kind. -/
def swapWith (id array : Nat) : Action Unit := do
  let w ← get
  let want := (w.vec id).kind
  let got := (w.array array).kind
  if want ≠ got then throw (.kindsDiffer want got)
  let a ← own id
  modify fun w => (w.setHolding id (.owned (w.array array))).setArray array a

/-- Back to no storage at all. -/
def clear (id : Nat) : Action Unit := modify fun w => w.setHolding id .empty

def iterate (vec : Nat) : Action Nat := fun w =>
  .ok w.iterations.size { w with iterations := w.iterations.push (.fresh vec) }

/-- The kind of the elements that an iteration delivers. -/
def iteratedKind (w : World) (id : Nat) : Kind := (w.vec (w.iteration id).vec).kind

/-- Deliver the element at a position of the view of an iteration, or end it. -/
def deliver (id vec : Nat) (view : View) (position : Nat) : Action (Option Scalar) := do
  let w ← get
  match w.memory.elementAt? view position with
  | some x =>
    set (w.setIteration id (.running vec view (position + 1)))
    return some x
  | none =>
    set (w.setIteration id (.finished vec))
    return none

/-- The next element, or none at the end. An iteration that fails is at its end. -/
def next (id : Nat) : Action (Option Scalar) := do
  let w ← get
  match w.iteration id with
  | .finished _ => return none
  | .running vec view position => deliver id vec view position
  | .fresh vec =>
    match w.viewOf (w.vec vec) with
    | .ok view => deliver id vec view 0
    | .error e =>
      set (w.setIteration id (.finished vec))
      throw e

end LeaseVec.World
