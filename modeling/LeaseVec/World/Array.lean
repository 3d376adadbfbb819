import LeaseVec.World.Basic

/-!
# Arrays

The operations of growable arrays on the arrays of the world, and new vectors from values.
-/

namespace LeaseVec.World

open Number

/-- Add an array together with the memory that it was made in. -/
def addArray (a : Growable) (m : Memory) : Action Nat := fun w =>
  .ok w.arrays.size { w with arrays := w.arrays.push a, memory := m }

def newArray (kind : Kind) (length : Binary64) (fill : Option Scalar) : Action Nat := do
  let (a, m) ← Action.ofExcept (Growable.create (← get).memory kind length fill)
  addArray a m

def arrayOfList (kind : Kind) (values : List Scalar) : Action Nat := do
  Action.demand (values.all kind.admits)
  let (a, m) := Growable.ofList (← get).memory kind values
  addArray a m

def arrayOfView (kind : Kind) (view : View) : Action Nat := do
  Action.demand (view.kind.sameSort kind)
  let (a, m) := Growable.ofView (← get).memory kind view
  addArray a m

/-- Change an array; when the change fails nothing has happened. -/
def changeArray (id : Nat) (change : Memory → Growable → Except Fault (Growable × Memory)) :
    Action Unit := do
  let w ← get
  let (a, m) ← Action.ofExcept (change w.memory (w.array id))
  set ({ w with memory := m }.setArray id a)

/-- Make room in an array; the answer says whether its elements moved. -/
def reserve (id : Nat) (extra : Binary64) : Action Bool := do
  let w ← get
  let (moved, a, m) ← Action.ofExcept ((w.array id).reserve w.memory extra)
  set ({ w with memory := m }.setArray id a)
  return moved

/-- Add an element at the end. A scalar of the wrong sort is refused once there is room for it. -/
def pushArray (id : Nat) (value : Scalar) : Action Unit := do
  if ((← get).array id).kind.admits value then changeArray id fun m a => a.push m value
  else
    let _ ← reserve id 1
    throw .sortRefused

def popArray (id : Nat) : Action (Option Scalar) := do
  let w ← get
  let (x, a) := (w.array id).pop w.memory
  set (w.setArray id a)
  return x

/-- Cut or extend an array. A fill value of the wrong sort is refused once there is room for it; where
nothing is filled it is not looked at. -/
def resizeArray (id : Nat) (length : Binary64) (fill : Scalar) : Action Unit := do
  let a := (← get).array id
  if a.kind.admits fill || !fills a.length length then changeArray id fun m a => a.resize m length fill
  else
    let _ ← reserve id (length - a.size)
    throw .sortRefused

def clearArray (id : Nat) : Action Unit := changeArray id fun m a => .ok (a.clear, m)

def releaseArray (id : Nat) : Action Unit := changeArray id fun m a => .ok (a.release m)

/-- Exchange the contents of two arrays of one kind. -/
def swapArrays (first second : Nat) : Action Unit := do
  let w ← get
  let (a, b) ← Action.ofExcept ((w.array first).swap (w.array second))
  set ((w.setArray first a).setArray second b)

/-- The elements of an array as a view kept by the caller. -/
def shareArray (id : Nat) : Action View := do
  let a := (← get).array id
  return a.data (← nextSerial)

/-- Add a vector that owns an array, together with the memory that it was made in. -/
def addVec (a : Growable) (m : Memory) (checked : Bool) : Action Nat := fun w =>
  .ok w.vecs.size { w with vecs := w.vecs.push ⟨a.kind, checked, .owned a⟩, memory := m }

def vecOfList (kind : Kind) (values : List Scalar) (checked : Bool) : Action Nat := do
  Action.demand (values.all kind.admits)
  let (a, m) := Growable.ofList (← get).memory kind values
  addVec a m checked

def vecOfView (kind : Kind) (view : View) (checked : Bool) : Action Nat := do
  Action.demand (view.kind.sameSort kind)
  let (a, m) := Growable.ofView (← get).memory kind view
  addVec a m checked

end LeaseVec.World
