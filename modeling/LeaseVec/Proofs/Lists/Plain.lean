import LeaseVec.World.Command
import LeaseVec.Proofs.Scalar.Stored
import Mathlib.Logic.Function.Basic

/-!
# Vectors and arrays as lists

What a user of vectors and arrays has to know: an array is a list of values, and a vector is a list of
values with its mode, which only decides whether a view may be attached. There are no buffers here, no
capacity and no borrowing. The one thing that a list does not have is a limit, so a step that asks for more
room than the host grants leaves the lists as they were.
-/

namespace LeaseVec

open Number

/-- A vector as a list. -/
structure PlainVec where
  kind : Kind
  checked : Bool
  mode : Mode
  items : List Scalar

/-- An array as a list. -/
structure PlainArray where
  kind : Kind
  items : List Scalar

/-- A walk over a vector's list. Once the vector has been changed under a walk, nothing is said about
how the walk goes on. -/
inductive PlainWalk where
  | fresh (vec : Nat)
  | running (vec : Nat) (position : Nat)
  | stale (vec : Nat)
  | finished (vec : Nat)

def PlainWalk.vec : PlainWalk → Nat
  | fresh vec | running vec _ | stale vec | finished vec => vec

/-- A walk over a vector that changes. -/
def PlainWalk.disturb (id : Nat) : PlainWalk → PlainWalk
  | running vec position => if vec = id then stale vec else running vec position
  | walk => walk

/-- The vectors, arrays and walks that there are. -/
structure Plain where
  vecCount : Nat
  vec : Nat → PlainVec
  arrayCount : Nat
  array : Nat → PlainArray
  walkCount : Nat
  walk : Nat → PlainWalk

namespace PlainVec

/-- The value at an index, if it is a position of the list. -/
def find? (v : PlainVec) (index : Binary64) : Option Scalar :=
  index.toNat?.bind fun i => v.items[i]?

def at? (v : PlainVec) (index : Binary64) : Except Fault (Option Scalar) :=
  match v.find? index with
  | some x => .ok (some x)
  | none => .error (.outOfRange index v.items.length)

/-- Only a vector that checks minds an index that is no position. -/
def get? (v : PlainVec) (index : Binary64) : Except Fault (Option Scalar) :=
  if v.checked then v.at? index else .ok (v.find? index)

def front? (v : PlainVec) : Except Fault (Option Scalar) :=
  match v.items.head? with
  | some x => .ok (some x)
  | none => .error (.outOfRange 0 0)

def back? (v : PlainVec) : Except Fault (Option Scalar) :=
  match v.items.getLast? with
  | some x => .ok (some x)
  | none => .error (.outOfRange (0 - 1) 0)

/-- The vector with other values, which it owns. -/
def own (v : PlainVec) (items : List Scalar) : PlainVec := { v with mode := .owned, items := items }

end PlainVec

/-- Cut or extend a list. -/
def extendTo (items : List Scalar) (n : Nat) (fill : Scalar) : List Scalar :=
  items.take n ++ List.replicate (n - items.length) fill

namespace Plain

variable (s : Plain) (id : Nat)

def setVec (v : PlainVec) : Plain := { s with vec := Function.update s.vec id v }

/-- Change a vector, which disturbs the walks over it. -/
def changeVec (v : PlainVec) : Plain :=
  { s.setVec id v with walk := fun i => (s.walk i).disturb id }

def setArray (a : PlainArray) : Plain := { s with array := Function.update s.array id a }

def addVec (v : PlainVec) : Plain := { s.setVec s.vecCount v with vecCount := s.vecCount + 1 }

def addWalk (walk : PlainWalk) : Plain :=
  { s with walk := Function.update s.walk s.walkCount walk, walkCount := s.walkCount + 1 }

def setWalk (walk : PlainWalk) : Plain := { s with walk := Function.update s.walk id walk }

/-- The next value of a walk that stands at a position. -/
def deliver (vec position : Nat) : Option Scalar × Plain :=
  match (s.vec vec).items[position]? with
  | some x => (some x, s.setWalk id (.running vec (position + 1)))
  | none => (none, s.setWalk id (.finished vec))

def next : Option Scalar × Plain :=
  match s.walk id with
  | .fresh vec => s.deliver id vec 0
  | .running vec position => s.deliver id vec position
  | .stale _ | .finished _ => (none, s)

/-- Change a vector if the host grants the room. Either way the vector owns its values then. -/
def grow (granted : Bool) (items : List Scalar) : Except Fault Reply × Plain :=
  if granted then (.ok .done, s.changeVec id ((s.vec id).own items))
  else (.error .allocationRefused, s.changeVec id ((s.vec id).own (s.vec id).items))

/-- Change an array if the host grants the room. -/
def growArray (granted : Bool) (items : List Scalar) : Except Fault Reply × Plain :=
  if granted then (.ok .done, s.setArray id { s.array id with items := items })
  else (.error .allocationRefused, s)

/-- A question about a vector. -/
def ask (answer : Except Fault (Option Scalar)) : Except Fault Reply × Plain :=
  (answer.map (.element (s.vec id).kind), s)

/-- What a command does to one vector; `shown` tells what a view shows that is attached. -/
def vecStep (shown : View → List Scalar) (granted : Bool) :
    VecCommand → Except Fault Reply × Plain
  | .attach view _ =>
    if (s.vec id).mode = .owned then (.error .alreadyOwned, s)
    else (.ok .done, s.changeVec id { s.vec id with mode := .borrowed, items := shown view })
  | .item index => s.ask id ((s.vec id).at? index)
  | .unchecked index => s.ask id ((s.vec id).get? index)
  | .front => s.ask id (s.vec id).front?
  | .back => s.ask id (s.vec id).back?
  | .toList | .share => (.ok (.elements (s.vec id).kind (s.vec id).items), s)
  | .isView _ => (.ok .done, s)
  | .writable =>
    (.ok (.elements (s.vec id).kind (s.vec id).items),
      s.changeVec id ((s.vec id).own (s.vec id).items))
  | .set index value =>
    match (s.vec id).find? index, index.toNat? with
    | some _, some i =>
      (.ok .done, s.changeVec id
        ((s.vec id).own ((s.vec id).items.set i ((s.vec id).kind.held value))))
    | _, _ => (.error (.outOfRange index (s.vec id).items.length), s)
  | .push value => s.grow id granted ((s.vec id).items ++ [(s.vec id).kind.held value])
  | .pop =>
    (.ok (.element (s.vec id).kind (s.vec id).items.getLast?),
      s.changeVec id ((s.vec id).own (s.vec id).items.dropLast))
  | .resize length fill =>
    match length.toNat? with
    | none => (.error (.invalidSize length), s)
    | some n =>
      s.grow id granted (extendTo (s.vec id).items n
        ((s.vec id).kind.held (fill.getD (s.vec id).kind.zero)))
  | .swap array =>
    if (s.vec id).kind ≠ (s.array array).kind then
      (.error (.kindsDiffer (s.vec id).kind (s.array array).kind), s)
    else
      (.ok .done, (s.changeVec id ((s.vec id).own (s.array array).items)).setArray array
        { s.array array with items := (s.vec id).items })
  | .clear => (.ok .done, s.changeVec id { s.vec id with mode := .empty, items := [] })
  | .iterate => (.ok (.made s.walkCount), s.addWalk (.fresh id))

/-- What a command does to one array. Making room does nothing to a list. -/
def arrayStep (granted : Bool) : ArrayCommand → Except Fault Reply × Plain
  | .reserve _ => s.growArray id granted (s.array id).items
  | .push value => s.growArray id granted ((s.array id).items ++ [(s.array id).kind.held value])
  | .pop =>
    (.ok (.element (s.array id).kind (s.array id).items.getLast?),
      s.setArray id { s.array id with items := (s.array id).items.dropLast })
  | .resize length fill =>
    match length.toNat? with
    | none => (.error (.invalidLength length), s)
    | some n =>
      s.growArray id granted (extendTo (s.array id).items n ((s.array id).kind.held fill))
  | .share => (.ok (.elements (s.array id).kind (s.array id).items), s)
  | .clear | .release => (.ok .done, s.setArray id { s.array id with items := [] })
  | .swap other =>
    if (s.array id).kind = (s.array other).kind then
      (.ok .done, (s.setArray id { s.array id with items := (s.array other).items }).setArray other
        { s.array other with items := (s.array id).items })
    else (.error (.kindsDiffer (s.array id).kind (s.array other).kind), s)

/-- What a command does to the lists; `shown` tells what a view shows that is attached or copied. -/
def step (shown : View → List Scalar) (granted : Bool) : Command → Except Fault Reply × Plain
  | .newVec kind checked => (.ok (.made s.vecCount), s.addVec ⟨kind, checked, .empty, []⟩)
  | .vecOfList kind values checked =>
    (.ok (.made s.vecCount), s.addVec ⟨kind, checked, .owned, values.map kind.held⟩)
  | .vecOfView kind view checked =>
    (.ok (.made s.vecCount), s.addVec ⟨kind, checked, .owned, (shown view).map kind.held⟩)
  | .vec id c => s.vecStep id shown granted c
  | .next walk =>
    (.ok (.element (s.vec (s.walk walk).vec).kind (s.next walk).1), (s.next walk).2)
  | .array id c => s.arrayStep id granted c
  | _ => (.ok .done, s)

/-- The commands that ask for room for more than half of what the host counts. The host need not grant it; it
always grants less. -/
def Large (limit : AllocationLimit) : Command → Prop
  | .vec id (.push _) => limit.count < 2 * ((s.vec id).items.length + 1)
  | .vec _ (.resize length _) => ∃ n, length.toNat? = some n ∧ limit.count < 2 * n
  | .array id (.push _) => limit.count < 2 * ((s.array id).items.length + 1)
  | .array _ (.resize length _) => ∃ n, length.toNat? = some n ∧ limit.count < 2 * n
  | .array id (.reserve extra) =>
    ∀ n, extra.toNat? = some n → limit.count < 2 * ((s.array id).items.length + n)
  | _ => False

end Plain

end LeaseVec
