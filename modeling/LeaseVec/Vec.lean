import LeaseVec.Growable

/-!
# Copy-on-write vectors

A vector has no storage, borrows a view of bytes that a region lends, or owns a growable array. The
region decides how long a borrow lasts: once it is closed the view is stale. Every change goes
through owned storage, which copies a borrowed view once.
-/

namespace LeaseVec

open Number

/-- Bytes, of either class, that are lent out under a label until they are closed. -/
structure Region where
  label : Text
  byteLength : Nat
  /-- The bytes; none once the region is closed. -/
  held : Option ByteRange
  deriving DecidableEq, Inhabited

def Region.isOpen (r : Region) : Bool := r.held.isSome

/-- Where the elements of a vector are. A borrow names the region that lends the view. -/
inductive Holding where
  | empty
  | borrowed (view : View) (region : Nat)
  | owned (array : Growable)
  deriving DecidableEq, Inhabited

inductive Mode where
  | empty
  | borrowed
  | owned
  deriving DecidableEq, Inhabited

def Mode.name : Mode → String
  | empty => "empty"
  | borrowed => "borrowed"
  | owned => "owned"

structure Vec where
  kind : Kind
  /-- Whether unchecked reads check their index all the same. -/
  checked : Bool
  holding : Holding
  deriving DecidableEq, Inhabited

/-- What is reported when a borrowed vector becomes an owned one. Whoever is told only listens: the report
returns, and the vector is not touched by it. -/
structure Promotion where
  kind : Kind
  copied : Nat
  lease : Text
  deriving DecidableEq

namespace Vec

/-- A vector without elements. -/
def new (kind : Kind) (checked : Bool) : Vec := ⟨kind, checked, .empty⟩

def mode (v : Vec) : Mode :=
  match v.holding with
  | .empty => .empty
  | .borrowed _ _ => .borrowed
  | .owned _ => .owned

/-- The number of elements. -/
def size (v : Vec) : Nat :=
  match v.holding with
  | .empty => 0
  | .borrowed view _ => view.length
  | .owned a => a.length

/-- The number of elements that fit without a new buffer. -/
def capacity (v : Vec) : Nat :=
  match v.holding with
  | .empty => 0
  | .borrowed view _ => view.length
  | .owned a => a.capacity

/-- The number of elements as a double. -/
def count (v : Vec) : Binary64 :=
  match v.holding with
  | .owned a => a.size
  | _ => Binary64.ofNat v.size

/-- The region that lends the elements. -/
def lender? (v : Vec) : Option Nat :=
  match v.holding with
  | .borrowed _ region => some region
  | _ => none

end Vec

/-- An index has to be a whole number below the size. -/
def acceptIndex (index : Binary64) (size : Nat) : Except Fault Nat :=
  match index.toNat? with
  | some i => if i < size then .ok i else .error (.outOfRange index size)
  | none => .error (.outOfRange index size)

end LeaseVec
