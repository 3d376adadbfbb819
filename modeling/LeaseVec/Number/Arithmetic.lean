import LeaseVec.Number.Binary64

/-!
# Correctly rounded arithmetic

Each operation computes its exact result in smallest steps and rounds once. The remainder is exact:
it has the sign of the dividend and needs no rounding. Comparisons are false when NaN takes part.
-/

namespace LeaseVec.Number.Binary64

def neg : Binary64 → Binary64
  | nan => nan
  | infinite negative => infinite (!negative)
  | finite negative code => finite (!negative) code

instance : Neg Binary64 := ⟨neg⟩

def abs : Binary64 → Binary64
  | nan => nan
  | infinite _ => infinite false
  | finite _ code => finite false code

/-- The sum of two zeros is negative only when both are; other vanishing sums are positive. -/
def add : Binary64 → Binary64 → Binary64
  | nan, _ | _, nan => nan
  | infinite s, infinite t => if s = t then infinite s else nan
  | infinite s, _ => infinite s
  | _, infinite t => infinite t
  | finite s a, finite t b =>
    let sum := ((finite s a).scaled?.getD 0) + ((finite t b).scaled?.getD 0)
    if sum = 0 then ofCode (s && t) 0 else ofUnits (decide (sum < 0)) sum.natAbs 1

instance : Add Binary64 := ⟨add⟩

def sub (x y : Binary64) : Binary64 := x + -y

instance : Sub Binary64 := ⟨sub⟩

def mul : Binary64 → Binary64 → Binary64
  | nan, _ | _, nan => nan
  | infinite s, infinite t => infinite (s != t)
  | infinite s, finite t b => if b.val = 0 then nan else infinite (s != t)
  | finite s a, infinite t => if a.val = 0 then nan else infinite (s != t)
  | finite s a, finite t b =>
    ofUnits (s != t) (Grid.units 52 a.val * Grid.units 52 b.val) one

instance : Mul Binary64 := ⟨mul⟩

def div : Binary64 → Binary64 → Binary64
  | nan, _ | _, nan => nan
  | infinite _, infinite _ => nan
  | infinite s, finite t _ => infinite (s != t)
  | finite s _, infinite t => ofCode (s != t) 0
  | finite s a, finite t b =>
    if b.val = 0 then (if a.val = 0 then nan else infinite (s != t))
    else ofUnits (s != t) (Grid.units 52 a.val * one) (Grid.units 52 b.val)

instance : Div Binary64 := ⟨div⟩

/-- The remainder of the division that truncates toward zero. -/
def rem : Binary64 → Binary64 → Binary64
  | nan, _ | _, nan => nan
  | infinite _, _ => nan
  | x, infinite _ => x
  | finite s a, finite _ b =>
    if b.val = 0 then nan
    else ofUnits s (Grid.units 52 a.val % Grid.units 52 b.val) 1

instance : Mod Binary64 := ⟨rem⟩

/-- A place past every finite value. -/
def beyond : Int := Nat.pow 2 2100

/-- The place of a number on the line, the infinities past every finite value. -/
def position? : Binary64 → Option Int
  | nan => none
  | infinite negative => some (if negative then -beyond else beyond)
  | x => x.scaled?

def lt (x y : Binary64) : Bool :=
  match x.position?, y.position? with
  | some a, some b => a < b
  | _, _ => false

def le (x y : Binary64) : Bool :=
  match x.position?, y.position? with
  | some a, some b => a ≤ b
  | _, _ => false

/-- Equality as a key: the zeros are the same key, and so is NaN with itself. -/
def sameKey (x y : Binary64) : Bool :=
  match x.position?, y.position? with
  | some a, some b => a = b
  | none, none => true
  | _, _ => false

end LeaseVec.Number.Binary64
