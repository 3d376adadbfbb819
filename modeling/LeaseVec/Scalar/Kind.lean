import LeaseVec.Text.Basic

/-!
# Element kinds

The ten kinds of array elements: integers of one, two, four and eight bytes with and without sign,
and the two floating formats. Each kind has a name and a code by which stored data refers to it.
-/

namespace LeaseVec

/-- What an array holds. -/
inductive Kind where
  | u8 | i8 | u16 | i16 | u32 | i32 | f32 | f64 | i64 | u64
  deriving DecidableEq, Inhabited, Repr

namespace Kind

/-- The kinds in the order of their codes. -/
def all : List Kind := [u8, i8, u16, i16, u32, i32, f32, f64, i64, u64]

/-- The bytes of one element. -/
def width : Kind → Nat
  | u8 | i8 => 1
  | u16 | i16 => 2
  | u32 | i32 | f32 => 4
  | f64 | i64 | u64 => 8

def name : Kind → String
  | u8 => "u8"
  | i8 => "i8"
  | u16 => "u16"
  | i16 => "i16"
  | u32 => "u32"
  | i32 => "i32"
  | f32 => "f32"
  | f64 => "f64"
  | i64 => "i64"
  | u64 => "u64"

/-- The number that stands for a kind in stored data. -/
def code : Kind → Nat
  | u8 => 0
  | i8 => 1
  | u16 => 2
  | i16 => 3
  | u32 => 4
  | i32 => 5
  | f32 => 6
  | f64 => 7
  | i64 => 8
  | u64 => 9

def ofCode? (n : Nat) : Option Kind := all.find? fun k => k.code = n

def ofName? (name : Text) : Option Kind := all.find? fun k => Text.ofString k.name = name

/-- The eight-byte integers, whose values are exact integers and not doubles. -/
def isWide : Kind → Bool
  | i64 | u64 => true
  | _ => false

def isSigned : Kind → Bool
  | i8 | i16 | i32 | i64 => true
  | _ => false

def isFloat : Kind → Bool
  | f32 | f64 => true
  | _ => false

/-- The least and the greatest integer of an integer kind. -/
def range (k : Kind) : Int × Int :=
  let bits := 8 * k.width
  if k.isSigned then (-(Nat.pow 2 (bits - 1) : Int), (Nat.pow 2 (bits - 1) : Int) - 1)
  else (0, (Nat.pow 2 bits : Int) - 1)

theorem width_pos (k : Kind) : 0 < k.width := by cases k <;> decide

theorem width_dvd_eight (k : Kind) : k.width ∣ 8 := by cases k <;> decide

theorem ofCode?_code (k : Kind) : ofCode? k.code = some k := by cases k <;> rfl

theorem code_of_ofCode? {n : Nat} {k : Kind} (h : ofCode? n = some k) : k.code = n := by
  simpa using List.find?_some h

theorem ofName?_name (k : Kind) : ofName? (Text.ofString k.name) = some k := by
  cases k <;> decide

theorem name_of_ofName? {name : Text} {k : Kind} (h : ofName? name = some k) :
    Text.ofString k.name = name := by
  simpa using List.find?_some h

end Kind

end LeaseVec
