import LeaseVec.Json.Basic
import LeaseVec.Number.Decimal

/-!
# Reading JSON

A document is one value between blanks. Strings are taken unit by unit, so an escape may spell a
surrogate that stands alone. Numbers are rounded to the nearest double, which may be infinite.
-/

namespace LeaseVec.Json

open Number

/-- Space, tab, line feed and carriage return. -/
def isBlank (u : UInt16) : Bool := u = 0x20 || u = 0x09 || u = 0x0a || u = 0x0d

def isDigit (u : UInt16) : Bool := 0x30 ≤ u && u ≤ 0x39

def skipBlanks (t : Text) : Text := t.dropWhile isBlank

/-- The value of a hexadecimal digit. -/
def hexDigit? (u : UInt16) : Option Nat :=
  if 0x30 ≤ u && u ≤ 0x39 then some (u.toNat - 0x30)
  else if 0x61 ≤ u && u ≤ 0x66 then some (u.toNat - 0x57)
  else if 0x41 ≤ u && u ≤ 0x46 then some (u.toNat - 0x37)
  else none

/-- The unit that a one-letter escape stands for. -/
def escape? (u : UInt16) : Option UInt16 :=
  if u = 0x22 || u = 0x5c || u = 0x2f then some u
  else if u = 0x62 then some 0x08
  else if u = 0x66 then some 0x0c
  else if u = 0x6e then some 0x0a
  else if u = 0x72 then some 0x0d
  else if u = 0x74 then some 0x09
  else none

/-- The unit spelt by four hexadecimal digits. -/
def hexUnit? (a b c d : UInt16) : Option UInt16 := do
  let a ← hexDigit? a
  let b ← hexDigit? b
  let c ← hexDigit? c
  let d ← hexDigit? d
  return UInt16.ofNat (((a * 16 + b) * 16 + c) * 16 + d)

/-- The rest of a string after its opening quote, and what follows the closing one. -/
def stringRest? : Text → Option (Text × Text)
  | [] => none
  | u :: rest =>
    if u = 0x22 then some ([], rest)
    else if u = 0x5c then
      match rest with
      | e :: a :: b :: c :: d :: rest =>
        if e = 0x75 then do
          let unit ← hexUnit? a b c d
          let (t, after) ← stringRest? rest
          return (unit :: t, after)
        else do
          let unit ← escape? e
          let (t, after) ← stringRest? (a :: b :: c :: d :: rest)
          return (unit :: t, after)
      | e :: rest => do
        let unit ← escape? e
        let (t, after) ← stringRest? rest
        return (unit :: t, after)
      | [] => none
    else if u < 0x20 then none
    else do
      let (t, after) ← stringRest? rest
      return (u :: t, after)

/-- The number that digits spell, continued from `n`. -/
def digitsValue (n : Nat) (digits : Text) : Nat :=
  digits.foldl (fun n u => n * 10 + (u.toNat - 0x30)) n

/-- The whole part: one zero, or digits that do not start with zero. -/
def wholePart? (t : Text) : Option (Text × Text) :=
  match t with
  | [] => none
  | u :: rest =>
    if u = 0x30 then some ([u], rest)
    else if isDigit u then some (t.takeWhile isDigit, t.dropWhile isDigit)
    else none

/-- The digits after a point; none when there is no point. -/
def fractionPart? (t : Text) : Option (Text × Text) :=
  match t with
  | u :: rest =>
    if u = 0x2e then
      let digits := rest.takeWhile isDigit
      if digits.isEmpty then none else some (digits, rest.dropWhile isDigit)
    else some ([], t)
  | [] => some ([], [])

/-- The exponent; zero when there is none. -/
def exponentPart? (t : Text) : Option (Int × Text) :=
  match t with
  | u :: rest =>
    if u = 0x65 || u = 0x45 then
      let negative := rest.head? = some 0x2d
      let signed := negative || rest.head? = some 0x2b
      let rest := if signed then rest.drop 1 else rest
      let digits := rest.takeWhile isDigit
      let size : Int := digitsValue 0 digits
      if digits.isEmpty then none
      else some (if negative then -size else size, rest.dropWhile isDigit)
    else some (0, t)
  | [] => some (0, [])

/-- A number without its sign. -/
def unsigned? (negative : Bool) (t : Text) : Option (Binary64 × Text) := do
  let (whole, t) ← wholePart? t
  let (fraction, t) ← fractionPart? t
  let (exponent, t) ← exponentPart? t
  let digits := digitsValue (digitsValue 0 whole) fraction
  return (Binary64.ofDecimal negative digits (exponent - fraction.length), t)

def number? (t : Text) : Option (Binary64 × Text) :=
  match t with
  | u :: rest => if u = 0x2d then unsigned? true rest else unsigned? false t
  | [] => none

/-- The text after a fixed word. -/
def word? (word t : Text) : Option Text :=
  if word.isPrefixOf t then some (t.drop word.length) else none

mutual

/-- One value at the start of a text without leading blanks. -/
def value? : Nat → Text → Option (Json × Text)
  | 0, _ => none
  | _ + 1, [] => none
  | fuel + 1, u :: rest =>
    if u = 0x7b then
      match skipBlanks rest with
      | [] => none
      | v :: after =>
        if v = 0x7d then some (object [], after)
        else do
          let (members, after) ← members? fuel (v :: after)
          return (object (collect members), after)
    else if u = 0x5b then
      match skipBlanks rest with
      | [] => none
      | v :: after =>
        if v = 0x5d then some (array [], after)
        else do
          let (items, after) ← items? fuel (v :: after)
          return (array items, after)
    else if u = 0x22 then (stringRest? rest).map fun (t, after) => (string t, after)
    else if u = 0x74 then (word? (Text.ofString "rue") rest).map fun after => (bool true, after)
    else if u = 0x66 then (word? (Text.ofString "alse") rest).map fun after => (bool false, after)
    else if u = 0x6e then (word? (Text.ofString "ull") rest).map fun after => (null, after)
    else (number? (u :: rest)).map fun (x, after) => (number x, after)

/-- The items of an array up to its closing bracket. -/
def items? : Nat → Text → Option (List Json × Text)
  | 0, _ => none
  | fuel + 1, t => do
    let (item, t) ← value? fuel t
    match skipBlanks t with
    | [] => none
    | u :: rest =>
      if u = 0x5d then some ([item], rest)
      else if u = 0x2c then do
        let (items, after) ← items? fuel (skipBlanks rest)
        return (item :: items, after)
      else none

/-- The members of an object up to its closing brace, as written. -/
def members? : Nat → Text → Option (List (Text × Json) × Text)
  | 0, _ => none
  | _ + 1, [] => none
  | fuel + 1, q :: t =>
    if q = 0x22 then do
      let (name, t) ← stringRest? t
      match skipBlanks t with
      | [] => none
      | c :: t =>
        if c = 0x3a then do
          let (value, t) ← value? fuel (skipBlanks t)
          match skipBlanks t with
          | [] => none
          | u :: rest =>
            if u = 0x7d then some ([(name, value)], rest)
            else if u = 0x2c then do
              let (members, after) ← members? fuel (skipBlanks rest)
              return ((name, value) :: members, after)
            else none
        else none
    else none

end

/-- The value of a document. Every step of the reader uses up a unit, so its length is enough. -/
def parse? (t : Text) : Option Json :=
  match value? (2 * t.length + 2) (skipBlanks t) with
  | some (v, rest) => if (skipBlanks rest).isEmpty then some v else none
  | none => none

end LeaseVec.Json
