/-!
# Text

Text is a list of 16-bit units, as names and messages may hold surrogates that stand alone. Lengths
and cuts count units.
-/

namespace LeaseVec

/-- Text as 16-bit units. -/
abbrev Text := List UInt16

namespace Text

/-- The units of one character: one, or a surrogate pair. -/
def ofScalar (n : Nat) : Text :=
  if n < 0x10000 then [UInt16.ofNat n]
  else [UInt16.ofNat (0xd800 + (n - 0x10000) / 0x400), UInt16.ofNat (0xdc00 + (n - 0x10000) % 0x400)]

def ofChars (cs : List Char) : Text := cs.flatMap fun c => ofScalar c.toNat

def ofString (s : String) : Text := ofChars s.toList

/-- Whether a unit is the first half of a pair. -/
def isLead (u : UInt16) : Bool := 0xd800 ≤ u && u < 0xdc00

/-- Whether a unit is the second half of a pair. -/
def isTrail (u : UInt16) : Bool := 0xdc00 ≤ u && u < 0xe000

/-- The character number of a pair. -/
def pairScalar (lead trail : UInt16) : Nat :=
  0x10000 + (lead.toNat - 0xd800) * 0x400 + (trail.toNat - 0xdc00)

/-- The most units that a text of the host can have, and the most bytes that it makes a text of. -/
def longest : Nat := 0x1fffffe8

/-- Texts with a separator between them. -/
def join (separator : Text) : List Text → Text
  | [] => []
  | [t] => t
  | t :: rest => t ++ separator ++ join separator rest

/-- A text written `n` times. -/
def times : Nat → Text → Text
  | 0, _ => []
  | n + 1, t => t ++ times n t

end Text

end LeaseVec
