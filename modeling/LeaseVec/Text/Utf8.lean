import LeaseVec.Text.Basic

/-!
# UTF-8

Writing text as bytes replaces a surrogate that stands alone by the replacement character. Reading
drops one byte-order mark in front and replaces each maximal malformed run by one replacement
character: a run is a lead byte with the continuation bytes that could still have followed it.
-/

namespace LeaseVec.Text.Utf8

/-- The character that stands for what cannot be encoded or decoded. -/
def replacement : Nat := 0xfffd

/-- The bytes of one character. -/
def encodeScalar (n : Nat) : List UInt8 :=
  if n < 0x80 then [UInt8.ofNat n]
  else if n < 0x800 then [UInt8.ofNat (0xc0 + n / 0x40), UInt8.ofNat (0x80 + n % 0x40)]
  else if n < 0x10000 then
    [UInt8.ofNat (0xe0 + n / 0x1000), UInt8.ofNat (0x80 + n / 0x40 % 0x40),
      UInt8.ofNat (0x80 + n % 0x40)]
  else
    [UInt8.ofNat (0xf0 + n / 0x40000), UInt8.ofNat (0x80 + n / 0x1000 % 0x40),
      UInt8.ofNat (0x80 + n / 0x40 % 0x40), UInt8.ofNat (0x80 + n % 0x40)]

/-- The characters of a text, a lone surrogate counting as the replacement character. -/
def scalars : Text → List Nat
  | [] => []
  | [u] => [if isLead u || isTrail u then replacement else u.toNat]
  | u :: v :: rest =>
    if isLead u && isTrail v then pairScalar u v :: scalars rest
    else (if isLead u || isTrail u then replacement else u.toNat) :: scalars (v :: rest)

/-- The bytes of a text. -/
def encode (t : Text) : List UInt8 := (scalars t).flatMap encodeScalar

/-- The text that the bytes of a text stand for: a surrogate that stands alone is replaced. -/
def settled (t : Text) : Text := (scalars t).flatMap ofScalar

/-- The number of bytes of a text. -/
def byteLength (t : Text) : Nat := (encode t).length

/-- What a decoder still expects: how many continuation bytes, the range of the next one, and the
character's leading bits. -/
structure Pending where
  more : Nat
  low : UInt8
  high : UInt8
  bits : Nat

/-- How a byte opens a character: complete, to be continued, or not at all. -/
inductive Opening where
  | whole (scalar : Nat)
  | unfinished (rest : Pending)
  | malformed

def opening (b : UInt8) : Opening :=
  if b < 0x80 then .whole b.toNat
  else if b < 0xc2 then .malformed
  else if b < 0xe0 then .unfinished ⟨1, 0x80, 0xbf, b.toNat - 0xc0⟩
  else if b < 0xf0 then
    .unfinished ⟨2, if b = 0xe0 then 0xa0 else 0x80, if b = 0xed then 0x9f else 0xbf, b.toNat - 0xe0⟩
  else if b < 0xf5 then
    .unfinished ⟨3, if b = 0xf0 then 0x90 else 0x80, if b = 0xf4 then 0x8f else 0xbf, b.toNat - 0xf0⟩
  else .malformed

/-- Decode with an unfinished character in hand, if there is one. A byte that cannot continue it
closes the malformed run and is looked at afresh. -/
def scan : Option Pending → List UInt8 → List Nat
  | none, [] => []
  | some _, [] => [replacement]
  | none, b :: rest =>
    match opening b with
    | .whole n => n :: scan none rest
    | .unfinished p => scan (some p) rest
    | .malformed => replacement :: scan none rest
  | some p, b :: rest =>
    if p.low ≤ b ∧ b ≤ p.high then
      let bits := p.bits * 0x40 + (b.toNat - 0x80)
      if p.more ≤ 1 then bits :: scan none rest
      else scan (some ⟨p.more - 1, 0x80, 0xbf, bits⟩) rest
    else
      match opening b with
      | .whole n => replacement :: n :: scan none rest
      | .unfinished q => replacement :: scan (some q) rest
      | .malformed => replacement :: replacement :: scan none rest

/-- The byte-order mark. -/
def mark : List UInt8 := [0xef, 0xbb, 0xbf]

def dropMark (bytes : List UInt8) : List UInt8 :=
  if mark.isPrefixOf bytes then bytes.drop 3 else bytes

/-- The text of a byte sequence. -/
def decode (bytes : List UInt8) : Text := (scan none (dropMark bytes)).flatMap ofScalar

end LeaseVec.Text.Utf8
