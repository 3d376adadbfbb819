/-!
# Little-endian words

A word of `width` bytes, least significant byte first. Writing drops what does not fit, and reading
what was written gives the number back modulo the word's size.
-/

namespace LeaseVec

/-- A sequence of bytes. -/
abbrev Bytes := List UInt8

namespace Word

/-- The `width` bytes of a number. -/
def encode : Nat → Nat → Bytes
  | 0, _ => []
  | width + 1, n => UInt8.ofNat (n % 256) :: encode width (n / 256)

/-- The number that bytes spell. -/
def decode : Bytes → Nat
  | [] => 0
  | b :: rest => b.toNat + 256 * decode rest

@[simp] theorem length_encode (width n : Nat) : (encode width n).length = width := by
  induction width generalizing n with
  | zero => rfl
  | succ width ih => simp [encode, ih]

theorem decode_encode (width n : Nat) : decode (encode width n) = n % Nat.pow 256 width := by
  induction width generalizing n with
  | zero => simp [encode, decode, Nat.mod_one]
  | succ width ih =>
    have h : (UInt8.ofNat (n % 256)).toNat = n % 256 := by
      rw [UInt8.toNat_ofNat']; omega
    have hp : Nat.pow 256 (width + 1) = 256 * Nat.pow 256 width := Nat.pow_succ'
    rw [encode, decode, ih, h, hp, Nat.mod_mul]

theorem encode_decode (bytes : Bytes) : encode bytes.length (decode bytes) = bytes := by
  induction bytes with
  | nil => rfl
  | cons b rest ih =>
    have hb : b.toNat < 256 := b.toNat_lt
    have hm : (b.toNat + 256 * decode rest) % 256 = b.toNat := by omega
    have hd : (b.toNat + 256 * decode rest) / 256 = decode rest := by omega
    simp [encode, decode, hm, hd, ih]

/-- The words of `width` bytes in a sequence, a shorter rest being dropped. -/
def split (width : Nat) : Nat → Bytes → List Nat
  | 0, _ => []
  | count + 1, bytes => decode (bytes.take width) :: split width count (bytes.drop width)

/-- The bytes of words written one after another. -/
def concat (width : Nat) (words : List Nat) : Bytes := words.flatMap (encode width)

@[simp] theorem length_split (width count : Nat) (bytes : Bytes) :
    (split width count bytes).length = count := by
  induction count generalizing bytes with
  | zero => rfl
  | succ count ih => simp [split, ih]

@[simp] theorem length_concat (width : Nat) (words : List Nat) :
    (concat width words).length = words.length * width := by
  induction words with
  | nil => simp [concat]
  | cons n rest ih => simp_all [concat, Nat.succ_mul, Nat.add_comm]

/-- The signed number of a word of `bits` bits. -/
def toSigned (bits n : Nat) : Int :=
  if n < Nat.pow 2 (bits - 1) then n else (n : Int) - (Nat.pow 2 bits : Int)

end Word

end LeaseVec
