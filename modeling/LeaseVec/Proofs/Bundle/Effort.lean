import LeaseVec.Proofs.Bundle.Agreement
import LeaseVec.Proofs.Bundle.Readings

/-!
# What decoding costs

The header of a bundle may claim any number of fields. Decoding does not look further than the bytes go: every
field that is decoded takes up at least twenty of them, whatever its name, its kind and its elements are, so the
loop over the fields ends soon after the bytes do.
-/

namespace LeaseVec.Bundle

open World

/-- How many rounds the loop over a number of fields begins. A round that fails is the last one. -/
def rounds (reader : Nat) (policy : Policy) : Nat → World → Nat
  | 0, _ => 0
  | count + 1, w =>
    match decodeField reader policy w with
    | .ok _ w' => rounds reader policy count w' + 1
    | .error _ _ => 1

/-- How many rounds the loop of decoding begins. There are none behind a header that is refused. -/
def decodeRounds (reader : Nat) (policy : Policy) (w : World) : Nat :=
  match World.scan reader scanHeader w with
  | .ok count w' => rounds reader policy count w'
  | .error _ _ => 0

variable {w w' w₁ : World} {reader count k : Nat} {policy : Policy} {field : Field} {before after : Bytes}

theorem rounds_of_ok (count : Nat) (h : decodeField reader policy w = .ok field w₁) :
    rounds reader policy (count + 1) w = rounds reader policy count w₁ + 1 := by
  simp only [rounds, h]

theorem rounds_of_error {e : Fault} (count : Nat) (h : decodeField reader policy w = .error e w₁) :
    rounds reader policy (count + 1) w = 1 := by
  simp only [rounds, h]

theorem decodeFields_of_error {e : Fault} (count : Nat) (h : decodeField reader policy w = .error e w₁) :
    decodeFields reader policy (count + 1) w = .error e w₁ := Action.bind_error h

/-- A round is begun when the rounds before it have all decoded a field. -/
theorem lt_rounds_iff : k < rounds reader policy count w ↔
    k < count ∧ ∃ fields w', decodeFields reader policy k w = .ok fields w' := by
  induction count generalizing w k with
  | zero => simp [rounds]
  | succ count ih =>
    cases k with
    | zero =>
      have hpos : 0 < rounds reader policy (count + 1) w := by
        unfold rounds
        split <;> omega
      exact ⟨fun _ => ⟨by omega, [], w, rfl⟩, fun _ => hpos⟩
    | succ k =>
      cases h : decodeField reader policy w with
      | ok field w₁ =>
        rw [rounds_of_ok count h, decodeFields_succ, Action.bind_ok h, Nat.succ_lt_succ_iff, ih,
          Nat.succ_lt_succ_iff]
        constructor
        · rintro ⟨hk, fields, w', hd⟩
          exact ⟨hk, field :: fields, w', Action.bind_ok hd⟩
        · rintro ⟨hk, fields, w', hd⟩
          obtain ⟨fields', w₂, hrest, -⟩ := Action.bind_ok_iff.1 hd
          exact ⟨hk, fields', w₂, hrest⟩
      | error e w₁ =>
        rw [rounds_of_error count h, decodeFields_of_error k h]
        simp

/-- What is claimed beyond the rounds that are begun does not matter. -/
theorem decodeFields_of_rounds_le (hk : rounds reader policy count w ≤ k) (hle : k ≤ count) :
    decodeFields reader policy count w = decodeFields reader policy k w := by
  induction count generalizing w k with
  | zero =>
    obtain rfl : k = 0 := by omega
    rfl
  | succ count ih =>
    cases h : decodeField reader policy w with
    | ok field w₁ =>
      rw [rounds_of_ok count h] at hk
      obtain ⟨k, rfl⟩ : ∃ j, k = j + 1 := ⟨k - 1, by omega⟩
      have hrest := ih (w := w₁) (k := k) (by omega) (by omega)
      rw [decodeFields_succ, decodeFields_succ, Action.bind_ok h, Action.bind_ok h]
      exact Action.bind_congr _ hrest
    | error e w₁ =>
      rw [rounds_of_error count h] at hk
      obtain ⟨k, rfl⟩ : ∃ j, k = j + 1 := ⟨k - 1, by omega⟩
      rw [decodeFields_of_error count h, decodeFields_of_error k h]

/-- Beside its name, its padding and its elements, a field takes up twenty bytes for its lengths, its kind and its
stride. -/
theorem FieldReading.length_bytes_eq (f : FieldReading) :
    f.bytes.length = 20 + f.name.length + f.padding.length + f.payload.length := by
  have hbytes := f.length_bytes
  have hdescription := f.length_description
  omega

/-- Every round but the last one uses up bytes. -/
theorem rounds_le (policy : Policy) (count : Nat) (h : w.At reader before after) :
    20 * rounds reader policy count w ≤ after.length + 20 := by
  induction count generalizing w before after with
  | zero => simp [rounds]
  | succ count ih =>
    cases hd : decodeField reader policy w with
    | ok field w₁ =>
      obtain ⟨f, rest, rfl, -, -, hat, -⟩ := placed_of_decodeField h hd
      have hrest := ih hat
      have hused := f.length_bytes_eq
      rw [rounds_of_ok count hd, List.length_append]
      omega
    | error e w₁ =>
      rw [rounds_of_error count hd]
      omega

/-- Behind a header that has been read there are sixteen bytes less. -/
theorem rounds_le_of_scanHeader (policy : Policy) (h : w.At reader before after)
    (hscan : scan reader scanHeader w = .ok count w₁) :
    20 * rounds reader policy count w₁ ≤ after.length + 4 := by
  obtain ⟨offset, hs, -⟩ := scan_ok_iff.1 hscan
  rw [h.bytes, h.offset] at hs
  obtain ⟨p, rest, rfl, ⟨-, spare, -, rfl⟩, rfl⟩ := (reads_header before after count offset).1 hs
  obtain ⟨w₂, hrun, -, -, hat⟩ := h.scan hs
  rw [hrun] at hscan
  cases hscan
  have hheader : headerBytes = 16 := rfl
  have hrest := rounds_le policy count hat
  rw [List.length_append, Reading.length_header]
  omega

theorem decodeRounds_le (policy : Policy) (h : w.At reader before after) :
    (decodeRounds reader policy w : Int) ≤ ((after.length : Int) - 16) / 20 + 1 := by
  unfold decodeRounds
  cases hscan : scan reader scanHeader w with
  | ok count w₁ =>
    have hle := rounds_le_of_scanHeader policy h hscan
    simp only
    omega
  | error e w₁ =>
    simp only
    omega

/-- Decoding ends as if no more fields had been claimed than there may be in that many bytes. -/
theorem decode_eq_of_min (policy : Policy) (h : w.At reader before after) :
    decode reader policy w = (scan reader scanHeader >>= fun count =>
      decodeFields reader policy (min count ((after.length - 16) / 20 + 1))) w := by
  rw [decode_eq]
  cases hscan : scan reader scanHeader w with
  | ok count w₁ =>
    rw [Action.bind_ok hscan, Action.bind_ok hscan]
    have hle := rounds_le_of_scanHeader policy h hscan
    rcases Nat.le_total count ((after.length - 16) / 20 + 1) with hfew | hmany
    · rw [Nat.min_eq_left hfew]
    · rw [Nat.min_eq_right hmany]
      exact decodeFields_of_rounds_le (by omega) hmany
  | error e w₁ => rw [Action.bind_error hscan, Action.bind_error hscan]

/-- The number of bytes of the names. -/
def nameBytes (fs : List FieldReading) : Nat := (fs.map fun f => f.name.length).sum

/-- The number of bytes that the elements of the fields take. -/
def elementBytes (w : World) (fields : List Field) : Nat :=
  (fields.map fun f => (w.vec f.vec).size * (w.vec f.vec).kind.width).sum

theorem size_mul_width {f : FieldReading} {start : Nat} (hf : f.Proper start) (h : w.Decoded f field) :
    (w.vec field.vec).size * (w.vec field.vec).kind.width = f.payload.length := by
  rw [h.shows.size_eq, h.shows.kind_eq, hf.payload_length, FieldReading.words, Word.length_split]

/-- Fields one after another take up what each of them does. -/
theorem le_length_of_decoded {fs : List FieldReading} {fields : List Field} {start : Nat}
    (hfs : ProperFrom start fs) (h : List.Forall₂ w.Decoded fs fields) :
    20 * fields.length + nameBytes fs + elementBytes w fields ≤
      (fs.flatMap FieldReading.bytes).length := by
  induction h generalizing start with
  | nil => simp [nameBytes, elementBytes]
  | @cons f field fs fields hfirst _ ih =>
    have hrest := ih hfs.2
    have hsize := size_mul_width hfs.1 hfirst
    have hused := f.length_bytes_eq
    simp only [nameBytes, elementBytes, List.map_cons, List.sum_cons, List.flatMap_cons,
      List.length_append, List.length_cons] at hrest ⊢
    omega

/-- A claimed number of fields costs nothing. In front of `r` bytes, whatever they are and however many fields
they claim, decoding begins at most `(r - 16) / 20 + 1` rounds of its loop, and it ends as if no more than these
had been claimed. A bundle that is decoded has used up the bytes of its header, of its names and of its elements
and twenty more for each field, and they were all there. -/
theorem decode_effort (policy : Policy) (h : w.At reader before after) :
    (decodeRounds reader policy w : Int) ≤ ((after.length : Int) - 16) / 20 + 1 ∧
    decode reader policy w = (scan reader scanHeader >>= fun count =>
      decodeFields reader policy (min count ((after.length - 16) / 20 + 1))) w ∧
    ∀ fields w', decode reader policy w = .ok fields w' →
      ∃ r, w'.ReadAs reader policy.read.bound before after r fields ∧
        (w.reader reader).offset +
            (16 + 20 * fields.length + nameBytes r.fields + elementBytes w' fields) ≤
          (w'.reader reader).offset ∧
        (w'.reader reader).offset ≤ (w.reader reader).offset + after.length := by
  refine ⟨decodeRounds_le policy h, decode_eq_of_min policy h, fun fields w' hd => ?_⟩
  obtain ⟨r, hread⟩ := readAs_of_decode h hd
  obtain ⟨rest, rfl, hat⟩ := hread.passed
  have hfields := le_length_of_decoded hread.proper hread.decoded
  have hheader : headerBytes = 16 := rfl
  have hlength : r.bytes.length = 16 + (r.fields.flatMap FieldReading.bytes).length := by
    rw [Reading.bytes, List.length_append, Reading.length_header, hheader]
  refine ⟨r, hread, ?_, ?_⟩
  · rw [h.offset, hat.offset, List.length_append]
    omega
  · rw [h.offset, hat.offset, List.length_append, List.length_append]
    omega

/-- Two readers in front of a field of two bytes. The header in front of the first claims as many fields as a
header can, and the header in front of the second claims one. -/
def forgedCount : World :=
  let field : FieldReading := ⟨[97], .u8, 1, [0, 0, 0], 2, [7, 9]⟩
  { (default : World) with
    memory := ⟨#[Reading.header (2 ^ 32 - 1) 0 ++ field.bytes, Reading.header 1 0 ++ field.bytes], 0, default⟩
    readers := #[⟨⟨0, 0, 42, false⟩, 0, none⟩, ⟨⟨1, 0, 42, false⟩, 0, none⟩] }

/-- The loop behind the forged header ends within two rounds, with a fault. Behind the other header a bundle is
decoded, which uses up at least 36 bytes beside those of its name and its elements. -/
theorem decode_effort_forgedCount :
    decodeRounds 0 {} forgedCount ≤ 2 ∧ answer? (decode 0 {} forgedCount) = none ∧
      ∃ fields w' r, decode 1 {} forgedCount = .ok fields w' ∧
        36 + nameBytes r + elementBytes w' fields ≤ (w'.reader 1).offset := by
  have hforged : forgedCount.At 0 [] (forgedCount.bytes ⟨0, 0, 42, false⟩) :=
    ⟨by decide, ⟨by decide, by decide⟩, by decide, rfl, rfl⟩
  have hhonest : forgedCount.At 1 [] (forgedCount.bytes ⟨1, 0, 42, false⟩) :=
    ⟨by decide, ⟨by decide, by decide⟩, by decide, rfl, rfl⟩
  obtain ⟨hrounds, hdecode, -⟩ := decode_effort {} hforged
  obtain ⟨-, -, hused⟩ := decode_effort {} hhonest
  have hlength : (forgedCount.bytes ⟨0, 0, 42, false⟩).length = 42 := by decide
  rw [hlength] at hrounds hdecode
  refine ⟨by omega, ?_, ?_⟩
  · rw [hdecode]
    decide +kernel
  · have hone : (answer? (decode 1 {} forgedCount)).map List.length = some 1 := by decide +kernel
    obtain ⟨fields, hfields, hcount⟩ := Option.map_eq_some_iff.1 hone
    obtain ⟨w', hd⟩ := exists_of_answer? hfields
    obtain ⟨r, -, hle, -⟩ := hused fields w' hd
    have hstart : (forgedCount.reader 1).offset = 0 := rfl
    exact ⟨fields, w', r.fields, hd, by omega⟩

end LeaseVec.Bundle
