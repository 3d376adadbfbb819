import LeaseVec.Proofs.Bundle.Grammar
import Mathlib.Tactic.SplitIfs

/-!
# What the scans of bundles accept

The scans of the header and of a description read exactly the parts that the grammar names.
-/

namespace LeaseVec.Bundle

open Scan

/-- A scan behind a check. -/
theorem reads_check {α : Type} {c : Prop} [Decidable c] {e : Fault} {s : Scan α}
    {P : Nat → α → Bytes → Prop} (h : Reads s P) :
    Reads (if c then throw e else s) fun n a p => ¬ c ∧ P n a p := by
  split_ifs with hc
  · exact (reads_throw e).congr fun n a p => ⟨fun hf => hf.elim, fun hp => absurd hc hp.1⟩
  · exact h.congr fun n a p => ⟨fun hp => ⟨hc, hp⟩, fun hp => hp.2⟩

/-- The scan of the four words, when there are bytes enough for them. -/
def headerWords : Scan Nat :=
  u32 >>= fun found => if found ≠ magic then throw .wrongMagic
    else u32 >>= fun found => if found ≠ version then throw (.unknownVersion found)
      else u32 >>= fun count => u32 >>= fun _ => pure count

theorem scanHeader_eq (bytes : Bytes) (m : Nat) :
    scanHeader bytes m = (if bytes.length - m < headerBytes then
      throw (.headerTooShort (bytes.length - m)) else headerWords) bytes m := rfl

theorem reads_headerWords : Reads headerWords fun _ count p =>
    count < 2 ^ 32 ∧ ∃ spare, spare < 2 ^ 32 ∧ p = Reading.header count spare := by
  have h32 : (2 : Nat) ^ 32 = 256 ^ 4 := by decide
  refine (reads_u32.bind fun found => reads_check (reads_u32.bind fun found' =>
    reads_check (reads_u32.bind fun count =>
      reads_u32.bind fun _ => reads_pure count))).congr fun n count p => ?_
  rw [h32]
  constructor
  · rintro ⟨found, x₁, y₁, rfl, ⟨-, rfl⟩, hmagic, found', x₂, y₂, rfl, ⟨-, rfl⟩, hversion, count', x₃,
      y₃, rfl, ⟨hcount, rfl⟩, spare, x₄, y₄, rfl, ⟨hspare, rfl⟩, rfl, rfl⟩
    obtain rfl := not_not.1 hmagic
    obtain rfl := not_not.1 hversion
    refine ⟨hcount, spare, hspare, ?_⟩
    rw [List.append_nil]
    rfl
  · rintro ⟨hcount, spare, hspare, rfl⟩
    refine ⟨magic, _, _, rfl, ⟨by decide, rfl⟩, fun h => h rfl, version, _, _, rfl,
      ⟨by decide, rfl⟩, fun h => h rfl, count, _, _, rfl, ⟨hcount, rfl⟩, spare, _, [], ?_,
      ⟨hspare, rfl⟩, rfl, rfl⟩
    rw [List.append_nil]

/-- Input that is too short for a header is refused before its words are read, so the header is read when
its first two words are right. -/
theorem reads_header : Reads scanHeader fun _ count p =>
    count < 2 ^ 32 ∧ ∃ spare, spare < 2 ^ 32 ∧ p = Reading.header count spare := by
  intro before after count offset
  have hl : (before ++ after).length - before.length = after.length := by
    rw [List.length_append, Nat.add_sub_cancel_left]
  rw [scanHeader_eq, hl]
  split_ifs with hshort
  · constructor
    · intro h
      cases h
    · rintro ⟨p, rest, rfl, ⟨-, spare, -, rfl⟩, -⟩
      rw [List.length_append, Reading.length_header] at hshort
      omega
  · exact reads_headerWords before after count offset

/-- The scan of a description behind the code of its kind. -/
def descriptionTail (name : Text) (kind : Kind) : Scan Header :=
  u32 >>= fun stride => if stride = 0 then throw (.badField name .zeroStride)
    else alignTo fieldAlign >>= fun _ => pure ⟨name, kind, stride⟩

theorem scanDescription_eq : scanDescription =
    (u32 >>= fun length => text length >>= fun name => u32 >>= fun code =>
      match Kind.ofCode? code with
      | none => throw (.badField name (.unknownCode code))
      | some kind => descriptionTail name kind) := rfl

theorem reads_descriptionTail (name : Text) (kind : Kind) :
    Reads (descriptionTail name kind) fun n h p => ∃ stride fill, 1 ≤ stride ∧ stride < 2 ^ 32 ∧
      fill.length = padding fieldAlign (n + 4) ∧ h = ⟨name, kind, stride⟩ ∧
        p = Word.encode 4 stride ++ fill := by
  have h32 : (2 : Nat) ^ 32 = 256 ^ 4 := by decide
  refine (reads_u32.bind fun stride => reads_check ((reads_alignTo fieldAlign).bind fun _ =>
    reads_pure _)).congr fun n h p => ?_
  rw [h32]
  constructor
  · rintro ⟨stride, x, y, rfl, ⟨hlt, rfl⟩, hzero, _, fill, z, rfl, hfill, rfl, rfl⟩
    rw [Word.length_encode] at hfill
    refine ⟨stride, fill, by omega, hlt, hfill, rfl, ?_⟩
    rw [List.append_nil]
  · rintro ⟨stride, fill, hpos, hlt, hfill, rfl, rfl⟩
    refine ⟨stride, _, _, rfl, ⟨hlt, rfl⟩, by omega, (), fill, [], ?_, ?_, rfl, rfl⟩
    · rw [List.append_nil]
    · rw [Word.length_encode]
      exact hfill

/-- The code of a kind, and what stands behind it. -/
theorem reads_descriptionOf (name : Text) (code : Nat) :
    Reads (match Kind.ofCode? code with
      | none => throw (.badField name (.unknownCode code))
      | some kind => descriptionTail name kind) fun n h p => ∃ kind stride fill, code = kind.code ∧
        1 ≤ stride ∧ stride < 2 ^ 32 ∧ fill.length = padding fieldAlign (n + 4) ∧
          h = ⟨name, kind, stride⟩ ∧ p = Word.encode 4 stride ++ fill := by
  cases hk : Kind.ofCode? code with
  | none =>
    refine (reads_throw _).congr fun n h p => ⟨fun hf => hf.elim, ?_⟩
    rintro ⟨kind, stride, fill, rfl, -⟩
    rw [Kind.ofCode?_code] at hk
    cases hk
  | some kind =>
    refine (reads_descriptionTail name kind).congr fun n h p => ⟨?_, ?_⟩
    · rintro ⟨stride, fill, hp⟩
      exact ⟨kind, stride, fill, (Kind.code_of_ofCode? hk).symm, hp⟩
    · rintro ⟨kind', stride, fill, rfl, hp⟩
      rw [Kind.ofCode?_code] at hk
      cases hk
      exact ⟨stride, fill, hp⟩

theorem reads_description : Reads scanDescription fun n h p => ∃ f : FieldReading,
    f.Described n ∧ h = ⟨Text.Utf8.decode f.name, f.kind, f.stride⟩ ∧ p = f.description := by
  have h32 : (2 : Nat) ^ 32 = 256 ^ 4 := by decide
  rw [scanDescription_eq]
  refine (reads_u32.bind fun length => (reads_text length).bind fun name => reads_u32.bind fun code =>
    reads_descriptionOf name code).congr fun n h p => ?_
  constructor
  · rintro ⟨length, x₁, y₁, rfl, ⟨hlt, rfl⟩, -, name, y₂, rfl, ⟨rfl, hreadable, rfl⟩, code, x₃, y₃, rfl,
      ⟨-, rfl⟩, kind, stride, fill, rfl, hpos, hstride, hfill, rfl, rfl⟩
    refine ⟨⟨name, kind, stride, fill, 0, []⟩, ⟨hreadable, hpos, hstride, ?_⟩, rfl, rfl⟩
    rw [hfill, Word.length_encode, Word.length_encode]
    change padding fieldAlign _ = padding fieldAlign (n + 12 + name.length)
    exact congrArg _ (by omega)
  · rintro ⟨f, hf, rfl, rfl⟩
    refine ⟨f.name.length, _, _, rfl, ⟨h32 ▸ hf.name_lt, rfl⟩, Text.Utf8.decode f.name, f.name, _, rfl,
      ⟨rfl, hf.readable, rfl⟩, f.kind.code, _, _, rfl, ⟨code_lt f.kind, rfl⟩, f.kind, f.stride, f.padding, rfl,
      hf.stride_pos, hf.stride_lt, ?_, rfl, rfl⟩
    rw [hf.padding_length, Word.length_encode, Word.length_encode]
    exact congrArg _ (by omega)

end LeaseVec.Bundle
