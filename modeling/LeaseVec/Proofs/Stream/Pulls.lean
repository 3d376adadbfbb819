import LeaseVec.Proofs.Stream.Pushes
import LeaseVec.Proofs.Bundle.Decoding
import LeaseVec.Proofs.Scalar.Stored

/-!
# What a reader gives back

The read that mirrors a push takes the bytes that the push has added and gives back what was pushed, whatever
stands in front of them and behind them. Only zeros depend on where they are, and they end at the same place
for the reader as for the writer.
-/

namespace LeaseVec

open Number Number.Binary64

/-- The read that mirrors a push. The elements of a field go to a vector. -/
def Push.read (vec : Nat) (policy : ReadPolicy) : Push → ReaderCommand
  | u32 _ => .u32
  | i32 _ => .i32
  | u64 _ => .u64
  | bytes range => .copy (ofNat range.length)
  | align n => .align n
  | field _ stride => .field vec stride policy

theorem Number.Binary64.cast_wrap (x : Binary64) :
    ((x.wrap 32 : Nat) : Int) = x.truncate?.getD 0 % 2 ^ 32 := by
  have hpow : ((Nat.pow 2 32 : Nat) : Int) = 2 ^ 32 := by decide
  unfold wrap
  rw [hpow]
  exact Int.toNat_of_nonneg (Int.emod_nonneg _ (by decide))

/-- The signed number of a word is the number that it was cut from, wrapped around zero. -/
theorem Word.toSigned_wrap (x : Binary64) :
    toSigned 32 (x.wrap 32) = (x.truncate?.getD 0).bmod (2 ^ 32) := by
  have hwrap := x.cast_wrap
  unfold toSigned Int.bmod
  simp only [Nat.pow_eq]
  split_ifs <;> omega

namespace Scan

theorem i32_ok {before p rest : Bytes} {n : Nat} (hn : n < 256 ^ 4) (hp : p = Word.encode 4 n) :
    i32 (before ++ (p ++ rest)) before.length = .ok (Word.toSigned 32 n) (before.length + p.length) := by
  have hword : word 4 (before ++ (p ++ rest)) before.length = .ok n (before.length + p.length) :=
    reads_u32.ok ⟨hn, hp⟩ rest
  exact bind_ok hword

theorem skipLength_ok {x : Binary64} {before p rest : Bytes} (hx : Whole x p.length) :
    skipLength x (before ++ (p ++ rest)) before.length =
      .ok before.length (before.length + p.length) := by
  rw [skipLength_of_toNat? hx.toNat?, if_neg]
  simp only [List.length_append]
  omega

theorem align_ok {n : Binary64} {k : Nat} {before p rest : Bytes} (hn : Whole n k) (hpos : 1 ≤ k)
    (hk : k ≤ exactBound) (hshort : before.length ≤ exactBound)
    (hp : p.length = padding k before.length) :
    align n (before ++ (p ++ rest)) before.length = .ok () (before.length + p.length) := by
  have hpad : Whole (paddingLength n before.length) p.length := by
    rw [hp]
    exact whole_paddingLength hn hpos hk hshort
  have hskip : skipLength (paddingLength n before.length) (before ++ (p ++ rest)) before.length =
      .ok before.length (before.length + p.length) := skipLength_ok hpad
  exact bind_ok hskip

end Scan

namespace World

variable {w w' w₀ : World} {reader : Nat} {before rest : Bytes}

theorem perform_scan {α : Type} {s : Scan α} {f : α → Reply} {c : ReaderCommand} {a : α} {p : Bytes}
    (hrun : (Command.reader reader c).run w = (scan reader s >>= fun a => pure (f a)) w)
    (h : w.At reader before (p ++ rest))
    (hs : s (before ++ (p ++ rest)) before.length = .ok a (before.length + p.length)) :
    ∃ w', w.perform (.reader reader c) = (.ok (f a), w') ∧ (∀ n, w.Extends n w') ∧
      w'.At reader (before ++ p) rest := by
  obtain ⟨w', hscan, hx, -, hat⟩ := h.scan hs
  exact ⟨w', perform_ok hrun hscan, hx, hat⟩

/-- The range that is passed holds the bytes in front of the reader. -/
theorem passNext_ok {x : Binary64} {p : Bytes} (hx : Whole x p.length)
    (h : w.At reader before (p ++ rest)) :
    ∃ w', passNext reader x w = .ok ((w.reader reader).source.sub before.length p.length) w' ∧
      w'.bytes ((w.reader reader).source.sub before.length p.length) = p ∧
      w'.memory = w.memory ∧ (∀ n, w.Extends n w') ∧ w'.At reader (before ++ p) rest := by
  have hs : Scan.skipLength x (w.bytes (w.reader reader).source) (w.reader reader).offset =
      .ok before.length (before.length + p.length) := by
    rw [h.bytes, h.offset]
    exact Scan.skipLength_ok hx
  obtain ⟨w₁, hscan, hextends, -, hat⟩ := h.scan (Scan.skipLength_ok hx)
  obtain rfl : w₁ = w.setReader reader
      { w.reader reader with offset := before.length + p.length } := by
    rw [scan_ok hs] at hscan
    cases hscan
    rfl
  obtain ⟨-, hbytes⟩ := hat.sub (x := before) (q := p) (y := rest) (List.append_assoc ..)
  rw [source_setOffset] at hbytes
  refine ⟨_, ?_, hbytes, rfl, hextends, hat⟩
  unfold passNext
  rw [Action.bind_ok hscan, hx.toNat?, Option.getD_some]
  show EStateM.Result.ok (((w.setReader reader _).reader reader).source.sub _ _) _ = _
  rw [source_setOffset]

/-- Where a slice of a range lies: in a new buffer, or where the range is when that shares. -/
def SliceOf (w : World) (r copy : ByteRange) : Prop :=
  if r.shares then copy = r else w.memory.buffers.size ≤ copy.buffer

/-- What is sliced has the bytes in front of the reader. -/
theorem copyNext_ok {x : Binary64} {p : Bytes} (hx : Whole x p.length)
    (h : w.At reader before (p ++ rest)) :
    ∃ copy w', copyNext reader x w = .ok copy w' ∧
      w.SliceOf ((w.reader reader).source.sub before.length p.length) copy ∧ w'.bytes copy = p ∧
      (∀ n, w.Extends n w') ∧ w'.At reader (before ++ p) rest := by
  obtain ⟨w₁, hpass, hbytes, hmemory, hextends, hat⟩ := passNext_ok hx h
  unfold copyNext SliceOf
  rw [Action.bind_ok hpass]
  rcases slice_cases w₁ ((w.reader reader).source.sub before.length p.length) with ⟨hs, h⟩ | ⟨hs, h⟩
  · exact ⟨_, w₁, h, by rw [if_pos hs], hbytes, hextends, hat⟩
  · rw [hbytes] at h
    refine ⟨_, _, h, ?_, w₁.memory.read_alloc p, fun n => (hextends n).trans (extends_alloc w₁ n p),
      hat.extends (extends_alloc w₁ 0 p) rfl hat.offset⟩
    rw [if_neg (by simp [hs]), ← hmemory]
    exact le_rfl

/-- The vector may take the elements of a field: it owns none, and its kind is the one that was pushed. There is
no bound on counts but the ceiling. -/
def CanTake (w w₀ : World) (vec : Nat) (policy : ReadPolicy) : Push → Prop
  | .field source _ => vec < w.vecs.size ∧ (w.vec vec).mode ≠ .owned ∧
      (w.vec vec).kind = (w₀.vec source).kind ∧ policy.bound = none
  | _ => True

/-- A reply gives back what was pushed in a world: words are wrapped, and bytes and elements are the same bit
for bit. The elements are those of the vector that was read into. -/
def Returns (w₀ : World) (p : Push) (w : World) (vec : Nat) (reply : Reply) : Prop :=
  match p with
  | .u32 value => reply = .integer (value.truncate?.getD 0 % 2 ^ 32)
  | .i32 value => reply = .integer ((value.truncate?.getD 0).bmod (2 ^ 32))
  | .u64 value => ∃ i, value.whole = .ok i ∧ reply = .integer (i % 2 ^ 64)
  | .bytes range => ∃ copy, reply = .range copy ∧ w.bytes copy = w₀.bytes range
  | .align _ => reply = .done
  | .field source _ => reply = .mode (w.vec vec).mode ∧ ∃ pushed taken,
      w₀.viewOf (w₀.vec source) = .ok pushed ∧ w.viewOf (w.vec vec) = .ok taken ∧
        taken.kind = pushed.kind ∧ w.memory.words taken = w₀.memory.words pushed

/-- The read that mirrors a push gives back what was pushed, and the reader ends behind the bytes of the push. -/
theorem perform_read {p : Push} {bytes : Bytes} {vec : Nat} {policy : ReadPolicy}
    (hadds : w₀.Adds before.length p bytes) (h : w.At reader before (bytes ++ rest))
    (hl : w.Serves reader true) (ht : w.CanTake w₀ vec policy p) :
    ∃ reply w', w.perform (.reader reader (p.read vec policy)) = (.ok reply, w') ∧
      w₀.Returns p w' vec reply ∧ w'.At reader (before ++ bytes) rest ∧ w'.Serves reader true := by
  have h32 : (256 : Nat) ^ 4 = 2 ^ 32 := by decide
  have h64 : (256 : Nat) ^ 8 = 2 ^ 64 := by decide
  cases hadds with
  | u32 value =>
    obtain ⟨w', hperform, hx, hat⟩ := perform_scan (s := Scan.u32)
      (c := .u32) (f := fun n => .integer n) rfl h
      (Scan.reads_u32.ok ⟨Kind.wrap_lt value 32, rfl⟩ rest)
    exact ⟨_, w', hperform, congrArg _ value.cast_wrap, hat, hl.extends (hx 0)⟩
  | i32 value =>
    obtain ⟨w', hperform, hx, hat⟩ := perform_scan (s := Scan.i32)
      (c := .i32) (f := fun i => .integer i) rfl h
      (Scan.i32_ok (Kind.wrap_lt value 32) rfl)
    exact ⟨_, w', hperform, congrArg _ (Word.toSigned_wrap value), hat, hl.extends (hx 0)⟩
  | @u64 value i hi =>
    have hlt := Int.emod_lt_of_pos i (by decide : (0 : Int) < 2 ^ 64)
    have hpos := Int.emod_nonneg i (by decide : (2 ^ 64 : Int) ≠ 0)
    obtain ⟨w', hperform, hx, hat⟩ := perform_scan (s := Scan.u64)
      (c := .u64) (f := fun n => .integer n) rfl h
      (Scan.reads_u64.ok ⟨by omega, rfl⟩ rest)
    exact ⟨_, w', hperform, ⟨i, hi, congrArg _ (Int.toNat_of_nonneg hpos)⟩, hat, hl.extends (hx 0)⟩
  | @bytes range hc =>
    have hlength : (w₀.bytes range).length = range.length := length_bytes hc
    have hshort := h.length_lt
    simp only [List.length_append] at hshort
    have hwhole : Whole (ofNat range.length) (w₀.bytes range).length := by
      rw [← hlength]
      exact whole_ofNat (by omega)
    obtain ⟨copy, w', hcopy, -, hbytes, hx, hat⟩ := copyNext_ok hwhole h
    exact ⟨_, w', perform_ok (f := fun r => .range r) rfl hcopy, ⟨_, rfl, hbytes⟩, hat,
      hl.extends (hx 0)⟩
  | @align n k hn hpos hk =>
    have hbig : 2 ^ 50 ≤ exactBound := by decide
    have hshort := h.length_lt
    rw [List.length_append] at hshort
    obtain ⟨w', hperform, hx, hat⟩ := perform_scan (s := Scan.align n)
      (c := .align n) (f := fun _ => .done) rfl h
      (Scan.align_ok hn hpos (hk.le.trans hbig) (by omega) List.length_replicate)
    exact ⟨_, w', hperform, rfl, hat, hl.extends (hx 0)⟩
  | @field source s stride view hs hpos hdvd hcount hview hkind hlength hread =>
    obtain ⟨hvec, hmode, hkinds, hbound⟩ := ht
    have hsize : (w₀.vec source).size / s * s = view.length := by
      rw [Nat.div_mul_cancel hdvd, hlength]
    have hpay : (w₀.bytes view.range).length =
        (w₀.vec source).size / s * s * (w.vec vec).kind.width := by
      rw [hread, hsize, hkinds, ← hkind]
      rfl
    rw [List.append_assoc] at h
    obtain ⟨w', hrun, hx, -, hat, hshows⟩ := readField_ok h hvec ⟨hl.plain, fun _ => hl.lends rfl⟩ hmode hbound
      hs hpos hcount hpay
    obtain ⟨taken, htaken, htaken_kind, -, hwords⟩ := hshows.view
    refine ⟨_, w', perform_ok (f := fun m => .mode m) rfl hrun, ⟨rfl, view, taken, hview, htaken,
      ?_, ?_⟩, hat, hl.extends hx⟩
    · rw [htaken_kind, hkinds, hkind]
    · rw [hwords, hsize, hkinds, ← hkind]
      rfl

end World

end LeaseVec
