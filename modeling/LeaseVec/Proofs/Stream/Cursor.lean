import LeaseVec.Proofs.Stream.Pulls
import LeaseVec.Proofs.Bundle.Agreement
import Mathlib.Data.Nat.ModEq
import Mathlib.Order.Bounds.Basic

/-!
# The place of a reader

A pull asks for a number of bytes, which is any double, and has one of three ends: the bytes are there and the
reader moves past them, or fewer are left, or what is asked for is not a whole number. Only the first one moves
the reader, and it moves past the bytes that the reply tells. So a reader is never outside of its bytes, and
after a failure the same bytes are still in front of it.
-/

namespace LeaseVec

open Number Number.Binary64

/-- What can be asked of a reader that moves it over bytes. -/
inductive Pull where
  | u32
  | i32
  | u64
  | copy (n : Binary64)
  | borrow (n : Binary64)
  | align (n : Binary64)

namespace Pull

def command : Pull → ReaderCommand
  | u32 => .u32
  | i32 => .i32
  | u64 => .u64
  | copy n => .copy n
  | borrow n => .borrow n
  | align n => .align n

/-- Only a reader over a region lends its bytes. -/
def Offered (lender : Option Nat) : Pull → Prop
  | borrow _ => lender.isSome
  | _ => True

/-- How many bytes are asked for at an offset. -/
def asks (offset : Nat) : Pull → Binary64
  | u32 => ofNat 4
  | i32 => ofNat 4
  | u64 => ofNat 8
  | copy n => n
  | borrow n => n
  | align n => Scan.paddingLength n offset

end Pull

namespace Scan

/-- A length given as a number is a length given as a double. -/
theorem skip_eq_skipLength {n : Nat} (h : n ≤ exactBound) (bytes : Bytes) (m : Nat) :
    skip n bytes m = skipLength (ofNat n) bytes m := by
  rw [skip_eq, skipLength_of_toNat? (whole_ofNat h).toNat?]

/-- The number of bytes to a multiple is the least that reaches one. -/
theorem isLeast_padding {k : Nat} (offset : Nat) (h : 1 ≤ k) :
    IsLeast {d | k ∣ offset + d} (padding k offset) := by
  have hlt : offset % k < k := Nat.mod_lt _ h
  have hdvd : k ∣ offset + padding k offset := by
    have hdm := Nat.div_add_mod offset k
    have hsum : offset + (k - offset % k) = k * (offset / k + 1) := by
      rw [Nat.mul_add, Nat.mul_one]
      omega
    unfold padding
    rw [Nat.dvd_iff_mod_eq_zero, Nat.add_mod_mod, hsum, Nat.mul_mod_right]
  refine ⟨hdvd, ?_⟩
  intro d hd
  -- whatever reaches a multiple is the padding, up to a multiple
  have hsame : padding k offset % k = d % k := by
    have hmod : offset + padding k offset ≡ offset + d [MOD k] :=
      (Nat.modEq_zero_iff_dvd.2 hdvd).trans (Nat.modEq_zero_iff_dvd.2 hd).symm
    exact hmod.add_left_cancel'
  rw [Nat.mod_eq_of_lt (padding_lt offset h)] at hsame
  exact hsame ▸ Nat.mod_le d k

/-- Bytes are there, or fewer are left, or the length is not a whole number. -/
theorem skipLength_cases (x : Binary64) (before after : Bytes) :
    (∃ part rest, after = part ++ rest ∧ Whole x part.length) ∨
    (∃ n, Whole x n ∧ after.length < n ∧
      skipLength x (before ++ after) before.length = .error (.inputEnds x after.length) before.length) ∨
    (∀ n, ¬ Whole x n) ∧
      skipLength x (before ++ after) before.length = .error (.invalidReadLength x) before.length := by
  cases h : x.toNat? with
  | none =>
    refine Or.inr (Or.inr ⟨fun n hn => ?_, skipLength_of_none h _ _⟩)
    rw [hn.toNat?] at h
    cases h
  | some n =>
    have hn := whole_of_toNat? h
    rcases Nat.lt_or_ge after.length n with hshort | hlong
    · refine Or.inr (Or.inl ⟨n, hn, hshort, ?_⟩)
      rw [skipLength_of_toNat? h, List.length_append, Nat.add_sub_cancel_left, if_pos hshort]
    · refine Or.inl ⟨after.take n, after.drop n, (List.take_append_drop n after).symm, ?_⟩
      rwa [List.length_take, Nat.min_eq_left hlong]

/-- A word is the number of the bytes that are passed. -/
theorem word_ok {width : Nat} {before part : Bytes} (rest : Bytes) (h : part.length = width) :
    word width (before ++ (part ++ rest)) before.length =
      .ok (Word.decode part) (before.length + part.length) := by
  refine (reads_word width).ok ⟨?_, ?_⟩ rest
  · rw [← h]
    exact Word.decode_lt part
  · rw [← h, Word.encode_decode]

theorem word_error {width : Nat} {bytes : Bytes} {m : Nat} {e : Fault} (hw : width ≤ exactBound)
    (h : skipLength (ofNat width) bytes m = .error e m) : word width bytes m = .error e m := by
  rw [← skip_eq_skipLength hw] at h
  exact bind_error (bind_error h)

end Scan

namespace World

variable {w w' w₀ w₁ : World} {id : Nat} {source : ByteRange} {lender : Option Nat} {before after : Bytes}
  {p : Pull}

/-- The reply to a pull tells the bytes that were passed: as a number, as a slice, or as the part of the source
that they are. -/
def Tells (w : World) (id : Nat) (part : Bytes) (w' : World) (reply : Reply) : Pull → Prop
  | .u32 => reply = .integer (Word.decode part)
  | .i32 => reply = .integer (Word.toSigned 32 (Word.decode part))
  | .u64 => reply = .integer (Word.decode part)
  | .copy _ => ∃ copy, reply = .range copy ∧
      w.SliceOf ((w.reader id).source.sub (w.reader id).offset part.length) copy ∧ w'.bytes copy = part
  | .borrow _ => ∃ region, (w.reader id).lender = some region ∧
      reply = .lent ((w.reader id).source.sub (w.reader id).offset part.length) region ∧
      w'.bytes ((w.reader id).source.sub (w.reader id).offset part.length) = part
  | .align _ => reply = .done

/-- How a pull ends at a reader between the bytes before it and those after it. -/
inductive PullEnds (w : World) (id : Nat) (before after : Bytes) (p : Pull) :
    Except Fault Reply × World → Prop
  /-- As many bytes as are asked for are passed. -/
  | passed {part rest : Bytes} {reply : Reply} {w' : World} (hafter : after = part ++ rest)
      (hasks : Whole (p.asks before.length) part.length) (htells : w.Tells id part w' reply p)
      (hextends : ∀ n, w.Extends n w') (hat : w'.At id (before ++ part) rest) :
      PullEnds w id before after p (.ok reply, w')
  /-- More bytes are asked for than are left. -/
  | ended {n : Nat} (hasks : Whole (p.asks before.length) n) (hleft : after.length < n) :
      PullEnds w id before after p (.error (.inputEnds (p.asks before.length) after.length), w)
  /-- What is asked for is negative, no integer, infinite or no number. -/
  | refused (hasks : ∀ n, ¬ Whole (p.asks before.length) n) :
      PullEnds w id before after p (.error (.invalidReadLength (p.asks before.length)), w)

/-- A scan that fails where it started leaves the reader there. -/
theorem At.scan_error {α : Type} {s : Scan α} {e : Fault} (h : w.At id before after)
    (hs : s (before ++ after) before.length = .error e before.length) :
    World.scan id s w = .error e w := by
  rw [← h.bytes, ← h.offset] at hs
  have hstays : World.scan id s w = .error e (w.movedTo id (w.reader id).offset) := World.scan_error hs
  rwa [movedTo_self] at hstays

/-- A pull fails as the length that it asks for does, and nothing has happened. -/
theorem perform_pull_error {e : Fault} (h : w.At id before after)
    (hs : Scan.skipLength (p.asks before.length) (before ++ after) before.length = .error e before.length) :
    w.perform (.reader id p.command) = (.error e, w) := by
  have hfour : 4 ≤ exactBound := by decide
  have height : 8 ≤ exactBound := by decide
  have hpass : ∀ n : Binary64, scan id (Scan.skipLength n) w = .error e w →
      passNext id n w = .error e w := fun n hn => Action.bind_error hn
  cases p with
  | u32 =>
    have hscan : scan id Scan.u32 w = .error e w := h.scan_error (Scan.word_error hfour hs)
    exact perform_error (f := fun n : Nat => .integer n) rfl hscan
  | i32 =>
    have hscan : scan id Scan.i32 w = .error e w :=
      h.scan_error (Scan.bind_error (Scan.word_error hfour hs))
    exact perform_error (f := fun i => .integer i) rfl hscan
  | u64 =>
    have hscan : scan id Scan.u64 w = .error e w := h.scan_error (Scan.word_error height hs)
    exact perform_error (f := fun n : Nat => .integer n) rfl hscan
  | copy n =>
    have hcopy : copyNext id n w = .error e w := Action.bind_error (hpass n (h.scan_error hs))
    exact perform_error (f := fun r => .range r) rfl hcopy
  | borrow n =>
    have hborrow : borrowNext id n w = .error e w := Action.bind_error (hpass n (h.scan_error hs))
    exact perform_error (f := fun r => .lent r.1 r.2) rfl hborrow
  | align n =>
    have hskip : (Scan.skipLength (Scan.paddingLength n before.length) >>= fun _ => pure ())
        (before ++ after) before.length = .error e before.length := Scan.bind_error hs
    have hscan : scan id (Scan.align n) w = .error e w := h.scan_error hskip
    exact perform_error (f := fun _ => .done) rfl hscan

/-- A pull passes the bytes that it asks for when they are there. -/
theorem perform_pull_ok {part rest : Bytes} (h : w.At id before (part ++ rest))
    (hp : p.Offered (w.reader id).lender) (hpart : Whole (p.asks before.length) part.length) :
    ∃ reply w', w.perform (.reader id p.command) = (.ok reply, w') ∧ w.Tells id part w' reply p ∧
      (∀ n, w.Extends n w') ∧ w'.At id (before ++ part) rest := by
  have hfour : Whole (ofNat 4) 4 := whole_ofNat (by decide)
  have height : Whole (ofNat 8) 8 := whole_ofNat (by decide)
  cases p with
  | u32 =>
    obtain ⟨w', hperform, hx, hat⟩ := perform_scan (s := Scan.u32) (c := .u32)
      (f := fun n => .integer n) rfl h (Scan.word_ok rest (hpart.unique hfour))
    exact ⟨_, w', hperform, rfl, hx, hat⟩
  | i32 =>
    have hword : Scan.word 4 (before ++ (part ++ rest)) before.length =
        .ok (Word.decode part) (before.length + part.length) := Scan.word_ok rest (hpart.unique hfour)
    obtain ⟨w', hperform, hx, hat⟩ := perform_scan (s := Scan.i32) (c := .i32)
      (f := fun i => .integer i) rfl h (Scan.bind_ok hword)
    exact ⟨_, w', hperform, rfl, hx, hat⟩
  | u64 =>
    obtain ⟨w', hperform, hx, hat⟩ := perform_scan (s := Scan.u64) (c := .u64)
      (f := fun n => .integer n) rfl h (Scan.word_ok rest (hpart.unique height))
    exact ⟨_, w', hperform, rfl, hx, hat⟩
  | copy n =>
    obtain ⟨copy, w', hcopy, hslice, hbytes, hx, hat⟩ := copyNext_ok (x := n) hpart h
    rw [← h.offset] at hslice
    exact ⟨_, w', perform_ok (f := fun r => .range r) rfl hcopy, ⟨copy, rfl, hslice, hbytes⟩, hx, hat⟩
  | borrow n =>
    obtain ⟨region, hregion⟩ := Option.isSome_iff_exists.1 hp
    obtain ⟨w', hpass, hbytes, -, hx, hat⟩ := passNext_ok (x := n) hpart h
    have hborrow : borrowNext id n w =
        .ok ((w.reader id).source.sub before.length part.length, region) w' := by
      unfold borrowNext
      rw [Action.bind_ok hpass]
      show EStateM.Result.ok (_, (w'.reader id).lender.getD 0) w' = _
      rw [(hx 0).lender, hregion, Option.getD_some]
    refine ⟨_, w', perform_ok (f := fun r => .lent r.1 r.2) rfl hborrow, ⟨region, hregion, ?_⟩, hx, hat⟩
    rw [h.offset]
    exact ⟨rfl, hbytes⟩
  | align n =>
    have halign : Scan.align n (before ++ (part ++ rest)) before.length =
        .ok () (before.length + part.length) := Scan.bind_ok (Scan.skipLength_ok hpart)
    obtain ⟨w', hperform, hx, hat⟩ := perform_scan (s := Scan.align n) (c := .align n)
      (f := fun _ => .done) rfl h halign
    exact ⟨_, w', hperform, rfl, hx, hat⟩

/-- Every pull that is offered has one of the three ends. -/
theorem pullEnds (h : w.At id before after) (hp : p.Offered (w.reader id).lender) :
    w.PullEnds id before after p (w.perform (.reader id p.command)) := by
  rcases Scan.skipLength_cases (p.asks before.length) before after with
    ⟨part, rest, rfl, hpart⟩ | ⟨n, hn, hleft, hs⟩ | ⟨hn, hs⟩
  · obtain ⟨reply, w', hperform, htells, hx, hat⟩ := perform_pull_ok h hp hpart
    rw [hperform]
    exact .passed rfl hpart htells hx hat
  · rw [perform_pull_error h hs]
    exact .ended hn hleft
  · rw [perform_pull_error h hs]
    exact .refused hn

/-- A reader over a source, at an offset that is not behind its end. -/
structure Within (w : World) (id : Nat) (source : ByteRange) (lender : Option Nat) : Prop where
  lt : id < w.readers.size
  source_eq : (w.reader id).source = source
  lender_eq : (w.reader id).lender = lender
  covers : w.memory.Covers source
  short : (w.memory.buffer source.buffer).length < exactBound
  offset_le : (w.reader id).offset ≤ source.length

theorem Within.at (h : w.Within id source lender) :
    w.At id ((w.bytes source).take (w.reader id).offset) ((w.bytes source).drop (w.reader id).offset) := by
  refine ⟨h.lt, ?_, ?_, ?_, ?_⟩
  · rw [h.source_eq]
    exact h.covers
  · rw [h.source_eq]
    exact h.short
  · rw [h.source_eq, List.take_append_drop]
  · rw [List.length_take, length_bytes h.covers, Nat.min_eq_left h.offset_le]

theorem At.within (h : w.At id before after) :
    w.Within id (w.reader id).source (w.reader id).lender := by
  refine ⟨h.lt, rfl, rfl, h.covers, h.short, ?_⟩
  rw [← length_bytes h.covers, h.bytes, h.offset, List.length_append]
  exact Nat.le_add_right ..

/-- A stretch of a history that leaves a reader where it is. Its bytes may be written to. -/
structure LeavesPlace (w : World) (id : Nat) (w' : World) : Prop where
  readers_le : w.readers.size ≤ w'.readers.size
  reader_eq : w'.reader id = w.reader id
  buffers_le : w.memory.buffers.size ≤ w'.memory.buffers.size
  length_eq : (w'.memory.buffer (w.reader id).source.buffer).length =
    (w.memory.buffer (w.reader id).source.buffer).length

/-- Pulls one after another, with anything in between that leaves the reader where it is. -/
inductive Pulls (id : Nat) (w₁ : World) : World → Prop
  | start : Pulls id w₁ w₁
  | pull {w : World} {p : Pull} (h : Pulls id w₁ w) (hp : p.Offered (w.reader id).lender) :
      Pulls id w₁ (w.perform (.reader id p.command)).2
  | between {w w' : World} (h : Pulls id w₁ w) (hw : w.LeavesPlace id w') : Pulls id w₁ w'

theorem LeavesPlace.within (hw : w.LeavesPlace id w') (h : w.Within id source lender) :
    w'.Within id source lender := by
  have hlength := hw.length_eq
  rw [h.source_eq] at hlength
  refine ⟨h.lt.trans_le hw.readers_le, ?_, ?_, ⟨h.covers.buffer_lt.trans_le hw.buffers_le, ?_⟩, ?_, ?_⟩
  · rw [hw.reader_eq, h.source_eq]
  · rw [hw.reader_eq, h.lender_eq]
  · rw [hlength]
    exact h.covers.end_le
  · rw [hlength]
    exact h.short
  · rw [hw.reader_eq]
    exact h.offset_le

/-- However a pull ends, the reader is within its source. -/
theorem PullEnds.within {outcome : Except Fault Reply × World}
    (he : w.PullEnds id before after p outcome) (h : w.Within id source lender) :
    outcome.2.Within id source lender := by
  cases he with
  | passed hafter hasks htells hextends hat =>
    have hwithin := hat.within
    rwa [(hextends 0).source, (hextends 0).lender, h.source_eq, h.lender_eq] at hwithin
  | ended hasks hleft => exact h
  | refused hasks => exact h

theorem Pulls.within (h : Pulls id w₁ w) (hw : w₁.Within id source lender) :
    w.Within id source lender := by
  induction h with
  | start => exact hw
  | pull h hp ih => exact (pullEnds ih.at hp).within ih
  | between h hl ih => exact hl.within ih

/-- A reader is made over a source: one that copies, or one that also lends the bytes of an open region. -/
inductive Made (w : World) (source : ByteRange) (id : Nat) : Option Nat → World → Prop
  | copies {w₁ : World} (h : w.perform (.newReader source) = (.ok (.made id), w₁)) :
      Made w source id none w₁
  | lends {w₁ : World} {region : Nat} (hopen : w.lentBytes region = .ok source)
      (h : w.perform (.newBorrower region) = (.ok (.made id), w₁)) : Made w source id (some region) w₁

theorem within_pushReader (lender : Option Nat) (hc : w.memory.Covers source)
    (hshort : (w.memory.buffer source.buffer).length < exactBound) :
    ({ w with readers := w.readers.push ⟨source, 0, lender⟩ } : World).Within w.readers.size source
      lender := by
  have hwithin := (Bundle.at_pushReader lender hc hshort).within
  have hself : ({ w with readers := w.readers.push ⟨source, 0, lender⟩ } : World).reader
      w.readers.size = ⟨source, 0, lender⟩ := by
    rw [reader_push, if_pos rfl]
  rwa [hself] at hwithin

theorem Made.within (h : w.Made source id lender w₁) (hc : w.memory.Covers source)
    (hshort : (w.memory.buffer source.buffer).length < exactBound) : w₁.Within id source lender := by
  cases h with
  | copies h =>
    rw [perform_ok (f := fun n => .made n) rfl (show newReader source w = _ from rfl)] at h
    cases h
    exact within_pushReader none hc hshort
  | lends hopen h =>
    rw [perform_ok (f := fun n => .made n) rfl (newBorrower_ok hopen)] at h
    cases h
    exact within_pushReader (some _) hc hshort

/-- A reader at an offset, with a number of bytes left, and the ends that the next pull may have. -/
structure Poised (w : World) (id : Nat) (source : ByteRange) (lender : Option Nat) (offset left : Nat) :
    Prop where
  offset_eq : scan id Scan.offset w = .ok offset w
  left_eq : scan id Scan.remaining w = .ok left w
  add_eq : offset + left = source.length
  ends : ∀ p, p.Offered lender →
    w.PullEnds id ((w.bytes source).take offset) ((w.bytes source).drop offset) p
      (w.perform (.reader id p.command))
  /-- An alignment asks for the least number of bytes that reaches a multiple. -/
  aligns : ∀ n k, Whole n k → 1 ≤ k → k ≤ exactBound →
    ∃ d, Whole ((Pull.align n).asks offset) d ∧ IsLeast {d | k ∣ offset + d} d

theorem Within.poised (h : w.Within id source lender) :
    w.Poised id source lender (w.reader id).offset (source.length - (w.reader id).offset) := by
  have hstays : ∀ {α : Type} {a : α} {s : Scan α},
      s (w.bytes (w.reader id).source) (w.reader id).offset = .ok a (w.reader id).offset →
        scan id s w = .ok a w := by
    intro α a s hs
    have hmoved : scan id s w = .ok a (w.movedTo id (w.reader id).offset) := scan_ok hs
    rwa [movedTo_self] at hmoved
  have hle := h.offset_le
  refine ⟨hstays rfl, hstays ?_, by omega, ?_, ?_⟩
  · show EStateM.Result.ok ((w.bytes (w.reader id).source).length - (w.reader id).offset) _ = _
    rw [h.source_eq, length_bytes h.covers]
  · intro p hp
    rw [← h.lender_eq] at hp
    exact pullEnds h.at hp
  · intro n k hn hpos hk
    have hend := h.covers.end_le
    have hless := h.short
    exact ⟨_, Scan.whole_paddingLength hn hpos hk (by omega), Scan.isLeast_padding _ hpos⟩

/-- A reader stays within its source, whatever is pulled. Where it is and what is left add up to the length of
the source. The next pull passes what it asks for when it is there, fails for the end of the input when fewer
bytes are left, and fails for the length when that is no whole number; what fails changes nothing. -/
theorem poised_of_pulls (hmade : w₀.Made source id lender w₁) (hc : w₀.memory.Covers source)
    (hshort : (w₀.memory.buffer source.buffer).length < exactBound) (h : Pulls id w₁ w) :
    ∃ offset left, w.Poised id source lender offset left :=
  ⟨_, _, (h.within (hmade.within hc hshort)).poised⟩

/-- Six bytes, and a reader of all but the first of them. -/
def oddReader : List Command := [.alloc [255, 1, 0, 0, 0, 9], .newReader ⟨0, 1, 5, false⟩]

/-- A word is read, a length that is too large is refused, and one byte is left. -/
theorem poised_of_pulls_oddReader :
    ∃ w₁ w, (empty.perform (.alloc [255, 1, 0, 0, 0, 9])).2.Made ⟨0, 1, 5, false⟩ 0 none w₁ ∧
      Pulls 0 w₁ w ∧ (w.reader 0).offset = 4 ∧
      ∃ offset left, w.Poised 0 ⟨0, 1, 5, false⟩ none offset left := by
  have hmade : (empty.perform (.alloc [255, 1, 0, 0, 0, 9])).2.Made ⟨0, 1, 5, false⟩ 0 none
      (empty.performAll oddReader).2 := .copies rfl
  have hstart : Pulls 0 (empty.performAll oddReader).2 (empty.performAll oddReader).2 := .start
  have hpulls := (hstart.pull (p := .u32) trivial).pull (p := .copy (ofNat 2)) trivial
  have hcovers : (empty.perform (.alloc [255, 1, 0, 0, 0, 9])).2.memory.Covers ⟨0, 1, 5, false⟩ :=
    ⟨by decide, by decide⟩
  exact ⟨_, _, hmade, hpulls, by decide +kernel,
    poised_of_pulls hmade hcovers (by decide) hpulls⟩

/-- More is asked for than is left, and still the read does not fail for the end of the input. -/
theorem infinite_length_is_no_truncation :
    scan 0 Scan.remaining (empty.performAll oddReader).2 = .ok 5 (empty.performAll oddReader).2 ∧
    (ofNat 5).lt (infinite false) = true ∧
    ((empty.performAll oddReader).2.perform (.reader 0 (.copy (infinite false)))).1 =
      .error (.invalidReadLength (infinite false)) ∧
    ∀ left, ((empty.performAll oddReader).2.perform (.reader 0 (.copy (infinite false)))).1 ≠
      .error (.inputEnds (infinite false) left) := by
  have hrefused : ((empty.performAll oddReader).2.perform (.reader 0 (.copy (infinite false)))).1 =
      .error (.invalidReadLength (infinite false)) := rfl
  refine ⟨rfl, by decide +kernel, hrefused, ?_⟩
  intro left h
  rw [hrefused] at h
  cases h

end World

end LeaseVec
