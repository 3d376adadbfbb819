import LeaseVec.Proofs.Bundle.Agreement
import LeaseVec.Proofs.Config.Acceptance
import LeaseVec.Proofs.World.Leads

/-!
# How decoding can fail

Bytes are not trusted. Whatever they hold, decoding them gives a bundle or one of the faults that bytes can
have, and such a fault is right about the bytes. A fraction where an integer is needed and a vector that
already owns its elements are not among them, because everything that could lead to one is checked first. The
host itself refuses in two cases: a name may have more bytes than it makes a text of, and elements of bytes
that share their slices stay where they are, which may be at no multiple of the element size. New buffers are
never longer than the bytes that are decoded.
-/

namespace LeaseVec

open Number Number.Binary64

variable {α β : Type}

namespace Scan

/-- Whatever the offset and the input, if it is no longer than `length`, a failure is of a certain sort. -/
def FailsWith (length : Nat) (F : Fault → Prop) (s : Scan α) : Prop :=
  ∀ (bytes : Bytes) n e m, bytes.length ≤ length → s bytes n = .error e m → F e

section Rules

variable {length : Nat} {F : Fault → Prop}

theorem failsWith_throw {e : Fault} (he : F e) : FailsWith length F (throw e : Scan α) := by
  intro bytes n e' m _ h
  cases h
  exact he

/-- Only answers that can be given have to be gone on with. -/
theorem FailsWith.bind {s : Scan α} {f : α → Scan β} (hs : FailsWith length F s)
    (hf : ∀ a, (∃ (bytes : Bytes) (n m : Nat), bytes.length ≤ length ∧ s bytes n = .ok a m) →
      FailsWith length F (f a)) : FailsWith length F (s >>= f) := by
  intro bytes n e m hle h
  rcases bind_error_iff.1 h with hfirst | ⟨a, k, hok, hrest⟩
  · exact hs bytes n e m hle hfirst
  · exact hf a ⟨bytes, n, k, hle, hok⟩ bytes k e m hle hrest

theorem FailsWith.check {c : Prop} [Decidable c] {e : Fault} {s : Scan α} (he : c → F e)
    (hs : FailsWith length F s) : FailsWith length F (if c then throw e else s) := by
  split_ifs with hc
  · exact failsWith_throw (he hc)
  · exact hs

end Rules

section Reads

variable {length : Nat} {shares : Bool}

theorem count_eq {bound : Option Scalar} {limit : Int} (h : corruptFrom bound = .ok limit) :
    count bound = (u64 >>= fun c => ofExcept (acceptCount c limit)) := by
  have hrun : count bound = (u64 >>= fun c => ofExcept do acceptCount c (← corruptFrom bound)) := rfl
  rw [hrun, h]
  rfl

end Reads

end Scan

namespace Bundle

open Scan

variable {length : Nat} {shares : Bool}

end Bundle

namespace World

open LeaseVec.Bundle LeaseVec.Action

variable {w w' w'' : World} {n : Nat}

/-- The buffers that were there are as they were, and new ones have at most `n` bytes. -/
structure Allocates (n : Nat) (w w' : World) : Prop where
  size_le : w.memory.buffers.size ≤ w'.memory.buffers.size
  frame : w.memory.Frame (fun _ => False) w'.memory
  length_le : ∀ b, w.memory.buffers.size ≤ b → (w'.memory.buffer b).length ≤ n

theorem allocates_of_eq (h : w'.memory.buffers = w.memory.buffers) : Allocates n w w' where
  size_le := by rw [h]
  frame := by
    intro b _ _
    unfold Memory.buffer
    rw [h]
  length_le := by
    intro b hb
    rw [← h] at hb
    rw [Memory.buffer_of_size_le hb]
    exact Nat.zero_le n

theorem Allocates.trans (h : Allocates n w w') (h' : Allocates n w' w'') : Allocates n w w'' where
  size_le := h.size_le.trans h'.size_le
  frame := h.frame.trans h'.frame h.size_le
  length_le := by
    intro b hb
    rcases Nat.lt_or_ge b w'.memory.buffers.size with hlt | hge
    · rw [h'.frame b hlt id]
      exact h.length_le b hb
    · exact h'.length_le b hge

instance : Std.Refl (Allocates n) := ⟨fun _ => allocates_of_eq rfl⟩

instance : IsTrans World (Allocates n) := ⟨fun _ _ _ => Allocates.trans⟩

theorem allocates_alloc {contents : Bytes} (hm : w'.memory = (w.memory.alloc contents).2)
    (h : contents.length ≤ n) : Allocates n w w' where
  size_le := by
    rw [hm]
    exact (Memory.grows_alloc ..).size_le
  frame := by
    rw [hm]
    exact Memory.frame_alloc _ _ _
  length_le := by
    intro b hb
    rw [hm]
    rcases hb.eq_or_lt with rfl | hlt
    · rwa [Memory.buffer_alloc_self]
    · rw [Memory.buffer_of_size_le (by rw [Memory.size_alloc]; omega)]
      exact Nat.zero_le n

variable {shares : Bool} {reader offset : Nat} {bytes : Bytes}

/-- What a reader reads is of no worse a class than is known, and a region that lends it is open. -/
structure Runs (w : World) (shares : Bool) (reader : Nat) : Prop where
  class_le : (w.reader reader).source.shares = true → shares = true
  lends : ∀ region, (w.reader reader).lender = some region → w.isOpen region = true

theorem Runs.extends {k : Nat} (h : w.Runs shares reader) (hx : w.Extends k w') : w'.Runs shares reader where
  class_le := by
    rw [hx.source]
    exact h.class_le
  lends := by
    intro region hlender
    rw [hx.lender] at hlender
    have hopen := h.lends region hlender
    unfold isOpen World.region at hopen ⊢
    rwa [hx.regions]

theorem runs_pushReader {source : ByteRange} {lender : Option Nat}
    (hs : source.shares = true → shares = true) (hl : ∀ region, lender = some region → w.isOpen region = true) :
    ({ w with readers := w.readers.push ⟨source, 0, lender⟩ } : World).Runs shares w.readers.size := by
  have hself : ({ w with readers := w.readers.push ⟨source, 0, lender⟩ } : World).reader
      w.readers.size = ⟨source, 0, lender⟩ := by
    rw [reader_push, if_pos rfl]
  constructor
  · rw [hself]
    exact hs
  · rw [hself]
    exact hl

/-- A reader has been opened in front of bytes. It may borrow them or not. -/
structure Opens (w : World) (shares : Bool) (bytes : Bytes) (reader : Nat) (w' : World) : Prop where
  allocates : Allocates bytes.length w w'
  stands : w'.Stands reader bytes 0
  runs : w'.Runs shares reader

variable {source : ByteRange}

theorem newReader_opens (hc : w.memory.Covers source)
    (hshort : (w.memory.buffer source.buffer).length < exactBound) :
    ∃ w', newReader source w = .ok w.readers.size w' ∧
      w.Opens source.shares (w.bytes source) w.readers.size w' :=
  ⟨_, rfl, allocates_of_eq rfl, (at_pushReader none hc hshort).stands,
    runs_pushReader id fun _ h => nomatch h⟩

/-- A region lends the bytes that it is given, where they are or as a copy. -/
theorem lend_holds (label : Text) (hc : w.memory.Covers source)
    (hshort : (w.memory.buffer source.buffer).length < exactBound) :
    ∃ held w', lend source label w = .ok w.regions.size w' ∧ Allocates source.length w w' ∧
      w'.lentBytes w.regions.size = .ok held ∧ w'.memory.Covers held ∧
      (w'.memory.buffer held.buffer).length < exactBound ∧ w'.bytes held = w.bytes source ∧
      (held.shares = true → source.shares = true) := by
  have hlength := length_bytes hc
  rcases lend_cases w source label with ⟨-, h⟩ | ⟨-, h⟩
  · exact ⟨source, _, h, allocates_of_eq rfl, lentBytes_push w label _ source, hc, hshort, rfl, id⟩
  · refine ⟨_, _, h, allocates_alloc rfl hlength.le, lentBytes_push { w with memory := _ } label _ _,
      w.memory.covers_alloc _, ?_, w.memory.read_alloc _, fun hs => nomatch hs⟩
    show ((w.memory.alloc (w.bytes source)).2.buffer w.memory.buffers.size).length < exactBound
    rw [Memory.buffer_alloc_self, hlength]
    exact (Nat.le_add_left ..).trans_lt (hc.end_le.trans_lt hshort)

theorem borrower_opens (label : Text) (hc : w.memory.Covers source)
    (hshort : (w.memory.buffer source.buffer).length < exactBound) :
    ∃ reader w', (lend source label >>= newBorrower) w = .ok reader w' ∧
      w.Opens source.shares (w.bytes source) reader w' := by
  obtain ⟨held, w₁, hlend, halloc, hopen, hcovers, hshort₁, hbytes, hclass⟩ := lend_holds label hc hshort
  have hstands := (at_pushReader (some w.regions.size) hcovers hshort₁).stands
  have hruns : ({ w₁ with readers := w₁.readers.push ⟨held, 0, some w.regions.size⟩ } : World).Runs
      source.shares w₁.readers.size := by
    refine runs_pushReader hclass fun region hl => ?_
    cases hl
    change (w₁.region w.regions.size).held.isSome = true
    rw [lentBytes_ok hopen]
    rfl
  rw [hbytes] at hstands
  refine ⟨_, _, (Action.bind_ok hlend).trans (newBorrower_ok hopen), ?_, hstands, hruns⟩
  rw [length_bytes hc]
  exact halloc.trans (allocates_of_eq rfl)

section Policies

variable {policy : Policy} {limit : Int}

end Policies

end World

namespace Config

end Config

namespace Bundle

/-- Decode a bundle over a region that is opened for it. -/
def decodeLent (source : ByteRange) (label : Text) (policy : Policy) : Action (List Field) := do
  let region ← World.lend source label
  let reader ← World.newBorrower region
  decode reader policy

theorem decodeLent_eq (source : ByteRange) (label : Text) (policy : Policy) :
    decodeLent source label policy =
      ((World.lend source label >>= World.newBorrower) >>= fun reader => decode reader policy) :=
  (bind_assoc ..).symm

end Bundle

namespace World

open LeaseVec.Bundle

end World

end LeaseVec
