import LeaseVec.Proofs.Stream.Pulls
import LeaseVec.Proofs.Bundle.Acceptance
import LeaseVec.Proofs.Ownership.Histories
import Mathlib.Data.List.Basic

/-!
# Readers mirror writers

What was pushed to a writer is read back from its joined bytes by the reads that mirror the pushes, in any
order of words, bytes, zeros and fields. The bytes of a run of pushes are the bytes of one push behind those of
the other, so both halves are inductions over the run: writing keeps that the writer holds these bytes, and
reading keeps that the reader stands between those that have been read and those that have not.
-/

namespace LeaseVec

open Number Number.Binary64

/-- A push and the world in which it is made. -/
structure Pushed where
  push : Push
  before : World

namespace Pushed

variable {id : Nat} {e : Pushed}

/-- What the push ends in. -/
def outcome (id : Nat) (e : Pushed) : Except Fault Reply × World :=
  e.before.perform (.writer id e.push.write)

/-- The length of the writer after the push. -/
def lengthAfter (id : Nat) (e : Pushed) : Nat := ((e.outcome id).2.writer id).length

/-- The push has added bytes behind a number of others. -/
structure Added (id : Nat) (e : Pushed) (start : Nat) (bytes : Bytes) : Prop where
  done : (e.outcome id).1 = .ok .done
  length_after : e.lengthAfter id = start + bytes.length
  adds : e.before.Adds start e.push bytes

end Pushed

/-- The bytes that pushes have added one behind the other. -/
def Spells (id : Nat) : Nat → List Pushed → Bytes → Prop
  | _, [], bytes => bytes = []
  | start, e :: rest, bytes => ∃ x y, bytes = x ++ y ∧ e.Added id start x ∧
      Spells id (start + x.length) rest y

theorem spells_append {id start : Nat} {log log' : List Pushed} {bytes : Bytes} :
    Spells id start (log ++ log') bytes ↔ ∃ x y, bytes = x ++ y ∧ Spells id start log x ∧
      Spells id (start + x.length) log' y := by
  induction log generalizing start bytes with
  | nil =>
    constructor
    · intro h
      exact ⟨[], bytes, rfl, rfl, h⟩
    · rintro ⟨x, y, rfl, rfl, h⟩
      exact h
  | cons e log ih =>
    constructor
    · rintro ⟨x, y, rfl, he, hrest⟩
      obtain ⟨x', y', rfl, hlog, hlog'⟩ := ih.1 hrest
      refine ⟨x ++ x', y', by rw [List.append_assoc], ⟨x, x', rfl, he, hlog⟩, ?_⟩
      rwa [List.length_append, ← Nat.add_assoc]
    · rintro ⟨x, y, rfl, ⟨x', y', rfl, he, hlog⟩, hlog'⟩
      rw [List.length_append, ← Nat.add_assoc] at hlog'
      exact ⟨x', y' ++ y, List.append_assoc .., he, ih.2 ⟨y', y, rfl, hlog, hlog'⟩⟩

theorem spells_singleton {id start : Nat} {e : Pushed} {bytes : Bytes} :
    Spells id start [e] bytes ↔ e.Added id start bytes := by
  constructor
  · rintro ⟨x, y, rfl, he, rfl⟩
    rwa [List.append_nil]
  · intro h
    exact ⟨bytes, [], (List.append_nil bytes).symm, h, rfl⟩

theorem Spells.done {id start : Nat} {log : List Pushed} {bytes : Bytes}
    (h : Spells id start log bytes) : ∀ e ∈ log, (e.outcome id).1 = .ok .done := by
  induction log generalizing start bytes with
  | nil => simp
  | cons e log ih =>
    obtain ⟨x, y, rfl, he, hrest⟩ := h
    exact List.forall_mem_cons.2 ⟨he.done, ih hrest⟩

namespace World

variable {w w' w₀ : World} {id reader : Nat} {log : List Pushed}

/-- A stretch of a history that pushes nothing and leaves what has been pushed as it is. -/
structure LeavesWriter (w : World) (id : Nat) (w' : World) : Prop where
  writers_le : w.writers.size ≤ w'.writers.size
  writer_eq : w'.writer id = w.writer id
  bytes_eq : ∀ range, Part.shared range ∈ (w.writer id).parts → w'.bytes range = w.bytes range

/-- Allowed pushes one after another, with anything in between that leaves what has been pushed as it is. -/
inductive Writes (id : Nat) (w₀ : World) : List Pushed → World → Prop
  | start : Writes id w₀ [] w₀
  | push {log : List Pushed} {w : World} {p : Push} (h : Writes id w₀ log w) (hp : w.CanPush id p) :
      Writes id w₀ (log ++ [⟨p, w⟩]) (w.perform (.writer id p.write)).2
  | between {log : List Pushed} {w w' : World} (h : Writes id w₀ log w) (hw : w.LeavesWriter id w') :
      Writes id w₀ log w'

theorem LeavesWriter.holds {bytes : Bytes} (hw : w.LeavesWriter id w')
    (h : (w.writer id).Holds w.memory bytes) : (w'.writer id).Holds w'.memory bytes where
  toBytes_eq := by
    rw [hw.writer_eq, ← h.toBytes_eq]
    apply List.flatMap_congr
    intro part hpart
    cases part with
    | literal bytes => rfl
    | shared range => exact hw.bytes_eq range (Array.mem_toList_iff.1 hpart)
  length_eq := by rw [hw.writer_eq, h.length_eq]

theorem Writes.lt (h : Writes id w₀ log w) (hid : id < w₀.writers.size) : id < w.writers.size := by
  induction h with
  | start => exact hid
  | @push log w p h hp ih =>
    rw [perform_push]
    cases p.change w (w.writer id) with
    | ok x => simpa using ih
    | error e => exact ih
  | between h hw ih => exact ih.trans_le hw.writers_le

/-- The writer holds the bytes of the pushes. -/
theorem Writes.holds (h : Writes id w₀ log w) (hid : id < w₀.writers.size)
    (hstart : w₀.writer id = .empty) (hshort : (w.writer id).length ≤ exactBound) :
    ∃ bytes, (w.writer id).Holds w.memory bytes ∧ Spells id 0 log bytes := by
  induction h with
  | start =>
    rw [hstart]
    exact ⟨[], Writer.holds_empty _, rfl⟩
  | @push log w p h hp ih =>
    have hlt := h.lt hid
    obtain ⟨before, hbefore, hspells⟩ := ih ((length_le_perform hlt p).trans hshort)
    have hle : before.length ≤ exactBound := by
      rw [← hbefore.length_eq]
      exact (length_le_perform hlt p).trans hshort
    obtain ⟨bytes, x, hchange, hadds, hx⟩ := change_ok hp hbefore hle
    have hperform := perform_push w id p
    rw [hchange] at hperform
    have hself : ((w.perform (.writer id p.write)).2.writer id) = x := by
      rw [hperform]
      exact writer_setWriter_self w x hlt
    refine ⟨before ++ bytes, ?_, spells_append.2 ⟨before, bytes, rfl, hspells, spells_singleton.2
      ⟨?_, ?_, ?_⟩⟩⟩
    · rw [hself, hperform]
      exact hx
    · show (w.perform (.writer id p.write)).1 = _
      rw [hperform]
    · show ((w.perform (.writer id p.write)).2.writer id).length = _
      rw [hself, hx.length_eq, List.length_append, Nat.zero_add]
    · rw [Nat.zero_add]
      exact hadds
  | between h hw ih =>
    rw [hw.writer_eq] at hshort
    obtain ⟨bytes, hbytes, hspells⟩ := ih hshort
    exact ⟨bytes, hw.holds hbytes, hspells⟩

/-- A stretch of a history that leaves a reader where it is and its bytes as they are, and does not close the
region that lends them. -/
structure LeavesReader (w : World) (reader : Nat) (w' : World) : Prop where
  readers_le : w.readers.size ≤ w'.readers.size
  reader_eq : w'.reader reader = w.reader reader
  buffers_le : w.memory.buffers.size ≤ w'.memory.buffers.size
  buffer_eq : w'.memory.buffer (w.reader reader).source.buffer =
    w.memory.buffer (w.reader reader).source.buffer
  opened : ∀ region, (w.reader reader).lender = some region → w.isOpen region = true →
    w'.isOpen region = true

/-- The reads that mirror pushes, one after another, with anything in between that leaves the reader alone. -/
inductive Reads (reader : Nat) (w₀ : World) : List Pushed → World → Prop
  | start : Reads reader w₀ [] w₀
  | read {log : List Pushed} {w : World} {e : Pushed} {vec : Nat} {policy : ReadPolicy}
      (h : Reads reader w₀ log w) (ht : w.CanTake e.before vec policy e.push) :
      Reads reader w₀ (log ++ [e]) (w.perform (.reader reader (e.push.read vec policy))).2
  | between {log : List Pushed} {w w' : World} (h : Reads reader w₀ log w)
      (hw : w.LeavesReader reader w') : Reads reader w₀ log w'

theorem LeavesReader.at {before rest : Bytes} (hw : w.LeavesReader reader w')
    (h : w.At reader before rest) : w'.At reader before rest := by
  refine ⟨h.lt.trans_le hw.readers_le, ?_, ?_, ?_, ?_⟩
  · rw [hw.reader_eq]
    refine ⟨h.covers.buffer_lt.trans_le hw.buffers_le, ?_⟩
    rw [hw.buffer_eq]
    exact h.covers.end_le
  · rw [hw.reader_eq, hw.buffer_eq]
    exact h.short
  · rw [hw.reader_eq, ← h.bytes]
    exact Memory.read_congr hw.buffer_eq
  · rw [hw.reader_eq]
    exact h.offset

theorem LeavesReader.serves (hw : w.LeavesReader reader w') (h : w.Serves reader true) :
    w'.Serves reader true where
  plain := by
    rw [hw.reader_eq]
    exact h.plain
  lends := by
    intro _ region hl
    rw [hw.reader_eq] at hl
    exact hw.opened region hl (h.lends rfl region hl)

/-- The reader stands behind the bytes of the pushes that have been read back. -/
theorem Reads.at {bytes rest : Bytes} (h : Reads reader w₀ log w) (hspells : Spells id 0 log bytes)
    (hat : w₀.At reader [] (bytes ++ rest)) (hl : w₀.Serves reader true) :
    w.At reader bytes rest ∧ w.Serves reader true := by
  induction h generalizing bytes rest with
  | start =>
    obtain rfl : bytes = [] := hspells
    exact ⟨hat, hl⟩
  | @read log w e vec policy h ht ih =>
    obtain ⟨x, y, rfl, hx, hy⟩ := spells_append.1 hspells
    have hadds := (spells_singleton.1 hy).adds
    rw [Nat.zero_add] at hadds
    rw [List.append_assoc] at hat
    obtain ⟨hstands, hlend⟩ := ih hx hat
    obtain ⟨reply, w', hperform, -, hstands', hlend'⟩ := perform_read hadds hstands hlend ht
    rw [hperform]
    exact ⟨hstands', hlend'⟩
  | between h hw ih =>
    obtain ⟨hstands, hlend⟩ := ih hspells hat
    exact ⟨hw.at hstands, hw.serves hlend⟩

/-- A reader gives back what was pushed: after the reads that mirror the first pushes, the one that mirrors the
next succeeds, and the reader is as far as the writer was. After all of them nothing is left. -/
structure GivesBack (w : World) (reader id : Nat) (log : List Pushed) : Prop where
  each : ∀ (done : List Pushed) (e : Pushed) (rest : List Pushed) (w₁ : World) (vec : Nat)
    (policy : ReadPolicy), log = done ++ e :: rest → Reads reader w done w₁ →
    w₁.CanTake e.before vec policy e.push →
    ∃ reply w₂, w₁.perform (.reader reader (e.push.read vec policy)) = (.ok reply, w₂) ∧
      e.before.Returns e.push w₂ vec reply ∧ (w₂.reader reader).offset = e.lengthAfter id
  all : ∀ w₁, Reads reader w log w₁ →
    (w₁.reader reader).offset = (w₁.reader reader).source.length

theorem givesBack_of_spells {bytes : Bytes} (hspells : Spells id 0 log bytes)
    (hat : w.At reader [] bytes) (hl : w.Serves reader true) : w.GivesBack reader id log := by
  constructor
  · rintro done e rest w₁ vec policy rfl hreads ht
    obtain ⟨x, y, rfl, hx, z, y', rfl, he, -⟩ := spells_append.1 hspells
    have hadds := he.adds
    have hafter := he.length_after
    rw [Nat.zero_add] at hadds hafter
    obtain ⟨hstands, hlend⟩ := hreads.at hx hat hl
    obtain ⟨reply, w₂, hperform, hreturns, hstands', -⟩ := perform_read hadds hstands hlend ht
    refine ⟨reply, w₂, hperform, hreturns, ?_⟩
    rw [hstands'.offset, List.length_append, hafter]
  · intro w₁ hreads
    rw [← List.append_nil bytes] at hat
    obtain ⟨hstands, -⟩ := hreads.at hspells hat hl
    have hlength := length_bytes hstands.covers
    rw [hstands.bytes, List.append_nil] at hlength
    rw [hstands.offset, hlength]

theorem perform_join {bytes : Bytes} (h : (w.writer id).Holds w.memory bytes) :
    w.perform (.writer id .join) = (.ok (.range (w.memory.alloc bytes).1),
      { w with memory := (w.memory.alloc bytes).2 }) := by
  have hjoined : joined id w = .ok (w.memory.alloc bytes).1
      { w with memory := (w.memory.alloc bytes).2 } := by
    show alloc ((w.writer id).toBytes w.memory) w = _
    rw [h.toBytes_eq]
    rfl
  exact perform_ok (f := fun r => .range r) rfl hjoined

/-- A reader that copies is in front of its bytes. -/
theorem givesBack_newReader {source : ByteRange} (hplain : source.shares = false) (hc : w.memory.Covers source)
    (hshort : (w.memory.buffer source.buffer).length < exactBound)
    (hspells : Spells id 0 log (w.bytes source)) :
    ∃ reader w₁, w.perform (.newReader source) = (.ok (.made reader), w₁) ∧
      w₁.GivesBack reader id log := by
  obtain ⟨w₁, hnew, hat, hl⟩ := Bundle.at_newReader hc hshort
  exact ⟨_, w₁, perform_ok (f := fun n => .made n) rfl hnew, givesBack_of_spells hspells hat (hl hplain true)⟩

/-- So is a reader over a new region, which may lend them. -/
theorem givesBack_newBorrower {source : ByteRange} (hplain : source.shares = false) (hc : w.memory.Covers source)
    (hshort : (w.memory.buffer source.buffer).length < exactBound)
    (hb : source.offset % boundary = 0) (label : Text)
    (hspells : Spells id 0 log (w.bytes source)) :
    ∃ region w₁ reader w₂, w.perform (.lend source label) = (.ok (.made region), w₁) ∧
      w₁.perform (.newBorrower region) = (.ok (.made reader), w₂) ∧ w₂.GivesBack reader id log := by
  obtain ⟨-, hlend⟩ := (lend_cases w source label).resolve_right fun h => h.1.1 hb
  have hregion : ({ w with regions := w.regions.push ⟨label, source.length, some source⟩ } :
      World).region w.regions.size = ⟨label, source.length, some source⟩ := by
    rw [region_push, if_pos rfl]
  refine ⟨_, _, _, _, perform_ok (f := fun n => .made n) rfl hlend,
    perform_ok (f := fun n => .made n) rfl (newBorrower_ok (lentBytes_push w label _ source)),
    givesBack_of_spells hspells (Bundle.at_pushReader (some w.regions.size) hc hshort)
      ⟨?_, fun _ region hl => ?_⟩⟩
  · rw [reader_push, if_pos rfl]
    exact hplain
  rw [reader_push, if_pos rfl] at hl
  cases hl
  show (({ w with regions := w.regions.push ⟨label, source.length, some source⟩ } :
    World).region w.regions.size).isOpen = true
  rw [hregion]
  rfl

/-- Readers mirror writers. Every allowed push to a new writer succeeds, and the joined bytes are as many as the
writer says. A reader of these bytes that copies, and one that may borrow them from a region, give back all
that was pushed. -/
theorem reader_mirrors_writer (hid : id < w₀.writers.size) (hstart : w₀.writer id = .empty)
    (h : Writes id w₀ log w) (hshort : (w.writer id).length < exactBound) :
    (∀ e ∈ log, (e.outcome id).1 = .ok .done) ∧
    ∃ joined w', w.perform (.writer id .join) = (.ok (.range joined), w') ∧
      (w'.bytes joined).length = (w.writer id).length ∧
      (∃ reader w₁, w'.perform (.newReader joined) = (.ok (.made reader), w₁) ∧
        w₁.GivesBack reader id log) ∧
      ∀ label, ∃ region w₁ reader w₂, w'.perform (.lend joined label) = (.ok (.made region), w₁) ∧
        w₁.perform (.newBorrower region) = (.ok (.made reader), w₂) ∧ w₂.GivesBack reader id log := by
  obtain ⟨bytes, hbytes, hspells⟩ := h.holds hid hstart hshort.le
  have hread := w.memory.read_alloc bytes
  rw [hbytes.length_eq] at hshort ⊢
  have hbuffer : ((w.memory.alloc bytes).2.buffer (w.memory.alloc bytes).1.buffer).length <
      exactBound := by
    show ((w.memory.alloc bytes).2.buffer w.memory.buffers.size).length < exactBound
    rwa [Memory.buffer_alloc_self]
  rw [← hread] at hspells
  exact ⟨hspells.done, _, _, perform_join hbytes, congrArg List.length hread,
    givesBack_newReader rfl (w.memory.covers_alloc bytes) hbuffer hspells,
    fun label => givesBack_newBorrower rfl (w.memory.covers_alloc bytes) hbuffer rfl label hspells⟩

/-- A vector of two elements of two bytes each, three bytes, and a new writer. -/
def beforePushes : List Command :=
  [.vecOfList .u16 [.number 1, .number 258] false, .alloc [7, 8, 9], .newWriter]

/-- The three bytes are pushed to the writer. -/
def bytesPushed : List Command := beforePushes ++ [.writer 0 (.bytes ⟨1, 0, 3, false⟩)]

/-- Behind the three bytes the field starts at an odd place. -/
def oddPlace : List Push :=
  [.bytes ⟨1, 0, 3, false⟩, .field 0 (ofNat 2), .align (ofNat 8), .i32 (ofInt (-1))]

theorem reader_mirrors_writer_oddPlace :
    ∃ log w, Writes 0 (empty.performAll beforePushes).2 log w ∧ log.map Pushed.push = oddPlace ∧
      (w.writer 0).length = 20 ∧ (∀ e ∈ log, (e.outcome 0).1 = .ok .done) ∧
      ∃ joined w' reader w₁, w.perform (.writer 0 .join) = (.ok (.range joined), w') ∧
        w'.perform (.newReader joined) = (.ok (.made reader), w₁) ∧ w₁.GivesBack reader 0 log := by
  have hl : empty.LawfulAll bytesPushed := by
    refine ⟨?_, ?_, ?_, ?_, trivial⟩
    all_goals
      intro r hr
      cases hr
  have hm : (empty.performAll bytesPushed).2.memory.Addressable :=
    Memory.addressable_of_all (by decide +kernel)
  have hi := (advances_performAll exclusive_empty hl).inBounds exclusive_empty inBounds_empty hm
  have htwo : Whole (ofNat 2) 2 := whole_ofNat (by decide)
  have height : Whole (ofNat 8) 8 := whole_ofNat (by decide)
  have hbytes : (empty.performAll beforePushes).2.CanPush 0 (.bytes ⟨1, 0, 3, false⟩) :=
    ⟨by decide +kernel, by decide +kernel⟩
  have h₁ := Writes.start.push hbytes
  have hfield : (empty.performAll bytesPushed).2.CanPush 0 (.field 0 (ofNat 2)) := by
    refine ⟨hi, ⟨2, htwo, by decide, by decide +kernel, by decide +kernel⟩, ?_⟩
    intro view region hh
    cases hh
  have h₂ := h₁.push hfield
  have halign : ((empty.performAll bytesPushed).2.perform (.writer 0 (.field 0 (ofNat 2)))).2.CanPush 0
      (.align (ofNat 8)) :=
    ⟨8, height, by decide, by decide, by decide +kernel⟩
  have h₃ := h₂.push halign
  have h₄ := h₃.push (p := .i32 (ofInt (-1))) trivial
  obtain ⟨hdone, joined, w', hjoin, -, ⟨reader, w₁, hreader, hback⟩, -⟩ :=
    reader_mirrors_writer (by decide +kernel) rfl h₄ (by decide +kernel)
  exact ⟨_, _, h₄, rfl, by decide +kernel, hdone, joined, w', reader, w₁, hjoin, hreader, hback⟩

/-- A vector of elements of one byte is attached to a view of elements of two bytes, written as a field, and
read back. -/
def foreignView : List Command :=
  [.alloc [1, 0, 2, 0], .lend ⟨0, 0, 4, false⟩ [], .view .u16 0 (ofNat 0) (some (ofNat 2)),
    .newVec .u8 false, .vec 0 (.attach ⟨.u16, 0, 0, 2, 0⟩ 0), .newWriter,
    .writer 0 (.field 0 (ofNat 1)), .writer 0 .join, .newReader ⟨1, 0, 12, false⟩, .newVec .u8 false,
    .reader 0 (.field 1 (ofNat 1) {})]

/-- Through a view of another kind the writer takes more bytes than the count tells, so the reader stops short
of them and finds other elements. -/
theorem foreign_view_is_not_mirrored :
    ((empty.performAll foreignView).1.all fun outcome => outcome.toOption.isSome) = true ∧
    ((empty.performAll foreignView).2.writer 0).length = 12 ∧
    ((empty.performAll foreignView).2.reader 0).offset = 10 ∧
    ((empty.performAll foreignView).2.vec 0).kind = ((empty.performAll foreignView).2.vec 1).kind ∧
    ((empty.performAll foreignView).2.elements ((empty.performAll foreignView).2.vec 0)).toOption =
      some [.number 1, .number 2] ∧
    ((empty.performAll foreignView).2.elements ((empty.performAll foreignView).2.vec 1)).toOption =
      some [.number 1, .number 0] := by
  refine ⟨?_, ?_, ?_, ?_, ?_, ?_⟩ <;> decide +kernel

end World

end LeaseVec
