import LeaseVec.Proofs.Lifetime.Rounds
import LeaseVec.Proofs.Ownership.Footprints
import LeaseVec.Proofs.Ownership.Uniform
import LeaseVec.Proofs.Stream.Mirror

/-!
# A written field stays where it is

A writer keeps the ranges that it is given and reads them when its parts are put together. In between the vector of a
field may shrink, move to other storage or give its storage away. But parts are only added, and no buffer goes away or
changes its length, so every part has as many bytes as it was counted for, and behind the count of a field there are
as many bytes as it tells. They are the bytes that the elements had their place in when the field was written.
-/

namespace LeaseVec

open Number Number.Binary64

/-- A part has as many bytes as it counts for. -/
def Part.Full (m : Memory) (part : Part) : Prop := (Writer.partBytes m part).length = part.length

theorem Part.full_shared {m : Memory} {r : ByteRange} (h : m.Covers r) : (Part.shared r).Full m := by
  have hend := h.end_le
  change ((m.buffer r.buffer).slice r.offset r.length).length = r.length
  rw [Bytes.length_slice]
  omega

/-- Memory only grows, so a part that is full stays full. -/
theorem Part.Full.of_grows {m m' : Memory} {part : Part} (h : part.Full m) (hg : m.Grows m') : part.Full m' := by
  cases part with
  | literal bytes => rfl
  | shared r =>
    change ((m.buffer r.buffer).slice r.offset r.length).length = r.length at h
    change ((m'.buffer r.buffer).slice r.offset r.length).length = r.length
    rw [Bytes.length_slice] at h ⊢
    rcases Nat.lt_or_ge r.buffer m.buffers.size with hlt | hge
    · rwa [hg.length_eq _ hlt]
    · rw [Memory.buffer_of_size_le hge, List.length_nil] at h
      omega

/-- The bytes of full parts are as many as they count for. -/
theorem Part.length_flatMap {m : Memory} {parts : List Part} (h : ∀ part ∈ parts, part.Full m) :
    (parts.flatMap (Writer.partBytes m)).length = parts.foldr (fun p n => p.length + n) 0 := by
  induction parts with
  | nil => rfl
  | cons part rest ih =>
    obtain ⟨hpart, hrest⟩ := List.forall_mem_cons.1 h
    rw [List.flatMap_cons, List.length_append, List.foldr_cons, ih hrest, hpart]

theorem Writer.holds_of_full {m : Memory} {x : Writer} (h : ∀ part ∈ x.parts.toList, part.Full m) :
    x.Holds m (x.toBytes m) := ⟨rfl, (Part.length_flatMap h).symm⟩

/-- At a place among bytes there is a count, and right behind it a payload. -/
structure Bytes.HasField (bytes : Bytes) (start count : Nat) (payload : Bytes) : Prop where
  fits : start + (8 + payload.length) ≤ bytes.length
  count_eq : Word.decode (bytes.slice start 8) = count
  payload_eq : bytes.slice (start + 8) payload.length = payload

theorem Bytes.slice_append (front part back : Bytes) :
    (front ++ (part ++ back)).slice front.length part.length = part := by
  unfold Bytes.slice
  rw [List.drop_left, List.take_left]

theorem Bytes.hasField_append {count : Nat} (hcount : count < 2 ^ 64) (front payload back : Bytes) :
    (front ++ (Word.encode 8 count ++ (payload ++ back))).HasField front.length count payload where
  fits := by
    simp only [List.length_append, Word.length_encode]
    omega
  count_eq := by
    have hslice := Bytes.slice_append front (Word.encode 8 count) (payload ++ back)
    rw [Word.length_encode] at hslice
    rw [hslice, Word.decode_encode]
    exact Nat.mod_eq_of_lt hcount
  payload_eq := by
    have hslice := Bytes.slice_append (front ++ Word.encode 8 count) payload back
    rwa [List.length_append, Word.length_encode, List.append_assoc] at hslice

/-- What is asked of a command: it names what is there, attaches views of the vector's own kind only, and pushes bytes
that exist. -/
structure Command.Orderly (w : World) (c : Command) : Prop where
  ownKind : c.OwnKind w
  named : c.Named w
  covers : ∀ id range, c = .writer id (.bytes range) → w.memory.Covers range

namespace World

variable {w w' w'' : World} {out vec : Nat} {c : Command} {later : List Command}

theorem full_of_gives (hu : w.Uniform) {p : Push} {part : Part}
    (hp : ∀ range, p = .bytes range → w.memory.Covers range) (h : w.Gives p part) : part.Full w.memory := by
  cases h with
  | literal bytes => rfl
  | bytes range => exact Part.full_shared (hp range rfl)
  | field stride hview => exact length_read_of_viewOf (hu.vecs _) hview

/-- A writer has the parts that it had, and behind them others that are full. -/
structure Prolongs (out : Nat) (w w' : World) : Prop where
  retains : w.Retains w'
  lt : out < w.writers.size → out < w'.writers.size
  parts : out < w.writers.size → w'.memory.Addressable → w.Uniform →
    ∃ more, (w'.writer out).parts.toList = (w.writer out).parts.toList ++ more ∧ ∀ part ∈ more, part.Full w'.memory

theorem Prolongs.refl (out : Nat) (w : World) : w.Prolongs out w where
  retains := refl_of Retains w
  lt h := h
  parts _ _ _ := ⟨[], (List.append_nil _).symm, fun part hpart => by cases hpart⟩

theorem Prolongs.trans (h : w.Prolongs out w') (h' : w'.Prolongs out w'') : w.Prolongs out w'' where
  retains := trans_of Retains h.retains h'.retains
  lt hlt := h'.lt (h.lt hlt)
  parts hlt hm hu := by
    have hm' := hm.of_grows h'.retains.grows
    obtain ⟨more, hparts, hfull⟩ := h.parts hlt hm' hu
    obtain ⟨more', hparts', hfull'⟩ := h'.parts (h.lt hlt) hm (h.retains.uniform hm' hu)
    refine ⟨more ++ more', by rw [hparts', hparts, List.append_assoc], fun part hpart => ?_⟩
    rcases List.mem_append.1 hpart with hold | hnew
    · exact (hfull part hold).of_grows h'.retains.grows
    · exact hfull' part hnew

theorem solitary_writer (hlt : out < w.writers.size) :
    w.solitary (.writer out) = some (.inr (.inl (w.writer out))) := by
  change (w.writers[out]?).map _ = some (Sum.inr (Sum.inl (w.writers.getD out default)))
  rw [Array.getD_eq_getD_getElem?, Array.getElem?_eq_getElem hlt]
  rfl

theorem writer_of_solitary {x : Writer} (h : w.solitary (.writer out) = some (.inr (.inl x))) :
    out < w.writers.size ∧ w.writer out = x := by
  obtain ⟨y, hy, he⟩ := Option.map_eq_some_iff.1 (show (w.writers[out]?).map _ = _ from h)
  cases he
  refine ⟨(Array.getElem?_eq_some_iff.1 hy).1, ?_⟩
  unfold World.writer
  rw [Array.getD_eq_getD_getElem?, hy]
  rfl

/-- Where the writer is the same nothing has been added. -/
theorem prolongs_of_eq (hr : w.Retains w')
    (h : out < w.writers.size → out < w'.writers.size ∧ w'.writer out = w.writer out) : w.Prolongs out w' where
  retains := hr
  lt hlt := (h hlt).1
  parts hlt _ _ := ⟨[], by rw [(h hlt).2, List.append_nil], fun part hpart => by cases hpart⟩

theorem prolongs_push {p : Push} (hr : w.Retains (w.perform (.writer out p.write)).2)
    (hp : ∀ range, p = .bytes range → w.memory.Covers range) : w.Prolongs out (w.perform (.writer out p.write)).2 := by
  rw [perform_push] at hr ⊢
  cases hx : p.change w (w.writer out) with
  | error e => exact Prolongs.refl out w
  | ok x =>
    rw [hx] at hr
    refine ⟨hr, fun hlt => by rwa [size_writers_setWriter], fun hlt _ hu => ?_⟩
    obtain ⟨more, hparts, hgives⟩ := parts_of_change hx
    refine ⟨more, ?_, fun part hpart => full_of_gives hu hp (hgives part hpart)⟩
    change ((w.setWriter out x).writer out).parts.toList = _
    rw [writer_setWriter_self w x hlt, hparts]

/-- Only what is pushed to a writer is added to it. -/
theorem prolongs_perform (hc : c.Orderly w) : w.Prolongs out (w.perform c).2 := by
  have hr : w.Retains (w.perform c).2 := by
    rw [perform_snd]
    exact (retaining_command hc.ownKind).after
  by_cases hsolitary : c.solitary? = some (.writer out)
  · obtain ⟨wc, rfl⟩ : ∃ wc, c = .writer out wc := by
      cases c with
      | writer id wc =>
        cases hsolitary
        exact ⟨wc, rfl⟩
      | _ => cases hsolitary
    cases wc with
    | word32 value => exact prolongs_push (p := .u32 value) hr fun _ he => by cases he
    | word64 value => exact prolongs_push (p := .u64 value) hr fun _ he => by cases he
    | bytes range =>
      refine prolongs_push (p := .bytes range) hr fun r he => ?_
      cases he
      exact hc.covers out range rfl
    | align n => exact prolongs_push (p := .align n) hr fun _ he => by cases he
    | field vec stride => exact prolongs_push (p := .field vec stride) hr fun _ he => by cases he
    | join => exact prolongs_of_eq hr fun hlt => ⟨hlt, rfl⟩
  · refine prolongs_of_eq hr fun hlt => ?_
    exact writer_of_solitary ((passesBy_perform w hsolitary c.spares_nothing).solitary _ (solitary_writer hlt))

theorem prolongs_performAll (h : w.Throughout Command.Orderly later) : w.Prolongs out (w.performAll later).2 := by
  induction later generalizing w with
  | nil => exact Prolongs.refl out w
  | cons c rest ih => exact (prolongs_perform h.1).trans (ih h.2)

/-- The world in which a new writer has been made. -/
def withWriter (w : World) : World := (w.perform .newWriter).2

/-- A writer that is there, whose parts are all full. -/
structure HasWriter (w : World) (out : Nat) : Prop where
  uniform : w.Uniform
  lt : out < w.writers.size
  full : ∀ part ∈ (w.writer out).parts.toList, part.Full w.memory

theorem HasWriter.prolongs (h : w.HasWriter out) (hp : w.Prolongs out w') (hm : w'.memory.Addressable) :
    w'.HasWriter out := by
  refine ⟨hp.retains.uniform hm h.uniform, hp.lt h.lt, fun part hpart => ?_⟩
  obtain ⟨more, hparts, hfull⟩ := hp.parts h.lt hm h.uniform
  rw [hparts] at hpart
  rcases List.mem_append.1 hpart with hold | hnew
  · exact (h.full part hold).of_grows hp.retains.grows
  · exact hfull part hnew

theorem HasWriter.setWriter (h : w.HasWriter out) {x : Writer} (hx : ∀ part ∈ x.parts.toList, part.Full w.memory) :
    (w.setWriter out x).HasWriter out where
  uniform := ⟨h.uniform.vecs, h.uniform.arrays, h.uniform.held, h.uniform.sources, h.uniform.kept,
    h.uniform.walks⟩
  lt := by
    rw [size_writers_setWriter]
    exact h.lt
  full := by rwa [writer_setWriter_self w x h.lt]

theorem hasWriter_withWriter (hu : w.Uniform) : w.withWriter.HasWriter w.writers.size where
  uniform := ⟨hu.vecs, hu.arrays, hu.held, hu.sources, hu.kept, hu.walks⟩
  lt := Array.size_push (α := Writer) .. ▸ Nat.lt_succ_self _
  full := by
    have hnew : w.withWriter.writer w.writers.size = .empty := by
      change (w.writers.push Writer.empty).getD w.writers.size default = _
      rw [Array.getD_eq_getD_getElem?, Array.getElem?_push_size]
      rfl
    rw [hnew]
    exact fun part hpart => by cases hpart

/-- The parts of a writer can be put together: the bytes are as many as it counts, and among them there is a count
followed by the bytes of a range as they are now. -/
def ShowsField (w : World) (out start count : Nat) (range : ByteRange) : Prop :=
  ∃ joined w', w.perform (.writer out .join) = (.ok (.range joined), w') ∧
    (w'.bytes joined).length = (w.writer out).length ∧
    (w'.bytes joined).HasField start count (w.bytes range)

theorem HasWriter.showsField (h : w.HasWriter out) {before more : List Part} {count : Nat} {range : ByteRange}
    (hcount : count < 2 ^ 64)
    (hparts : (w.writer out).parts.toList = before ++ [.literal (Word.encode 8 count), .shared range] ++ more) :
    w.ShowsField out (before.foldr (fun p n => p.length + n) 0) count range := by
  have hfull := h.full
  have hholds := Writer.holds_of_full hfull
  have hread := w.memory.read_alloc ((w.writer out).toBytes w.memory)
  refine ⟨_, _, perform_join hholds, ?_, ?_⟩
  · rw [hholds.length_eq]
    exact congrArg List.length hread
  · have hbytes : (w.writer out).toBytes w.memory = before.flatMap (Writer.partBytes w.memory) ++
        (Word.encode 8 count ++ (w.bytes range ++ more.flatMap (Writer.partBytes w.memory))) := by
      unfold Writer.toBytes
      rw [hparts]
      simp [Writer.partBytes, World.bytes]
    rw [hparts] at hfull
    have hbefore : ∀ part ∈ before, part.Full w.memory := fun part hpart => hfull part (by simp [hpart])
    have hfield := Bytes.hasField_append hcount (before.flatMap (Writer.partBytes w.memory)) (w.bytes range)
      (more.flatMap (Writer.partBytes w.memory))
    rw [Part.length_flatMap hbefore, ← hbytes, ← hread] at hfield
    exact hfield

/-- What has been pushed stays at its place, whatever is done then. -/
theorem HasWriter.showsField_performAll (h : w.HasWriter out) {before : List Part} {count : Nat} {range : ByteRange}
    (hcount : count < 2 ^ 64)
    (hparts : (w.writer out).parts.toList = before ++ [.literal (Word.encode 8 count), .shared range])
    (hl : w.Throughout Command.Orderly later) (hm : (w.performAll later).2.memory.Addressable) :
    (w.performAll later).2.ShowsField out (before.foldr (fun p n => p.length + n) 0) count range ∧
      ((w.performAll later).2.bytes range).length = range.length := by
  have hprolongs : w.Prolongs out (w.performAll later).2 := prolongs_performAll hl
  obtain ⟨more, hmore, -⟩ := hprolongs.parts h.lt hm h.uniform
  have hrange : (Part.shared range).Full w.memory := h.full _ (by simp [hparts])
  rw [hparts] at hmore
  exact ⟨(h.prolongs hprolongs hm).showsField hcount hmore, hrange.of_grows hprolongs.retains.grows⟩

/-- Whatever a command does to a vector itself, nobody else writes to the bytes of a range by it: neither does its
caller say so, nor does it change or hand on what another owner has stored in the same buffer, nor is the buffer
given away with bytes that share. -/
structure LeavesTo (vec : Nat) (r : ByteRange) (w : World) (c : Command) : Prop where
  unwritten : c.writesAt = true → (w.perform c).2.bytes r = w.bytes r
  others : ∀ o a, o ≠ .vec vec → c.owners o → w.storage? o = some a → a.buffer ≠ r.buffer
  adopts : ¬ w.Adopts c r.buffer

/-- So it is with everything that is done to the vector itself, but for taking over storage in the same buffer. -/
theorem leavesTo_vec {r : ByteRange} {edit : VecCommand}
    (h : ∀ other a, edit = .swap other → w.arrays[other]? = some a → a.buffer ≠ r.buffer) :
    LeavesTo vec r w (.vec vec edit) where
  unwritten hw := by cases hw
  adopts h := nomatch h
  others o a ho howner ha := by
    obtain ⟨-, hself | hpartner⟩ := howner
    · exact absurd hself ho
    · cases edit with
      | swap other =>
        cases hpartner
        exact h other a rfl ha
      | _ => cases hpartner

/-- A buffer exists, and it is not what a vector has stored its elements in. -/
structure StoresApart (w : World) (vec b : Nat) : Prop where
  lt : b < w.memory.buffers.size
  ne : ∀ a, w.storage? (.vec vec) = some a → a.buffer ≠ b

theorem target?_of_writesAt (h : c.writesAt = false) : c.target? = none := by
  cases c with
  | poke => cases h
  | setElement => cases h
  | _ => rfl

/-- A vector that has its elements elsewhere does not write to a buffer, and does not come to have them there. -/
theorem StoresApart.perform {r : ByteRange} (h : w.StoresApart vec r.buffer) (hn : c.Named w)
    (hc : LeavesTo vec r w c) :
    (w.perform c).2.StoresApart vec r.buffer ∧ (w.perform c).2.bytes r = w.bytes r := by
  have htouches := touches_perform hn
  have hhands : ¬ w.InHands c.owners r.buffer := by
    rintro ⟨o, a, ho, ha, he⟩
    by_cases hvec : o = .vec vec
    · subst hvec
      exact h.ne a ha he
    · exact hc.others o a hvec ho ha he
  refine ⟨⟨h.lt.trans_le htouches.size_le, fun a ha he => ?_⟩, ?_⟩
  · rcases htouches.storage _ a ha with hold | (⟨-, hheld⟩ | hadopted) | hnew
    · exact h.ne a hold he
    · exact hhands (he ▸ hheld)
    · exact hc.adopts (he ▸ hadopted)
    · have hlt := h.lt
      omega
  · cases hw : c.writesAt with
    | true => exact hc.unwritten hw
    | false =>
      refine Memory.read_congr (htouches.frame _ h.lt ?_)
      rintro (htarget | hheld | hadopted)
      · rw [target?_of_writesAt hw] at htarget
        cases htarget
      · exact hhands hheld
      · exact hc.adopts hadopted

theorem StoresApart.performAll {r : ByteRange} (h : w.StoresApart vec r.buffer)
    (ho : w.Throughout Command.Orderly later) (hl : w.Throughout (LeavesTo vec r) later) :
    (w.performAll later).2.bytes r = w.bytes r := by
  induction later generalizing w with
  | nil => rfl
  | cons c rest ih =>
    obtain ⟨hnext, hsame⟩ := h.perform ho.1.named hl.1
    exact (ih hnext ho.2 hl.2).trans hsame

/-- The reasons for which a vector is not written as a field. -/
inductive RefusesField (w : World) (vec : Nat) (stride : Binary64) : Fault → Prop where
  | stride (h : ∀ s, Whole stride s → s = 0) : w.RefusesField vec stride (.invalidStride stride)
  | uneven {s : Nat} (hs : Whole stride s) (hpos : 1 ≤ s) (h : ¬ s ∣ (w.vec vec).size) :
      w.RefusesField vec stride (.unevenStride (w.vec vec).size stride)
  | ended {s : Nat} {view : View} {region : Nat} (hs : Whole stride s) (hpos : 1 ≤ s) (hdvd : s ∣ (w.vec vec).size)
      (hh : (w.vec vec).holding = .borrowed view region) (hclosed : w.isOpen region = false) :
      w.RefusesField vec stride (.borrowEnded (w.region region).label)

/-- A vector has been written as a field in groups of `s` elements. -/
structure WritesField (w : World) (out vec s : Nat) (view : View) (w' : World) : Prop where
  /-- Only the writer is another: no vector has changed, and none has been taken to owned storage. -/
  aside : ∃ x, w' = w.setWriter out x
  length_eq : (w'.writer out).length = (w.writer out).length + (8 + (w.vec vec).size * (w.vec vec).kind.width)
  /-- The elements are seen through this view, which takes as many bytes as the count tells. -/
  viewed : w.viewOf (w.vec vec) = .ok view
  span_eq : view.byteLength = (w.vec vec).size / s * s * (w.vec vec).kind.width
  /-- Whatever is done then, to the vector, to the writer or to anything else, the field is where it was written. -/
  lasts : ∀ later, w'.Throughout Command.Orderly later → (w'.performAll later).2.memory.Addressable →
    (w'.performAll later).2.ShowsField out (w.writer out).length ((w.vec vec).size / s) view.range ∧
      ((w'.performAll later).2.bytes view.range).length = view.byteLength
  /-- Borrowed bytes are what they were, whatever is done to the vector, unless somebody else writes them. -/
  untouched : ∀ region, (w.vec vec).holding = .borrowed view region → ∀ later, w'.Throughout Command.Orderly later →
    w'.Throughout (LeavesTo vec view.range) later → (w'.performAll later).2.bytes view.range = w.bytes view.range

/-- How writing a vector as a field ends: it is refused and nothing has happened, or the field is there for good. -/
inductive FieldOutcome (w : World) (out vec : Nat) (stride : Binary64) : Except Fault Reply × World → Prop where
  | refused {e : Fault} (h : w.RefusesField vec stride e) : w.FieldOutcome out vec stride (.error e, w)
  | written {s : Nat} {view : View} {w' : World} (hs : Whole stride s) (hpos : 1 ≤ s) (hdvd : s ∣ (w.vec vec).size)
      (h : w.WritesField out vec s view w') : w.FieldOutcome out vec stride (.ok .done, w')

/-- Under a stride that divides the number of elements, the bytes of the elements are as many as the count tells, and
the count fits its word. -/
theorem span_of_viewOf (hu : w.Uniform) (hm : w.memory.Addressable) {s : Nat} (hdvd : s ∣ (w.vec vec).size)
    {view : View} (hv : w.viewOf (w.vec vec) = .ok view) :
    view.byteLength = (w.vec vec).size * (w.vec vec).kind.width ∧
      (w.vec vec).size / s * s = (w.vec vec).size ∧ (w.vec vec).size / s < 2 ^ 64 := by
  have hsize := byteLength_of_viewOf (hu.vecs vec) hv
  refine ⟨hsize, Nat.div_mul_cancel hdvd, ?_⟩
  have hread := length_read_of_viewOf (hu.vecs vec) hv
  have hbuffer : (w.memory.read view.range).length ≤ (w.memory.buffer view.buffer).length := by
    change ((w.memory.buffer view.buffer).slice _ _).length ≤ _
    rw [Bytes.length_slice]
    omega
  have hcount : (w.vec vec).size / s ≤ (w.vec vec).size * (w.vec vec).kind.width :=
    (Nat.div_le_self ..).trans (Nat.le_mul_of_pos_right _ (w.vec vec).kind.width_pos)
  have haddressable := hm view.buffer
  have hbound : exactBound < 2 ^ 64 := by decide
  omega

/-- A field that has been written is there for good. -/
theorem writesField_of_ok (h : w.HasWriter out) (hm : w.memory.Addressable) {s : Nat} {view : View}
    (hdvd : s ∣ (w.vec vec).size) (hv : w.viewOf (w.vec vec) = .ok view) :
    w.WritesField out vec s view (w.setWriter out
      (((w.writer out).push64 ((w.vec vec).size / s : Nat)).pushPart (.shared view.range))) := by
  obtain ⟨hsize, hexact, hcount⟩ := span_of_viewOf h.uniform hm hdvd hv
  have hread := length_read_of_viewOf (h.uniform.vecs vec) hv
  rw [Writer.push64_natCast _ hcount]
  have hparts := (w.writer out).parts_pushWord_pushPart 8 ((w.vec vec).size / s) (.shared view.range)
  generalize ((w.writer out).pushWord 8 ((w.vec vec).size / s)).pushPart (.shared view.range) = x at hparts ⊢
  have hself := writer_setWriter_self w x h.lt
  have hfull : ∀ part ∈ x.parts.toList, part.Full w.memory := by
    intro part hpart
    rw [hparts] at hpart
    rcases List.mem_append.1 hpart with hold | hnew
    · exact h.full part hold
    · rcases List.mem_pair.1 hnew with rfl | rfl
      · rfl
      · exact hread
  refine ⟨⟨x, rfl⟩, ?_, hv, by rw [hsize, hexact], fun later hl hml => ?_, fun region hh later hl hleft => ?_⟩
  · rw [hself, Writer.length_of_append hparts, ← hsize]
    rfl
  · rw [← hself] at hparts
    exact (h.setWriter hfull).showsField_performAll hcount hparts hl hml
  · -- the vector has no storage of its own when it is written
    have hnone : ∀ a, w.storage? (.vec vec) ≠ some a := by
      intro a ha
      rw [owned_of_storage? ha] at hh
      cases hh
    have hbuffer : view.buffer < w.memory.buffers.size := by
      have hsound := h.uniform.vecs vec
      unfold Vec.Sound at hsound
      rw [hh] at hsound
      exact hsound.2.buffer_lt
    exact StoresApart.performAll ⟨hbuffer, fun a ha => absurd ha (hnone a)⟩ hl hleft

theorem fieldOutcome_of_hasWriter (h : w.HasWriter out) (hm : w.memory.Addressable) (vec : Nat) (stride : Binary64) :
    w.FieldOutcome out vec stride (w.perform (.writer out (.field vec stride))) := by
  have hpush : w.perform (.writer out (.field vec stride)) = _ := perform_push w out (.field vec stride)
  cases hs : acceptStride stride with
  | error e =>
    obtain ⟨rfl, hbad⟩ := acceptStride_error hs
    have hchange : (Push.field vec stride).change w (w.writer out) = _ := writeField_of_badStride hs
    rw [hpush, hchange]
    exact .refused (.stride hbad)
  | ok s =>
    obtain ⟨hwhole, hpos⟩ := acceptStride_ok.1 hs
    by_cases hdvd : s ∣ (w.vec vec).size
    · have hchange : (Push.field vec stride).change w (w.writer out) = _ := writeField_of_even hs hdvd
      rcases viewOf_cases w (w.vec vec) with ⟨view, hview⟩ | ⟨view, region, hh, hclosed, hview⟩
      · rw [hview] at hchange
        rw [hpush, hchange]
        exact .written hwhole hpos hdvd (writesField_of_ok h hm hdvd hview)
      · rw [hview] at hchange
        rw [hpush, hchange]
        exact .refused (.ended hwhole hpos hdvd hh hclosed)
    · have hchange : (Push.field vec stride).change w (w.writer out) = _ := writeField_of_uneven hs hdvd
      rw [hpush, hchange]
      exact .refused (.uneven hwhole hpos hdvd)

/-- Whatever has been done before a writer was made and since, a vector is written to it as a field that stays where it
is, or else it is refused and nothing has happened. -/
theorem written_field_lasts {limit : AllocationLimit} {before since : List Command} {w₀ : World}
    (hbefore : ((empty limit).performAll before).2 = w₀)
    (hb : (empty limit).Throughout Command.Orderly before) (hsince : (w₀.withWriter.performAll since).2 = w)
    (hs : w₀.withWriter.Throughout Command.Orderly since) (hm : w.memory.Addressable) (vec : Nat) (stride : Binary64) :
    w.FieldOutcome w₀.writers.size vec stride (w.perform (.writer w₀.writers.size (.field vec stride))) := by
  have hstart : (empty limit).Prolongs w₀.writers.size w₀ := hbefore ▸ prolongs_performAll hb
  have hprolongs : w₀.withWriter.Prolongs w₀.writers.size w := hsince ▸ prolongs_performAll hs
  have hm₀ : w₀.memory.Addressable := hm.of_grows hprolongs.retains.grows
  have hwriter := (hasWriter_withWriter (hstart.retains.uniform hm₀ (uniform_empty limit))).prolongs hprolongs hm
  exact fieldOutcome_of_hasWriter hwriter hm vec stride

/-- A vector of two elements of two bytes each borrows them from a region. -/
def borrowedPair : List Command :=
  [.alloc [1, 0, 2, 0], .lend ⟨0, 0, 4, false⟩ [76], .newVec .u16 false, .vec 0 (.attach ⟨.u16, 0, 0, 2, 0⟩ 0)]

/-- A byte has been pushed to a new writer, so what comes next is at an odd place. -/
def oddPlaced : World :=
  ((empty.performAll borrowedPair).2.withWriter.performAll [.writer 0 (.bytes ⟨0, 0, 1, false⟩)]).2

theorem written_field_lasts_oddPlaced :
    empty.Throughout Command.Orderly borrowedPair ∧
      (empty.performAll borrowedPair).2.withWriter.Throughout Command.Orderly [.writer 0 (.bytes ⟨0, 0, 1, false⟩)] ∧
      oddPlaced.memory.Addressable ∧
      oddPlaced.FieldOutcome 0 0 (ofNat 2) (oddPlaced.perform (.writer 0 (.field 0 (ofNat 2)))) ∧
      (oddPlaced.perform (.writer 0 (.field 0 (ofNat 2)))).1.toOption.isSome = true := by
  have hsources : ∀ w : World, ∀ r ∈ ([] : List ByteRange), w.memory.Covers r := fun _ _ hr => by cases hr
  have hlend : ∀ r ∈ [(⟨0, 0, 4, false⟩ : ByteRange)], Memory.Covers ⟨#[[1, 0, 2, 0]], 0, default⟩ r := by
    intro r hr
    cases List.mem_singleton.1 hr
    exact ⟨by decide, by decide⟩
  have hb : empty.Throughout Command.Orderly borrowedPair := by
    refine ⟨⟨hsources _, trivial, ?_⟩, ⟨hlend, trivial, ?_⟩, ⟨hsources _, trivial, ?_⟩,
      ⟨⟨rfl, by decide, by decide⟩, trivial, ?_⟩, trivial⟩
    all_goals
      intro id range he
      cases he
  have hs : (empty.performAll borrowedPair).2.withWriter.Throughout Command.Orderly
      [.writer 0 (.bytes ⟨0, 0, 1, false⟩)] := by
    refine ⟨⟨hsources _, trivial, fun id range he => ?_⟩, trivial⟩
    cases he
    exact ⟨by decide, by decide⟩
  have hm : oddPlaced.memory.Addressable := Memory.addressable_of_all (by decide +kernel)
  exact ⟨hb, hs, hm, written_field_lasts rfl hb rfl hs hm 0 (ofNat 2), by decide +kernel⟩

/-- Then an element is changed, one is taken away, the vector is cleared and its region is closed. -/
example : (((oddPlaced.perform (.writer 0 (.field 0 (ofNat 2)))).2.performAll
    [.vec 0 (.set (ofNat 0) (.number (ofNat 9))), .vec 0 .pop, .vec 0 .clear, .close 0]).2.perform
      (.writer 0 .join)).2.memory.buffer 2 = [1, 1, 0, 0, 0, 0, 0, 0, 0, 1, 0, 2, 0] := by
  decide +kernel

end World

end LeaseVec
