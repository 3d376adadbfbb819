import LeaseVec.Proofs.Bundle.Encoding

/-!
# What a writer is given

A push adds bytes behind the ones that are there: a word, the bytes of a range, zeros up to a multiple, or a
count and the elements of a vector. Which bytes these are depends on the world in which the push is made, and
for zeros on how many bytes there are. Every push that is allowed succeeds.
-/

namespace LeaseVec

open Number Number.Binary64

/-- Something to be pushed to a writer. -/
inductive Push where
  | u32 (value : Binary64)
  | i32 (value : Binary64)
  | u64 (value : Scalar)
  | bytes (range : ByteRange)
  | align (n : Binary64)
  | field (vec : Nat) (stride : Binary64)

/-- What the writer is asked for. -/
def Push.write : Push → WriterCommand
  | u32 value => .word32 value
  | i32 value => .word32 value
  | u64 value => .word64 value
  | bytes range => .bytes range
  | align n => .align n
  | field vec stride => .field vec stride

/-- How the writer changes. -/
def Push.change (p : Push) (w : World) (x : Writer) : Except Fault Writer :=
  match p with
  | u32 value => .ok (x.push32 value)
  | i32 value => .ok (x.push32 value)
  | u64 value => value.whole.map x.push64
  | bytes range => .ok (x.pushPart (.shared range))
  | align n => x.align w.memory.limit n
  | field vec stride => w.writeField (w.vec vec) stride x

/-- The padding to a whole multiple is exact. -/
theorem Scan.whole_paddingLength {n : Binary64} {k offset : Nat} (hn : Whole n k) (hpos : 1 ≤ k)
    (hk : k ≤ exactBound) (hoffset : offset ≤ exactBound) :
    Whole (paddingLength n offset) (padding k offset) := by
  have hmod := (whole_ofNat hoffset).mod hn hpos hoffset
  have hlt : offset % k < k := Nat.mod_lt offset hpos
  have hsub := hn.sub hmod hlt.le ((Nat.sub_le ..).trans hk)
  exact hsub.mod hn hpos ((Nat.sub_le ..).trans hk)

/-- There is less padding than the multiple. -/
theorem Scan.padding_lt {k : Nat} (offset : Nat) (hpos : 1 ≤ k) : padding k offset < k :=
  Nat.mod_lt _ hpos

namespace World

variable {w w' : World} {id : Nat} {p : Push}

/-- What may be pushed: whole numbers as words of 64 bits, bytes that exist, zeros that can be allocated, and
vectors under a stride that divides the number of their elements. A borrowed vector sees its elements as what
they are, and its region is open. -/
def CanPush (w : World) (id : Nat) : Push → Prop
  | .u32 _ | .i32 _ => True
  | .u64 value => ∃ i, value.whole = .ok i
  | .bytes range => w.memory.Covers range
  | .align n => ∃ k, Whole n k ∧ 1 ≤ k ∧ k < 2 ^ 50 ∧
      Scan.padding k (w.writer id).length < w.memory.limit.count
  | .field vec stride => w.InBounds ∧
      (∃ s, Whole stride s ∧ 1 ≤ s ∧ s ∣ (w.vec vec).size ∧ (w.vec vec).size / s < 2 ^ 40) ∧
      ∀ view region, (w.vec vec).holding = .borrowed view region →
        view.kind = (w.vec vec).kind ∧ w.isOpen region = true

/-- The bytes that a push adds behind a number of others. -/
inductive Adds (w : World) (start : Nat) : Push → Bytes → Prop
  | u32 (value : Binary64) : w.Adds start (.u32 value) (Word.encode 4 (value.wrap 32))
  | i32 (value : Binary64) : w.Adds start (.i32 value) (Word.encode 4 (value.wrap 32))
  | u64 {value : Scalar} {i : Int} (hi : value.whole = .ok i) :
      w.Adds start (.u64 value) (Word.encode 8 (i % 2 ^ 64).toNat)
  | bytes {range : ByteRange} (hc : w.memory.Covers range) :
      w.Adds start (.bytes range) (w.bytes range)
  | align {n : Binary64} {k : Nat} (hn : Whole n k) (hpos : 1 ≤ k) (hk : k < 2 ^ 50) :
      w.Adds start (.align n) (List.replicate (Scan.padding k start) 0)
  | field {vec s : Nat} {stride : Binary64} {view : View} (hs : Whole stride s) (hpos : 1 ≤ s)
      (hdvd : s ∣ (w.vec vec).size) (hcount : (w.vec vec).size / s < 2 ^ 40)
      (hview : w.viewOf (w.vec vec) = .ok view) (hkind : view.kind = (w.vec vec).kind)
      (hlength : view.length = (w.vec vec).size)
      (hread : (w.bytes view.range).length = view.byteLength) :
      w.Adds start (.field vec stride)
        (Word.encode 8 ((w.vec vec).size / s) ++ w.bytes view.range)

/-- A push changes the writer or fails, and then nothing has happened. -/
theorem perform_push (w : World) (id : Nat) (p : Push) :
    w.perform (.writer id p.write) =
      match p.change w (w.writer id) with
      | .ok x => (.ok .done, w.setWriter id x)
      | .error e => (.error e, w) := by
  have hrun : (Command.writer id p.write).run w =
      (changeWriter id p.change >>= fun _ => pure .done) w := by cases p <;> rfl
  have hchange : changeWriter id p.change w = (Action.ofExcept (p.change w (w.writer id)) >>=
      fun x => set (w.setWriter id x) : Action Unit) w := rfl
  cases h : p.change w (w.writer id) with
  | ok x =>
    rw [h] at hchange
    exact perform_ok hrun hchange
  | error e =>
    rw [h] at hchange
    exact perform_error hrun hchange

theorem align_ok {writer : Writer} {before : Bytes} {n : Binary64} {k : Nat} {limit : AllocationLimit}
    (h : writer.Holds w.memory before) (hn : Whole n k) (hpos : 1 ≤ k) (hk : k < 2 ^ 50)
    (hshort : before.length ≤ exactBound)
    (hroom : Scan.padding k before.length < limit.count) :
    ∃ writer', writer.align limit n = .ok writer' ∧
      writer'.Holds w.memory (before ++ List.replicate (Scan.padding k before.length) 0) := by
  have hbig : 2 ^ 50 ≤ exactBound := by decide
  have hpad := Scan.whole_paddingLength hn hpos (hk.le.trans hbig) hshort
  have hzero : Whole Binary64.zero 0 := whole_zero false rfl
  have hindex := hpad.toIndex? ((Scan.padding_lt before.length hpos).trans (hk.trans_le hbig))
  unfold Writer.align
  simp only [h.length_eq, hindex, hzero.lt hpad]
  rcases Nat.eq_zero_or_pos (Scan.padding k before.length) with hnone | hsome
  · rw [hnone]
    refine ⟨writer, rfl, ?_⟩
    simpa using h
  · refine ⟨_, ?_, h.pushLiteral _⟩
    rw [decide_eq_true hsome]
    simp only [if_true]
    rw [if_neg (by omega)]

/-- An allowed push adds its bytes. -/
theorem change_ok {before : Bytes} (h : w.CanPush id p) (hw : (w.writer id).Holds w.memory before)
    (hshort : before.length ≤ exactBound) :
    ∃ bytes x, p.change w (w.writer id) = .ok x ∧ w.Adds before.length p bytes ∧
      x.Holds w.memory (before ++ bytes) := by
  cases p with
  | u32 value => exact ⟨_, _, rfl, .u32 value, hw.pushWord 4 _⟩
  | i32 value => exact ⟨_, _, rfl, .i32 value, hw.pushWord 4 _⟩
  | u64 value =>
    obtain ⟨i, hi⟩ := h
    refine ⟨_, (w.writer id).push64 i, ?_, .u64 hi, hw.pushWord 8 _⟩
    show value.whole.map _ = _
    rw [hi]
    rfl
  | bytes range => exact ⟨_, _, rfl, .bytes h, hw.pushPart (p := .shared range) (length_bytes h)⟩
  | align n =>
    obtain ⟨k, hn, hpos, hk, hroom⟩ := h
    rw [hw.length_eq] at hroom
    obtain ⟨x, hx, hholds⟩ := align_ok hw hn hpos hk hshort hroom
    exact ⟨_, x, hx, .align hn hpos hk, hholds⟩
  | field vec stride =>
    obtain ⟨hi, ⟨s, hs, hpos, hdvd, hcount⟩, hborrowed⟩ := h
    obtain ⟨view, hview, hkind, hlength, hread⟩ := exists_viewOf hi hborrowed
    have hbig : (2 : Nat) ^ 40 < 2 ^ 64 := by decide
    have hfield := (hw.push64 (hcount.trans hbig)).pushPart (p := .shared view.range) hread
    rw [List.append_assoc] at hfield
    exact ⟨_, _, writeField_ok hview hs hpos hdvd,
      .field hs hpos hdvd hcount hview hkind hlength hread, hfield⟩

/-- A part that comes of a push: bytes of its own, the range that it is given, or the one under the elements of a
vector. -/
inductive Gives (w : World) : Push → Part → Prop
  | literal (p : Push) (bytes : Bytes) : w.Gives p (.literal bytes)
  | bytes (range : ByteRange) : w.Gives (.bytes range) (.shared range)
  | field {vec : Nat} {view : View} (stride : Binary64) (hview : w.viewOf (w.vec vec) = .ok view) :
      w.Gives (.field vec stride) (.shared view.range)

/-- A push adds parts behind the ones that are there. -/
theorem parts_of_change {x x' : Writer} (h : p.change w x = .ok x') :
    ∃ more, x'.parts.toList = x.parts.toList ++ more ∧ ∀ part ∈ more, w.Gives p part := by
  have hone : ∀ part, w.Gives p part → ∃ more, (x.pushPart part).parts.toList = x.parts.toList ++ more ∧
      ∀ part ∈ more, w.Gives p part := by
    intro part hpart
    refine ⟨[part], x.parts_pushPart part, fun other hother => ?_⟩
    rwa [List.mem_singleton.1 hother]
  cases p with
  | u32 value =>
    cases h
    exact hone _ (.literal ..)
  | i32 value =>
    cases h
    exact hone _ (.literal ..)
  | u64 value =>
    cases hi : value.whole with
    | error e => simp [Push.change, hi, Except.map] at h
    | ok i =>
      simp only [Push.change, hi, Except.map, Except.ok.injEq] at h
      rw [← h]
      exact hone _ (.literal ..)
  | bytes range =>
    cases h
    exact hone _ (.bytes range)
  | align n =>
    simp only [Push.change, Writer.align] at h
    split_ifs at h
    · cases hk : (Scan.paddingLength n x.length).toIndex? with
      | none => simp [hk] at h
      | some k =>
        simp only [hk] at h
        split_ifs at h
        cases h
        exact hone _ (.literal ..)
    · cases h
      exact ⟨[], (List.append_nil _).symm, fun part hpart => by cases hpart⟩
  | field vec stride =>
    obtain ⟨s, -, h⟩ := Outcome.bind_ok_iff.1 h
    obtain ⟨-, h⟩ := Outcome.check_ok_iff.1 h
    obtain ⟨view, hview, h⟩ := Outcome.bind_ok_iff.1 h
    cases h
    refine ⟨_, x.parts_pushWord_pushPart 8 _ _, fun part hpart => ?_⟩
    rcases List.mem_pair.1 hpart with rfl | rfl
    · exact .literal ..
    · exact .field stride hview

/-- No push takes anything away. -/
theorem length_le_change {x x' : Writer} (h : p.change w x = .ok x') : x.length ≤ x'.length := by
  obtain ⟨more, hparts, -⟩ := parts_of_change h
  rw [Writer.length_of_append hparts]
  exact Nat.le_add_right ..

/-- Whether a push succeeds or not, nothing is taken away. -/
theorem length_le_perform (hid : id < w.writers.size) (p : Push) :
    (w.writer id).length ≤ ((w.perform (.writer id p.write)).2.writer id).length := by
  rw [perform_push]
  cases h : p.change w (w.writer id) with
  | ok x =>
    show _ ≤ ((w.setWriter id x).writer id).length
    rw [writer_setWriter_self w x hid]
    exact length_le_change h
  | error e => exact le_rfl

end World

end LeaseVec
