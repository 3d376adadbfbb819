import LeaseVec.Memory.View
import LeaseVec.Proofs.Memory.Words

/-!
# What a step leaves alone in memory

Memory only grows: buffers are added, none is taken away, and none changes its length. A write changes the
buffer that it is aimed at and no other. What a view shows depends on its own buffer alone, so it is
enough to follow the buffers.
-/

namespace LeaseVec.Memory

variable {m m' m'' : Memory}

/-- Buffers stay, none changes its length, and the host is the same. -/
structure Grows (m m' : Memory) : Prop where
  size_le : m.buffers.size ≤ m'.buffers.size
  length_eq : ∀ b, b < m.buffers.size → (m'.buffer b).length = (m.buffer b).length
  limit_eq : m'.limit = m.limit

theorem Grows.refl (m : Memory) : m.Grows m := ⟨le_rfl, fun _ _ => rfl, rfl⟩

theorem Grows.trans (h : m.Grows m') (h' : m'.Grows m'') : m.Grows m'' where
  size_le := h.size_le.trans h'.size_le
  length_eq := fun b hb => (h'.length_eq b (hb.trans_le h.size_le)).trans (h.length_eq b hb)
  limit_eq := h'.limit_eq.trans h.limit_eq

/-- Every buffer that was there is as it was, except for the touched ones. -/
def Frame (touched : Nat → Prop) (m m' : Memory) : Prop :=
  ∀ b, b < m.buffers.size → ¬ touched b → m'.buffer b = m.buffer b

theorem Frame.refl (touched : Nat → Prop) (m : Memory) : Frame touched m m := fun _ _ _ => rfl

theorem Frame.trans {touched : Nat → Prop} (h : Frame touched m m') (h' : Frame touched m' m'')
    (hs : m.buffers.size ≤ m'.buffers.size) : Frame touched m m'' :=
  fun b hb ht => (h' b (hb.trans_le hs) ht).trans (h b hb ht)

theorem Frame.mono {touched more : Nat → Prop} (h : Frame touched m m')
    (hm : ∀ b, b < m.buffers.size → touched b → more b) : Frame more m m' :=
  fun b hb ht => h b hb fun hb' => ht (hm b hb hb')

/-- No buffer has as many bytes as doubles can count. -/
def Addressable (m : Memory) : Prop := ∀ b, (m.buffer b).length < Number.Binary64.exactBound

theorem buffer_of_size_le {b : Nat} (h : m.buffers.size ≤ b) : m.buffer b = [] := by
  unfold buffer
  rw [Array.getD_eq_getD_getElem?, Array.getElem?_eq_none h]
  rfl

/-- Memory whose buffers are all small enough. -/
theorem addressable_of_all
    (h : m.buffers.all (fun bytes => bytes.length < Number.Binary64.exactBound) = true) :
    m.Addressable := by
  intro b
  unfold buffer
  rw [Array.getD_eq_getD_getElem?]
  cases hb : m.buffers[b]? with
  | none => exact (by decide : 0 < Number.Binary64.exactBound)
  | some bytes =>
    obtain ⟨hlt, rfl⟩ := Array.getElem?_eq_some_iff.1 hb
    exact of_decide_eq_true (Array.all_eq_true.1 h b hlt)

theorem Addressable.of_grows (h : m'.Addressable) (hg : m.Grows m') : m.Addressable := by
  intro b
  rcases Nat.lt_or_ge b m.buffers.size with hlt | hge
  · rw [← hg.length_eq b hlt]
    exact h b
  · rw [buffer_of_size_le hge]
    decide

theorem Addressable.alloc (h : m.Addressable) {contents : Bytes}
    (hl : contents.length < Number.Binary64.exactBound) : (m.alloc contents).2.Addressable := by
  intro b
  rcases Nat.lt_trichotomy b m.buffers.size with hlt | rfl | hgt
  · rw [buffer_alloc_of_lt contents hlt]
    exact h b
  · rwa [buffer_alloc_self]
  · rw [buffer_of_size_le (by rw [size_alloc]; omega)]
    decide

theorem grows_alloc (m : Memory) (contents : Bytes) : m.Grows (m.alloc contents).2 where
  size_le := by
    rw [size_alloc]
    omega
  length_eq := by
    intro b hb
    rw [buffer_alloc_of_lt contents hb]
  limit_eq := rfl

theorem frame_alloc (touched : Nat → Prop) (m : Memory) (contents : Bytes) :
    Frame touched m (m.alloc contents).2 :=
  fun _ hb _ => buffer_alloc_of_lt contents hb

theorem lt_size_alloc (m : Memory) (contents : Bytes) : m.buffers.size < (m.alloc contents).2.buffers.size := by
  rw [size_alloc]
  exact Nat.lt_succ_self _

/-- A new buffer has what it was made with. -/
theorem read_alloc (m : Memory) (contents : Bytes) : (m.alloc contents).2.read (m.alloc contents).1 = contents := by
  change ((m.alloc contents).2.buffer m.buffers.size).slice 0 contents.length = contents
  rw [buffer_alloc_self]
  exact List.take_length

@[simp] theorem fst_alloc (m : Memory) (contents : Bytes) :
    (m.alloc contents).1 = ⟨m.buffers.size, 0, contents.length, false⟩ := rfl

theorem grows_write (m : Memory) (id offset : Nat) (part : Bytes) :
    m.Grows (m.write id offset part) where
  size_le := (size_write m id offset part).ge
  length_eq := fun b _ => length_buffer_write m id offset b part
  limit_eq := rfl

theorem frame_write (m : Memory) (id offset : Nat) (part : Bytes) :
    Frame (· = id) m (m.write id offset part) :=
  fun _ _ hne => buffer_write_of_ne offset part hne

theorem Addressable.writeWords (h : m.Addressable) (v : View) (position : Nat) (words : List Nat) :
    (m.writeWords v position words).Addressable := by
  intro b
  rw [Memory.writeWords, length_buffer_write]
  exact h b

theorem grows_writeWords (m : Memory) (v : View) (position : Nat) (words : List Nat) :
    m.Grows (m.writeWords v position words) := grows_write ..

theorem frame_writeWords (m : Memory) (v : View) (position : Nat) (words : List Nat) :
    Frame (· = v.buffer) m (m.writeWords v position words) := frame_write m _ _ _

@[simp] theorem size_writeWords (m : Memory) (v : View) (position : Nat) (words : List Nat) :
    (m.writeWords v position words).buffers.size = m.buffers.size := size_write ..

theorem setElement_cases (m : Memory) (v : View) (index : Number.Binary64) (value : Scalar) :
    m.setElement v index value = m ∨
      ∃ i, i < v.length ∧
        m.setElement v index value = m.writeWords v i [v.kind.store value] := by
  unfold setElement
  cases index.toNat? with
  | none => exact Or.inl rfl
  | some i =>
    by_cases hi : i < v.length
    · exact Or.inr ⟨i, hi, if_pos hi⟩
    · exact Or.inl (if_neg hi)

theorem grows_setElement (m : Memory) (v : View) (index : Number.Binary64) (value : Scalar) :
    m.Grows (m.setElement v index value) := by
  rcases setElement_cases m v index value with h | ⟨i, -, h⟩
  · rw [h]
    exact Grows.refl m
  · rw [h]
    exact grows_writeWords ..

theorem frame_setElement (m : Memory) (v : View) (index : Number.Binary64) (value : Scalar) :
    Frame (· = v.buffer) m (m.setElement v index value) := by
  rcases setElement_cases m v index value with h | ⟨i, -, h⟩
  · rw [h]
    exact Frame.refl _ m
  · rw [h]
    exact frame_writeWords m v i _

theorem read_congr {r : ByteRange} (h : m'.buffer r.buffer = m.buffer r.buffer) :
    m'.read r = m.read r := by
  unfold read
  rw [h]

theorem words_congr {v : View} (h : m'.buffer v.buffer = m.buffer v.buffer) :
    m'.words v = m.words v := by
  unfold words
  rw [read_congr (r := v.range) h]

theorem elements_congr {v : View} (h : m'.buffer v.buffer = m.buffer v.buffer) :
    m'.elements v = m.elements v := by
  unfold elements
  rw [words_congr h]

/-- Two views of the same stretch show the same, whatever their serial numbers. -/
theorem words_eq_of_range {v v' : View} (hk : v.kind = v'.kind) (hb : v.buffer = v'.buffer)
    (ho : v.offset = v'.offset) (hl : v.length = v'.length) : m.words v = m.words v' := by
  unfold words View.range View.byteLength
  rw [hk, hb, ho, hl]

@[simp] theorem length_words (m : Memory) (v : View) : (m.words v).length = v.length := by
  simp [words]

@[simp] theorem length_elements (m : Memory) (v : View) : (m.elements v).length = v.length := by
  simp [elements]

/-- The element at a position is that one of the elements. -/
theorem elementAt?_eq (m : Memory) (v : View) (i : Nat) :
    m.elementAt? v i = (m.elements v)[i]? := by
  unfold elementAt? elements words
  rw [List.getElem?_map, Word.getElem?_split]
  split_ifs with hi
  · have hroom : v.kind.width ≤ v.length * v.kind.width - i * v.kind.width := by
      rw [← Nat.sub_mul]
      exact Nat.le_mul_of_pos_left _ (by omega)
    have hread : m.read ⟨v.buffer, v.offset + i * v.kind.width, v.kind.width, false⟩ =
        ((m.read v.range).drop (i * v.kind.width)).take v.kind.width := by
      change ((m.buffer v.buffer).drop (v.offset + i * v.kind.width)).take v.kind.width =
        ((((m.buffer v.buffer).drop v.offset).take (v.length * v.kind.width)).drop
          (i * v.kind.width)).take v.kind.width
      rw [List.drop_take, List.take_take, Nat.min_eq_left hroom, List.drop_drop]
    rw [hread]
    rfl
  · rfl

/-- The element at an index is found when the index is a position. -/
theorem element?_eq (m : Memory) (v : View) (index : Number.Binary64) :
    m.element? v index = index.toNat?.bind fun i => (m.elements v)[i]? := by
  unfold element?
  congr
  funext i
  exact elementAt?_eq m v i

end LeaseVec.Memory
