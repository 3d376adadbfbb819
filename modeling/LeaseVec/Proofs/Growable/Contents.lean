import LeaseVec.Proofs.Growable.Updates
import LeaseVec.Proofs.Scalar.Stored

/-!
# What the operations of an array do to its elements

The cells of an array are all the words that it has room for, and the elements are the first of them. Writing
replaces cells one for one. Whatever spare cells hold, and whether or not the elements move to a new buffer,
each operation does to the elements what it would do to a list.
-/

namespace LeaseVec.Growable

open Number Number.Binary64

variable {m m' : Memory} {a a' : Growable}

/-- The words that there is room for, the spare ones included. -/
def cells (m : Memory) (a : Growable) : List Nat := m.words a.slots

@[simp] theorem length_cells (m : Memory) (a : Growable) : (a.cells m).length = a.capacity :=
  Memory.length_words m a.slots

/-- The bytes of the cells are all there. -/
theorem Fits.length_slots (h : a.Fits m) :
    ((m.buffer a.buffer).slice a.offset (a.capacity * a.kind.width)).length = a.capacity * a.kind.width := by
  have hle := h.end_le
  rw [Bytes.length_slice]
  omega

theorem split_take_count {width count n : Nat} {bytes : Bytes} (hn : n ≤ count)
    (hl : bytes.length = count * width) :
    Word.split width n bytes = (Word.split width count bytes).take n := by
  have hle : n * width ≤ count * width := Nat.mul_le_mul_right width hn
  have hfirst : (bytes.take (n * width)).length = n * width := by
    rw [List.length_take]
    omega
  have hsplit := Word.split_append (count - n) (bytes.drop (n * width)) hfirst
  rw [Nat.add_sub_cancel' hn, List.take_append_drop, Word.split_take] at hsplit
  rw [hsplit, List.take_left' (Word.length_split ..)]

theorem Fits.words_data (h : a.Fits m) (serial : Nat) :
    m.words (a.data serial) = (a.cells m).take a.length := by
  have hle : a.length * a.kind.width ≤ a.capacity * a.kind.width := Nat.mul_le_mul_right _ h.length_le
  have hfirst : (m.buffer a.buffer).slice a.offset (a.length * a.kind.width) =
      ((m.buffer a.buffer).slice a.offset (a.capacity * a.kind.width)).take (a.length * a.kind.width) := by
    unfold Bytes.slice
    rw [List.take_take, Nat.min_eq_left hle]
  change Word.split a.kind.width a.length
    ((m.buffer a.buffer).slice a.offset (a.length * a.kind.width)) = _
  rw [hfirst, Word.split_take]
  exact split_take_count h.length_le h.length_slots

theorem Fits.toList_eq (h : a.Fits m) :
    a.toList m = ((a.cells m).take a.length).map a.kind.load := by
  change (m.words (a.data 0)).map a.kind.load = _
  rw [h.words_data]

/-- The words of the elements. -/
def live (m : Memory) (a : Growable) : List Nat := m.words (a.data 0)

theorem toList_eq_live (m : Memory) (a : Growable) : a.toList m = (a.live m).map a.kind.load := rfl

@[simp] theorem length_live (m : Memory) (a : Growable) : (a.live m).length = a.length :=
  Memory.length_words m (a.data 0)

theorem Fits.live_eq (h : a.Fits m) : a.live m = (a.cells m).take a.length := h.words_data 0

theorem live_lt {n : Nat} (h : n ∈ a.live m) : n < 256 ^ a.kind.width := Word.split_lt h

theorem Fits.length_toList (h : a.Fits m) : (a.toList m).length = a.length := by
  have hle := h.length_le
  rw [h.toList_eq, List.length_map, List.length_take, length_cells]
  omega

/-- Writing replaces cells from a position on. -/
theorem cells_write (h : a.Fits m) (hb : a.buffer < m.buffers.size) (position : Nat)
    (words : List Nat) (hp : position + words.length ≤ a.capacity)
    (hw : ∀ n ∈ words, n < 256 ^ a.kind.width) :
    a.cells (m.writeWords a.slots position words) =
      (a.cells m).take position ++ words ++ (a.cells m).drop (position + words.length) := by
  have hinside : position * a.kind.width + (Word.concat a.kind.width words).length ≤
      a.capacity * a.kind.width := by
    rw [Word.length_concat, ← Nat.add_mul]
    exact Nat.mul_le_mul_right _ hp
  unfold cells Memory.writeWords
  change Word.split a.kind.width a.capacity (((m.write a.buffer (a.offset + position * a.kind.width)
    (Word.concat a.kind.width words)).buffer a.buffer).slice a.offset (a.capacity * a.kind.width)) = _
  rw [Memory.buffer_write_self _ _ hb, Bytes.slice_overwrite_inside hinside h.end_le]
  exact Word.split_write h.length_slots hp hw

/-- Writing at the end of the elements and counting what was written adds it. -/
theorem live_append (h : a.Fits m) (hb : a.buffer < m.buffers.size) (words : List Nat) (n : Nat)
    (signedZero : Bool) (hn : n = a.length + words.length) (hp : n ≤ a.capacity)
    (hw : ∀ k ∈ words, k < 256 ^ a.kind.width) (hs : signedZero = true → n = 0) :
    live (m.writeWords a.slots a.length words) { a with length := n, signedZero := signedZero } =
      a.live m ++ words := by
  have hfits : Fits (m.writeWords a.slots a.length words)
      { a with length := n, signedZero := signedZero } := by
    exact ⟨h.end_le.trans_eq (Memory.length_buffer_write ..).symm, hp, hs⟩
  have hcells : cells (m.writeWords a.slots a.length words)
      { a with length := n, signedZero := signedZero } =
      (a.cells m).take a.length ++ words ++ (a.cells m).drop (a.length + words.length) :=
    cells_write h hb _ _ (hn ▸ hp) hw
  have hle := h.length_le
  rw [hfits.live_eq, hcells, h.live_eq, List.take_left']
  rw [List.length_append, List.length_take, length_cells]
  change min a.length a.capacity + words.length = n
  omega

theorem live_cut (h : a.Fits m) {n : Nat} (signedZero : Bool) (hn : n ≤ a.length)
    (hs : signedZero = true → n = 0) :
    live m { a with length := n, signedZero := signedZero } = (a.live m).take n := by
  have hfits : Fits m { a with length := n, signedZero := signedZero } :=
    ⟨h.end_le, hn.trans h.length_le, hs⟩
  rw [hfits.live_eq, h.live_eq, List.take_take, Nat.min_eq_left hn]
  rfl

theorem live_set (h : a.Fits m) (hb : a.buffer < m.buffers.size) {i word : Nat} (hi : i < a.length)
    (hw : word < 256 ^ a.kind.width) :
    live (m.writeWords a.slots i [word]) a = (a.live m).set i word := by
  have hfits : a.Fits (m.writeWords a.slots i [word]) := h.of_grows (Memory.grows_writeWords ..) hb
  have hle := h.length_le
  have hcells := cells_write h hb i [word] (by simp; omega) (by simpa using hw)
  have hset : a.cells (m.writeWords a.slots i [word]) = (a.cells m).set i word := by
    rw [hcells, List.set_eq_take_append_cons_drop, if_pos (by rw [length_cells]; omega)]
    simp
  rw [hfits.live_eq, h.live_eq, hset, List.take_set]

/-- Elements that move to a new buffer stay the same. -/
theorem live_relocate (h : a.Fits m) (hb : a.buffer < m.buffers.size) {capacity : Nat}
    (hc : a.capacity ≤ capacity) :
    (a.relocate m capacity).1.live (a.relocate m capacity).2 = a.live m := by
  have hle := h.length_le
  have hzeros : Fits (m.alloc (List.replicate (capacity * a.kind.width) 0)).2
      ⟨a.kind, m.buffers.size, 0, capacity, 0, false⟩ := by
    refine ⟨?_, Nat.zero_le _, by simp⟩
    rw [Memory.buffer_alloc_self, List.length_replicate, Nat.zero_add]
  have hlt := m.lt_size_alloc (List.replicate (capacity * a.kind.width) 0)
  have hold : (m.alloc (List.replicate (capacity * a.kind.width) 0)).2.words (a.data 0) =
      a.live m := Memory.words_congr (Memory.buffer_alloc_of_lt _ hb)
  have happend := live_append hzeros hlt (a.live m) a.length a.signedZero (by simp)
    (hle.trans hc) (fun _ hk => live_lt (a := a) (m := m) hk) h.signed
  unfold relocate
  simp only [hold]
  -- an array without elements has no live words
  exact happend.trans (List.nil_append _)

theorem live_reserve {extra : Binary64} {moved : Bool} (h : a.Fits m)
    (hb : a.buffer < m.buffers.size)
    (hr : a.reserve m extra = .ok (moved, a', m')) : a'.live m' = a.live m := by
  rcases reserve_cases m a extra with ⟨-, he⟩ | ⟨-, ⟨n, -, -, he⟩ | ⟨he, -⟩⟩
  · rw [hr] at he
    cases he
    rfl
  · rw [hr] at he
    cases he
    exact live_relocate h hb ((Nat.le_max_right 1 _).trans (le_doubledTo_left _ n))
  · rw [hr] at he
    cases he

theorem kind_reserve {extra : Binary64} {moved : Bool}
    (hr : a.reserve m extra = .ok (moved, a', m')) : a'.kind = a.kind := (updates_reserve hr).kind_eq

theorem toList_reserve {extra : Binary64} {moved : Bool} (h : a.Fits m)
    (hb : a.buffer < m.buffers.size)
    (hr : a.reserve m extra = .ok (moved, a', m')) : a'.toList m' = a.toList m := by
  rw [toList_eq_live, toList_eq_live, live_reserve h hb hr, kind_reserve hr]

theorem live_push (hm : m.Addressable) (h : a.Fits m) (hb : a.buffer < m.buffers.size) {x : Scalar}
    (hp : a.push m x = .ok (a', m')) : a'.live m' = a.live m ++ [a.kind.store x] := by
  obtain ⟨moved, b, mb, hr, rfl, rfl⟩ := push_ok hp
  have hu := updates_reserve hr
  have hroom : b.length + 1 ≤ b.capacity := by
    rw [(length_of_reserve hr).1]
    exact le_capacity_of_reserve hm h (h.whole_succ hm) hr
  have hlive := live_append (hu.fits hm h) (hu.buffer_lt hb) [b.kind.store x] (b.length + 1) false
    rfl hroom (by simpa using Kind.store_lt b.kind x) (by simp)
  show live _ { b with length := b.length + 1, signedZero := false } = _
  rw [hlive, live_reserve h hb hr, kind_reserve hr]

/-- A push adds the value that an element holds for it. -/
theorem toList_push (hm : m.Addressable) (h : a.Fits m) (hb : a.buffer < m.buffers.size) {x : Scalar}
    (hp : a.push m x = .ok (a', m')) : a'.toList m' = a.toList m ++ [a.kind.held x] := by
  rw [toList_eq_live, toList_eq_live, live_push hm h hb hp, (updates_push hp).kind_eq, List.map_append]
  rfl

theorem live_pop (h : a.Fits m) : (a.pop m).2.live m = (a.live m).dropLast := by
  have hle := h.length_le
  unfold pop
  split_ifs with hz
  · have hnil : a.live m = [] := List.length_eq_zero_iff.1 (by rw [length_live, hz])
    rw [hnil]
    rfl
  · show live m { a with length := a.length - 1, signedZero := false } = _
    rw [live_cut h false (by omega) (by simp), List.dropLast_eq_take, length_live]

/-- A pop removes the last element, which is the answer. -/
theorem pop_spec (h : a.Fits m) :
    (a.pop m).1 = (a.toList m).getLast? ∧ (a.pop m).2.toList m = (a.toList m).dropLast := by
  have hle := h.length_le
  unfold pop
  split_ifs with hz
  · have hnil : a.toList m = [] := List.length_eq_zero_iff.1 (by rw [h.length_toList, hz])
    rw [hnil]
    exact ⟨rfl, rfl⟩
  · constructor
    · have hslots : m.elements a.slots = (a.cells m).map a.kind.load := rfl
      change m.elementAt? a.slots (a.length - 1) = (a.toList m).getLast?
      rw [Memory.elementAt?_eq, hslots, List.getLast?_eq_getElem?, h.length_toList, h.toList_eq,
        List.getElem?_map, List.getElem?_map, List.getElem?_take_of_lt (by omega)]
    · have hlive := live_pop h
      unfold pop at hlive
      rw [if_neg hz] at hlive
      rw [toList_eq_live, toList_eq_live, hlive, List.map_dropLast]

theorem live_resize (hm : m.Addressable) (h : a.Fits m) (hb : a.buffer < m.buffers.size)
    {x : Binary64} {fill : Scalar} {n : Nat} (hx : Whole x n)
    (hr : a.resize m x fill = .ok (a', m')) :
    a'.live m' = (a.live m).take n ++ List.replicate (n - a.length) (a.kind.store fill) := by
  obtain ⟨k, hk, hcases⟩ := resize_ok hr
  obtain rfl := hk.unique hx
  rcases hcases with ⟨hle, rfl, rfl⟩ | ⟨hlt, moved, b, mb, hres, rfl, rfl⟩
  · have hlive := live_cut h (x = negativeZero) hle fun hz => by
      rw [of_decide_eq_true hz] at hk
      exact hk.unique whole_negativeZero
    show live m' { a with length := k, signedZero := x = negativeZero } = _
    rw [hlive, Nat.sub_eq_zero_of_le hle, List.replicate_zero, List.append_nil]
  · have hu := updates_reserve hres
    have hlen := (length_of_reserve hres).1
    have hroom : k ≤ b.capacity := by
      rcases extension_cases hm h hx hlt with ⟨-, hw⟩ | ⟨-, hw⟩
      · exact le_capacity_of_reserve hm h hw hres
      · rw [reserve_of_atLeast hm h hw] at hres
        cases hres
    have hlive := live_append (hu.fits hm h) (hu.buffer_lt hb)
      (List.replicate (k - b.length) (b.kind.store fill)) k false
      (by rw [List.length_replicate]; omega) hroom
      (fun _ hk' => by
        rw [List.eq_of_mem_replicate hk']
        exact Kind.store_lt b.kind fill) (by simp)
    show live _ { b with length := k, signedZero := false } = _
    rw [hlive, live_reserve h hb hres, kind_reserve hres, hlen, List.take_of_length_le]
    rw [length_live]
    omega

/-- A resize cuts the elements, or adds the value that an element holds for the fill value. -/
theorem toList_resize (hm : m.Addressable) (h : a.Fits m) (hb : a.buffer < m.buffers.size)
    {x : Binary64} {fill : Scalar} {n : Nat} (hx : Whole x n)
    (hr : a.resize m x fill = .ok (a', m')) :
    a'.toList m' = (a.toList m).take n ++ List.replicate (n - a.length) (a.kind.held fill) := by
  rw [toList_eq_live, toList_eq_live, live_resize hm h hb hx hr, (updates_resize hr).kind_eq,
    List.map_append, List.map_take, List.map_replicate]
  rfl

theorem toList_clear (m : Memory) (a : Growable) : a.clear.toList m = [] := rfl

theorem toList_release (m : Memory) (a : Growable) :
    (a.release m).1.toList (a.release m).2 = [] := rfl

theorem toList_set (h : a.Fits m) (hb : a.buffer < m.buffers.size) {i : Nat} (hi : i < a.length)
    (x : Scalar) :
    a.toList (m.writeWords a.slots i [a.kind.store x]) = (a.toList m).set i (a.kind.held x) := by
  rw [toList_eq_live, live_set h hb hi (Kind.store_lt a.kind x), toList_eq_live, List.map_set]
  rfl

theorem live_ofWords (m : Memory) (kind : Kind) {words : List Nat}
    (hw : ∀ n ∈ words, n < 256 ^ kind.width) :
    (ofWords m kind words).1.live (ofWords m kind words).2 = words := by
  have hfits := (fresh_ofWords m kind words).fits
  have hcells : cells (ofWords m kind words).2 (ofWords m kind words).1 = words := by
    show Word.split kind.width words.length
      (((m.alloc (Word.concat kind.width words)).2.buffer m.buffers.size).slice 0 (words.length * kind.width)) = words
    rw [Memory.buffer_alloc_self]
    exact (Word.split_take ..).trans (Word.split_concat kind.width words hw)
  rw [hfits.live_eq, hcells]
  exact List.take_length

theorem toList_ofWords (m : Memory) (kind : Kind) {words : List Nat}
    (hw : ∀ n ∈ words, n < 256 ^ kind.width) :
    (ofWords m kind words).1.toList (ofWords m kind words).2 = words.map kind.load := by
  rw [toList_eq_live, live_ofWords m kind hw]
  rfl

theorem toList_ofList (m : Memory) (kind : Kind) (values : List Scalar) :
    (ofList m kind values).1.toList (ofList m kind values).2 = values.map kind.held := by
  refine (toList_ofWords m kind fun n hn => ?_).trans (List.map_map ..)
  obtain ⟨x, -, rfl⟩ := List.mem_map.1 hn
  exact Kind.store_lt kind x

theorem toList_ofView (m : Memory) (kind : Kind) (v : View) :
    (ofView m kind v).1.toList (ofView m kind v).2 = (m.elements v).map kind.held := by
  have hlt : ∀ n ∈ m.words v, n < 256 ^ v.kind.width := fun n hn => Word.split_lt hn
  refine (toList_ofWords m kind fun n hn => ?_).trans ?_
  · obtain ⟨k, hk, rfl⟩ := List.mem_map.1 hn
    exact Kind.convert_lt v.kind kind (hlt k hk)
  · unfold Memory.wordsAs Memory.elements
    rw [List.map_map, List.map_map]
    refine List.map_congr_left fun k hk => ?_
    exact Kind.load_convert v.kind kind (hlt k hk)

/-- The word of each element of a new array with a fill value. -/
def filledWith (kind : Kind) : Option Scalar → Nat
  | some x => if x.isZero then 0 else kind.store x
  | none => 0

/-- A new array is refused only when it has too many elements, and otherwise is filled with what its kind
admits. -/
theorem create_cases (m : Memory) (kind : Kind) {x : Binary64} {n : Nat} (hx : Whole x n)
    (fill : Option Scalar) (hfill : ∀ y, fill = some y → kind.admits y = true) :
    m.limit.count ≤ n ∧ create m kind x fill = .error .allocationRefused ∨
      n < m.limit.count ∧ ∃ a m', create m kind x fill = .ok (a, m') ∧
        a.kind = kind ∧ a.live m' = List.replicate n (filledWith kind fill) := by
  have hs : (x = negativeZero : Bool) = true → n = 0 := fun hz => by
    rw [of_decide_eq_true hz] at hx
    exact hx.unique whole_negativeZero
  have hzeros := fresh_zeros m kind n (x = negativeZero : Bool) hs
  have hlive : live (m.alloc (List.replicate (n * kind.width) 0)).2
      ⟨kind, m.buffers.size, 0, n, n, (x = negativeZero : Bool)⟩ = List.replicate n 0 := by
    have hcells : cells (m.alloc (List.replicate (n * kind.width) 0)).2
        ⟨kind, m.buffers.size, 0, n, n, (x = negativeZero : Bool)⟩ = List.replicate n 0 := by
      show Word.split kind.width n (((m.alloc (List.replicate (n * kind.width) 0)).2.buffer
        m.buffers.size).slice 0 (n * kind.width)) = _
      rw [Memory.buffer_alloc_self]
      exact (Word.split_take ..).trans (Word.split_zeros n)
    rw [hzeros.fits.live_eq, hcells, List.take_replicate, Nat.min_self]
  rcases Nat.lt_or_ge n m.limit.count with hlt | hge
  · refine Or.inr ⟨hlt, ?_⟩
    unfold create lengthOf? Memory.allocZeros
    simp only [hx.toNat?, if_neg (not_le.2 hlt), Memory.fst_alloc]
    cases fill with
    | none => exact ⟨_, _, rfl, rfl, hlive⟩
    | some y =>
      simp only [hfill y rfl, Bool.not_true, Bool.false_eq_true, if_false]
      by_cases hy : y.isZero = true
      · refine ⟨_, _, if_pos hy, rfl, ?_⟩
        rw [filledWith, if_pos hy]
        exact hlive
      · refine ⟨_, _, if_neg hy, rfl, ?_⟩
        rw [filledWith, if_neg hy]
        have hempty := (fresh_zeros m kind n false (by simp)).fits
        -- the elements are written behind none
        have hbare : Fits (m.alloc (List.replicate (n * kind.width) 0)).2
            ⟨kind, m.buffers.size, 0, n, 0, false⟩ := ⟨hempty.end_le, Nat.zero_le _, by simp⟩
        have happend := live_append hbare hzeros.buffer_lt (List.replicate n (kind.store y)) n
          (x = negativeZero : Bool) (by simp) le_rfl
          (fun k hk => by
            rw [List.eq_of_mem_replicate hk]
            exact Kind.store_lt kind y) hs
        exact happend.trans (List.nil_append _)
  · refine Or.inl ⟨hge, ?_⟩
    unfold create lengthOf? Memory.allocZeros
    simp only [hx.toNat?, if_pos hge]

end LeaseVec.Growable
