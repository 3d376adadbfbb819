import LeaseVec.Proofs.Ownership.Fields

/-!
# Vectors that take elements

A vector takes its elements from a range of bytes, where they are or as a copy. In place it gets the view of
exactly these bytes, and as a copy a new buffer that holds nothing else; of bytes that share it gets storage
over the bytes themselves. It shows the same bytes and the same words in all cases. Vectors that have taken
elements stay as they are while decoding goes on.
-/

namespace LeaseVec.World

open Number Number.Binary64

variable {w w' w'' : World} {n : Nat}

/-- New buffers and vectors come behind the old ones, and readers move. The vectors below a bound stay as
they are. -/
structure Extends (w : World) (n : Nat) (w' : World) : Prop where
  size_le : w.memory.buffers.size ≤ w'.memory.buffers.size
  buffer : ∀ b, b < w.memory.buffers.size → w'.memory.buffer b = w.memory.buffer b
  regions : w'.regions = w.regions
  vecs_le : w.vecs.size ≤ w'.vecs.size
  vec : ∀ id, id < n → w'.vec id = w.vec id
  readers : w'.readers.size = w.readers.size
  source : ∀ id, (w'.reader id).source = (w.reader id).source
  lender : ∀ id, (w'.reader id).lender = (w.reader id).lender

theorem Extends.refl (w : World) (n : Nat) : w.Extends n w where
  size_le := le_rfl
  buffer := fun _ _ => rfl
  regions := rfl
  vecs_le := le_rfl
  vec := fun _ _ => rfl
  readers := rfl
  source := fun _ => rfl
  lender := fun _ => rfl

theorem Extends.trans (h : w.Extends n w') (h' : w'.Extends n w'') : w.Extends n w'' where
  size_le := h.size_le.trans h'.size_le
  buffer := fun b hb => (h'.buffer b (hb.trans_le h.size_le)).trans (h.buffer b hb)
  regions := h'.regions.trans h.regions
  vecs_le := h.vecs_le.trans h'.vecs_le
  vec := fun id hid => (h'.vec id hid).trans (h.vec id hid)
  readers := h'.readers.trans h.readers
  source := fun id => (h'.source id).trans (h.source id)
  lender := fun id => (h'.lender id).trans (h.lender id)

theorem Extends.mono {k : Nat} (h : w.Extends n w') (hk : k ≤ n) : w.Extends k w' :=
  { h with vec := fun id hid => h.vec id (hid.trans_le hk) }

theorem extends_setOffset (w : World) (n reader offset : Nat) :
    w.Extends n (w.setReader reader { w.reader reader with offset := offset }) where
  size_le := le_rfl
  buffer := fun _ _ => rfl
  regions := rfl
  vecs_le := le_rfl
  vec := fun _ _ => rfl
  readers := size_readers_setReader ..
  source := source_setOffset w reader offset
  lender := lender_setOffset w reader offset

/-- A vector behind the bound gets something else to hold, in memory with new buffers. -/
theorem extends_setHolding {m : Memory} {vec : Nat} {h : Holding} {promotions : Array Promotion}
    (hn : n ≤ vec) (hg : w.memory.Grows m) (hf : w.memory.Frame (fun _ => False) m) :
    w.Extends n ({ w with memory := m, promotions := promotions }.setHolding vec h) where
  size_le := hg.size_le
  buffer := fun b hb => hf b hb id
  regions := rfl
  vecs_le := (size_vecs_setHolding ..).ge
  vec := fun id hid => vec_setHolding_of_ne _ vec h (by omega)
  readers := rfl
  source := fun _ => rfl
  lender := fun _ => rfl

theorem extends_newVec (w : World) (kind : Kind) (checked : Bool) (hn : n ≤ w.vecs.size) :
    w.Extends n { w with vecs := w.vecs.push (.new kind checked) } where
  size_le := le_rfl
  buffer := fun _ _ => rfl
  regions := rfl
  vecs_le := by
    rw [Array.size_push]
    omega
  vec := by
    intro id hid
    rw [vec_push, if_neg (by omega)]
  readers := rfl
  source := fun _ => rfl
  lender := fun _ => rfl

theorem extends_alloc (w : World) (n : Nat) (contents : Bytes) :
    w.Extends n { w with memory := (w.memory.alloc contents).2 } where
  size_le := (Memory.grows_alloc ..).size_le
  buffer := fun _ hb => Memory.buffer_alloc_of_lt contents hb
  regions := rfl
  vecs_le := le_rfl
  vec := fun _ _ => rfl
  readers := rfl
  source := fun _ => rfl
  lender := fun _ => rfl

/-- A view of bytes that exist stays where it is; only its serial number may be another. -/
theorem viewOf_extends {id : Nat} {view : View} (hx : w.Extends n w') (hid : id < n)
    (hview : w.viewOf (w.vec id) = .ok view) (hlt : view.buffer < w.memory.buffers.size) :
    ∃ view', w'.viewOf (w'.vec id) = .ok view' ∧ view'.kind = view.kind ∧ view'.range = view.range ∧
      view'.length = view.length := by
  rw [hx.vec id hid]
  cases viewing_of_viewOf hview with
  | empty => exact absurd hlt (lt_irrefl _)
  | owned hh => exact ⟨_, viewOf_of_owned hh, rfl, rfl, rfl⟩
  | @borrowed _ region hh ho =>
    have ho' : w'.isOpen region = true := by
      unfold isOpen World.region
      rw [hx.regions]
      exact ho
    exact ⟨view, (viewOf_of_borrowed hh).trans (if_pos ho'), rfl, rfl, rfl⟩

/-- A vector of a kind shows words that lie in a buffer which exists. -/
structure ShowsWords (w : World) (id : Nat) (kind : Kind) (words : List Nat) : Prop where
  kind_eq : (w.vec id).kind = kind
  view : ∃ view, w.viewOf (w.vec id) = .ok view ∧ view.kind = kind ∧
    view.buffer < w.memory.buffers.size ∧ w.memory.words view = words

theorem ShowsWords.extends {id : Nat} {kind : Kind} {words : List Nat}
    (h : w.ShowsWords id kind words) (hx : w.Extends n w') (hid : id < n) :
    w'.ShowsWords id kind words := by
  obtain ⟨view, hview, hkind, hlt, hwords⟩ := h.view
  obtain ⟨view', hview', hkind', hrange, hlength⟩ := viewOf_extends hx hid hview hlt
  have hbuffer : view'.buffer = view.buffer := congrArg ByteRange.buffer hrange
  have hoffset : view'.offset = view.offset := congrArg ByteRange.offset hrange
  have hsame := Memory.words_congr (hx.buffer _ hlt)
  refine ⟨?_, view', hview', hkind'.trans hkind, ?_, ?_⟩
  · rw [hx.vec id hid]
    exact h.kind_eq
  · rw [hbuffer]
    exact hlt.trans_le hx.size_le
  · rw [Memory.words_eq_of_range hkind' hbuffer hoffset hlength, hsame, hwords]

/-- The elements are what the words stand for. -/
theorem ShowsWords.elements {id : Nat} {kind : Kind} {words : List Nat}
    (h : w.ShowsWords id kind words) :
    w.elements (w.vec id) = .ok (words.map kind.load) := by
  obtain ⟨view, hview, hkind, -, hwords⟩ := h.view
  unfold World.elements
  rw [hview]
  change Except.ok ((w.memory.words view).map view.kind.load) = _
  rw [hwords, hkind]

/-- A vector of a kind shows bytes that exist. -/
structure ShowsBytes (w : World) (id : Nat) (kind : Kind) (bytes : Bytes) : Prop where
  kind_eq : (w.vec id).kind = kind
  view : ∃ view, w.viewOf (w.vec id) = .ok view ∧ view.kind = kind ∧ w.memory.Covers view.range ∧
    w.bytes view.range = bytes

/-- The words are those of the bytes. -/
theorem ShowsBytes.showsWords {id : Nat} {kind : Kind} {bytes : Bytes}
    (h : w.ShowsBytes id kind bytes) :
    w.ShowsWords id kind (Word.split kind.width (bytes.length / kind.width) bytes) := by
  obtain ⟨view, hview, rfl, hc, rfl⟩ := h.view
  refine ⟨h.kind_eq, view, hview, rfl, hc.buffer_lt, ?_⟩
  have hlength : (w.bytes view.range).length = view.length * view.kind.width := length_bytes hc
  rw [hlength, Nat.mul_div_cancel _ view.kind.width_pos]
  rfl

theorem ShowsBytes.extends {id : Nat} {kind : Kind} {bytes : Bytes}
    (h : w.ShowsBytes id kind bytes) (hx : w.Extends n w') (hid : id < n) :
    w'.ShowsBytes id kind bytes := by
  obtain ⟨view, hview, hkind, hc, hbytes⟩ := h.view
  obtain ⟨view', hview', hkind', hrange, -⟩ := viewOf_extends hx hid hview hc.buffer_lt
  have hbuffer := hx.buffer _ hc.buffer_lt
  refine ⟨?_, view', hview', hkind'.trans hkind, ⟨?_, ?_⟩, ?_⟩
  · rw [hx.vec id hid]
    exact h.kind_eq
  · rw [hrange]
    exact hc.buffer_lt.trans_le hx.size_le
  · rw [hrange, hbuffer]
    exact hc.end_le
  · rw [hrange, ← hbytes]
    exact Memory.read_congr hbuffer

/-- The bytes of a part of a range are that part of its bytes. -/
theorem bytes_sub (w : World) {r : ByteRange} {start span : Nat} (h : start + span ≤ r.length) :
    w.bytes (r.sub start span) = (w.bytes r).slice start span := by
  change (w.memory.buffer r.buffer).slice (r.offset + start) span =
    ((w.memory.buffer r.buffer).slice r.offset r.length).slice start span
  unfold Bytes.slice
  rw [List.drop_take, List.take_take, List.drop_drop, Nat.min_eq_left (by omega)]

/-- A view can be made where it is aligned and lies in the buffer. -/
theorem view?_of_aligned {m : Memory} {kind : Kind} {buffer offset length : Nat} {x y : Binary64}
    (hx : x.toIndex? = some offset) (hy : y.toIndex? = some length)
    (ha : kind.isAligned offset = true)
    (hend : offset + length * kind.width ≤ (m.buffer buffer).length) :
    m.view? kind buffer x (some y) =
      .ok (⟨kind, buffer, offset, length, m.views⟩, countView m) := by
  unfold Memory.view?
  simp only [hx, hy, Option.bind_some]
  rw [if_pos]
  · rfl
  · rw [Bool.and_eq_true, decide_eq_true_eq]
    exact ⟨ha, hend⟩

theorem view_ok {kind : Kind} {buffer : Nat} {x : Binary64} {y : Option Binary64} {v : View}
    {m : Memory} (h : w.memory.view? kind buffer x y = .ok (v, m)) :
    World.view kind buffer x y w = .ok v { w with memory := m } := by
  unfold World.view
  rw [h]

theorem view_aligned {kind : Kind} {r : ByteRange} (ha : kind.isAligned r.offset = true)
    (hc : w.memory.Covers r) (hr : r.length % kind.width = 0)
    (hshort : (w.memory.buffer r.buffer).length < exactBound) :
    World.view kind r.buffer (ofNat r.offset) (some (ofNat (r.length / kind.width))) w =
      .ok ⟨kind, r.buffer, r.offset, r.length / kind.width, w.memory.views⟩
        { w with memory := countView w.memory } := by
  have hend := hc.end_le
  have hoffset : r.offset < exactBound := (Nat.le_add_right ..).trans_lt (hend.trans_lt hshort)
  have hlength : r.length / kind.width < exactBound :=
    (Nat.div_le_self ..).trans_lt ((Nat.le_add_left ..).trans_lt (hend.trans_lt hshort))
  refine view_ok (view?_of_aligned (toIndex?_ofNat hoffset) (toIndex?_ofNat hlength) ha ?_)
  rwa [Nat.div_mul_cancel (Nat.dvd_of_mod_eq_zero hr)]

/-- The region that lends the elements of a range in place. They have to be aligned for their kind. -/
def lenderInPlace (lender : Option Nat) (inPlace : Bool) (kind : Kind) (r : ByteRange) : Option Nat :=
  if inPlace && kind.isAligned r.offset then lender else none

theorem lenderInPlace_eq_some {lender : Option Nat} {inPlace : Bool} {kind : Kind} {r : ByteRange}
    {region : Nat} : lenderInPlace lender inPlace kind r = some region ↔
      inPlace = true ∧ kind.isAligned r.offset = true ∧ lender = some region := by
  unfold lenderInPlace
  rw [← and_assoc, ← Bool.and_eq_true_iff]
  split_ifs with h
  · constructor
    · intro hlender
      exact ⟨h, hlender⟩
    · intro hboth
      exact hboth.2
  · constructor
    · intro hnone
      cases hnone
    · intro hboth
      exact (h hboth.1).elim

/-- What holds the elements of a range: a view of exactly that range when a region lends them in place, and
otherwise storage without room for more, which starts behind the given buffers, or is the range itself when
that shares. -/
def HeldFrom (buffers : Nat) (r : ByteRange) (kind : Kind) : Option Nat → Holding → Prop
  | some region, h =>
    ∃ serial, h = .borrowed ⟨kind, r.buffer, r.offset, r.length / kind.width, serial⟩ region
  | none, h =>
    if r.shares then h = .owned (.over kind r)
    else ∃ buffer, buffers ≤ buffer ∧
      h = .owned ⟨kind, buffer, 0, r.length / kind.width, r.length / kind.width, false⟩

/-- The elements of plain bytes that no region lends in place are in a new buffer. -/
theorem heldFrom_of_plain {buffers : Nat} {r : ByteRange} {kind : Kind} {h : Holding} (hp : r.shares = false) :
    HeldFrom buffers r kind none h ↔ ∃ buffer, buffers ≤ buffer ∧
      h = .owned ⟨kind, buffer, 0, r.length / kind.width, r.length / kind.width, false⟩ := by
  unfold HeldFrom
  rw [hp]
  rfl

theorem HeldFrom.mono {buffers buffers' : Nat} {r : ByteRange} {kind : Kind} {lender : Option Nat}
    {h : Holding} (hheld : HeldFrom buffers' r kind lender h) (hle : buffers ≤ buffers') :
    HeldFrom buffers r kind lender h := by
  cases lender with
  | some region => exact hheld
  | none =>
    unfold HeldFrom at hheld ⊢
    split_ifs at hheld ⊢
    · exact hheld
    · obtain ⟨buffer, hge, rfl⟩ := hheld
      exact ⟨buffer, hle.trans hge, rfl⟩

/-- What a vector may hold after it has taken elements from a range: storage without spare room, which is in
a new buffer when the range is plain, or, if elements may stay in place, a view of the buffer of the range
under the region that lends it. -/
def TakenFrom (w : World) (r : ByteRange) (lender : Option Nat) (inPlace : Bool) : Holding → Prop
  | .empty => False
  | .borrowed view region => inPlace = true ∧ lender = some region ∧ view.buffer = r.buffer
  | .owned a => a.capacity = a.length ∧ (r.shares = false → w.memory.buffers.size ≤ a.buffer)

/-- A vector has taken the words of a range. Only what it holds and the memory behind the old buffers are
different. -/
structure Takes (w : World) (vec : Nat) (r : ByteRange) (lender : Option Nat) (inPlace : Bool)
    (w' : World) : Prop where
  frame : ∃ (m : Memory) (holding : Holding), w.memory.Grows m ∧ w.memory.Frame (fun _ => False) m ∧
    w.TakenFrom r lender inPlace holding ∧ w' = { w with memory := m }.setHolding vec holding
  shows : w'.ShowsWords vec (w.vec vec).kind (Word.split (w.vec vec).kind.width
    (r.length / (w.vec vec).kind.width) (w.bytes r))

/-- A vector has taken the elements of a range: it holds them in place or as a copy, and it shows their bytes. -/
structure Lodges (w : World) (vec : Nat) (r : ByteRange) (lender : Option Nat) (inPlace : Bool)
    (w' : World) : Prop where
  takes : w.Takes vec r lender inPlace w'
  held : HeldFrom w.memory.buffers.size r (w.vec vec).kind
    (lenderInPlace lender inPlace (w.vec vec).kind r) (w'.vec vec).holding
  shows : w'.ShowsBytes vec (w.vec vec).kind (w.bytes r)

section Takes

variable {vec : Nat} {r : ByteRange} {lender : Option Nat} {inPlace : Bool}

theorem Takes.extended (h : w.Takes vec r lender inPlace w') : w.Extends vec w' := by
  obtain ⟨m, holding, hgrows, hframe, -, rfl⟩ := h.frame
  exact extends_setHolding le_rfl hgrows hframe

theorem Takes.readers_eq (h : w.Takes vec r lender inPlace w') : w'.readers = w.readers := by
  obtain ⟨m, holding, -, -, -, rfl⟩ := h.frame
  rfl

theorem Takes.size_eq (h : w.Takes vec r lender inPlace w') : w'.vecs.size = w.vecs.size := by
  obtain ⟨m, holding, -, -, -, rfl⟩ := h.frame
  exact size_vecs_setHolding ..

theorem HeldFrom.takenFrom {kind : Kind} {holding : Holding}
    (h : HeldFrom w.memory.buffers.size r kind (lenderInPlace lender inPlace kind r) holding) :
    w.TakenFrom r lender inPlace holding := by
  cases hl : lenderInPlace lender inPlace kind r with
  | none =>
    rw [hl] at h
    unfold HeldFrom at h
    split_ifs at h with hr
    · subst h
      exact ⟨rfl, fun hp => absurd hr (by simp [hp])⟩
    · obtain ⟨buffer, hbuffer, rfl⟩ := h
      exact ⟨rfl, fun _ => hbuffer⟩
  | some region =>
    rw [hl] at h
    obtain ⟨serial, rfl⟩ := h
    obtain ⟨hp, -, hlender⟩ := lenderInPlace_eq_some.1 hl
    exact ⟨hp, hlender, rfl⟩

/-- A vector that holds a range and shows its bytes has taken them. -/
theorem lodges_of_held {m : Memory} {holding : Holding} (hvec : vec < w.vecs.size)
    (hc : w.memory.Covers r) (hgrows : w.memory.Grows m) (hframe : w.memory.Frame (fun _ => False) m)
    (hheld : HeldFrom w.memory.buffers.size r (w.vec vec).kind
      (lenderInPlace lender inPlace (w.vec vec).kind r) holding)
    (hshows : ({ w with memory := m }.setHolding vec holding).ShowsBytes vec (w.vec vec).kind
      (w.bytes r)) :
    w.Lodges vec r lender inPlace ({ w with memory := m }.setHolding vec holding) := by
  have hwords := hshows.showsWords
  rw [length_bytes hc] at hwords
  refine ⟨⟨⟨m, holding, hgrows, hframe, hheld.takenFrom, rfl⟩, hwords⟩, ?_, hshows⟩
  rw [vec_setHolding_self { w with memory := m } holding hvec]
  exact hheld

theorem takeElements_of_none (h : lenderInPlace lender inPlace (w.vec vec).kind r = none) :
    takeElements vec r lender inPlace w = adoptCopy vec r w := by
  unfold takeElements
  rw [Action.bind_ok (x := get) rfl]
  cases lender with
  | none => rfl
  | some region =>
    unfold lenderInPlace at h
    split_ifs at h with ha
    simp only
    rw [if_neg ha]

theorem takeElements_of_some {region : Nat}
    (h : lenderInPlace lender inPlace (w.vec vec).kind r = some region) (hc : w.memory.Covers r)
    (hwhole : r.length % (w.vec vec).kind.width = 0)
    (hshort : (w.memory.buffer r.buffer).length < exactBound) :
    takeElements vec r lender inPlace w =
      attach vec ⟨(w.vec vec).kind, r.buffer, r.offset, r.length / (w.vec vec).kind.width,
        w.memory.views⟩ region { w with memory := countView w.memory } := by
  obtain ⟨rfl, ha, rfl⟩ := lenderInPlace_eq_some.1 h
  have hrun : takeElements vec r (some region) true w =
      (if (w.vec vec).kind.isAligned r.offset then
        World.view (w.vec vec).kind r.buffer (ofNat r.offset)
          (some (ofNat (r.length / (w.vec vec).kind.width))) >>= fun elements =>
            attach vec elements region
      else adoptCopy vec r) w := rfl
  rw [hrun, if_pos ha, Action.bind_ok (view_aligned ha hc hwhole hshort)]

/-- A copy shows the bytes that are copied. -/
theorem lodges_adoptCopy (hp : r.shares = false)
    (h : lenderInPlace lender inPlace (w.vec vec).kind r = none) (hvec : vec < w.vecs.size)
    (hc : w.memory.Covers r) (hwhole : r.length % (w.vec vec).kind.width = 0) :
    ∃ w', adoptCopy vec r w = .ok () w' ∧ w.Lodges vec r lender inPlace w' := by
  have hlength := length_bytes hc
  refine ⟨_, adoptCopy_of_plain vec hp, lodges_of_held hvec hc (Memory.grows_alloc ..)
    (Memory.frame_alloc _ _ _) ?_ ⟨kind_vec_withOwned .., ?_⟩⟩
  · rw [h]
    unfold HeldFrom
    rw [hp]
    exact ⟨w.memory.buffers.size, le_rfl, rfl⟩
  · rw [vec_setHolding_self { w with memory := (w.memory.alloc (w.bytes r)).2 } _ hvec]
    refine ⟨_, rfl, rfl, ⟨?_, ?_⟩, ?_⟩
    · exact w.memory.lt_size_alloc (w.bytes r)
    · change 0 + r.length / (w.vec vec).kind.width * (w.vec vec).kind.width ≤
        ((w.memory.alloc (w.bytes r)).2.buffer w.memory.buffers.size).length
      rw [Memory.buffer_alloc_self, hlength, Nat.div_mul_cancel (Nat.dvd_of_mod_eq_zero hwhole),
        Nat.zero_add]
    · change ((w.memory.alloc (w.bytes r)).2.buffer w.memory.buffers.size).slice 0
        (r.length / (w.vec vec).kind.width * (w.vec vec).kind.width) = _
      rw [Memory.buffer_alloc_self, Nat.div_mul_cancel (Nat.dvd_of_mod_eq_zero hwhole), ← hlength]
      unfold Bytes.slice
      rw [List.drop_zero, List.take_length]

/-- Storage over bytes that share shows them where they are. -/
theorem lodges_over (hs : r.shares = true) (h : lenderInPlace lender inPlace (w.vec vec).kind r = none)
    (hvec : vec < w.vecs.size) (hc : w.memory.Covers r) (hwhole : r.length % (w.vec vec).kind.width = 0) :
    w.Lodges vec r lender inPlace
      (w.withOwned vec (.over (w.vec vec).kind r) w.memory w.promotions) := by
  refine lodges_of_held hvec hc (Memory.Grows.refl _) (Memory.Frame.refl _ _) ?_
    ⟨kind_vec_withOwned .., ?_⟩
  · rw [h]
    unfold HeldFrom
    rw [hs]
    rfl
  · rw [vec_setHolding_self _ _ hvec]
    refine ⟨_, rfl, rfl, ⟨hc.buffer_lt, ?_⟩, ?_⟩
    · change r.offset + r.length / (w.vec vec).kind.width * (w.vec vec).kind.width ≤ _
      rw [Nat.div_mul_cancel (Nat.dvd_of_mod_eq_zero hwhole)]
      exact hc.end_le
    · change (w.memory.buffer r.buffer).slice r.offset
        (r.length / (w.vec vec).kind.width * (w.vec vec).kind.width) = _
      rw [Nat.div_mul_cancel (Nat.dvd_of_mod_eq_zero hwhole)]
      rfl

/-- A view of aligned bytes shows just these. -/
theorem lodges_attach {region : Nat}
    (h : lenderInPlace lender inPlace (w.vec vec).kind r = some region) (hvec : vec < w.vecs.size)
    (hm : (w.vec vec).mode ≠ .owned) (ho : w.isOpen region = true) (hc : w.memory.Covers r)
    (hwhole : r.length % (w.vec vec).kind.width = 0) :
    ∃ w', attach vec ⟨(w.vec vec).kind, r.buffer, r.offset, r.length / (w.vec vec).kind.width,
        w.memory.views⟩ region { w with memory := countView w.memory } = .ok () w' ∧
      w.Lodges vec r lender inPlace w' := by
  have hrange : (⟨(w.vec vec).kind, r.buffer, r.offset, r.length / (w.vec vec).kind.width,
      w.memory.views⟩ : View).range = { r with shares := false } := by
    unfold View.range View.byteLength
    rw [Nat.div_mul_cancel (Nat.dvd_of_mod_eq_zero hwhole)]
  refine ⟨_, attach_ok (w := { w with memory := countView w.memory }) hm ho,
    lodges_of_held hvec hc (grows_countView w.memory) (fun _ _ _ => rfl) ?_
      ⟨kind_vec_setHolding { w with memory := countView w.memory } .., ?_⟩⟩
  · rw [h]
    exact ⟨w.memory.views, rfl⟩
  · rw [vec_setHolding_self { w with memory := countView w.memory } _ hvec]
    refine ⟨_, if_pos ho, rfl, ?_, ?_⟩
    · rw [hrange]
      exact ⟨hc.buffer_lt, hc.end_le⟩
    · rw [hrange]
      rfl

/-- A vector that owns nothing takes the words of a range, in one way or the other. -/
theorem takeElements_takes (lender : Option Nat) (inPlace : Bool) (hplain : r.shares = false)
    (hid : vec < w.vecs.size) (hm : (w.vec vec).mode ≠ .owned) (hc : w.memory.Covers r)
    (hr : r.length % (w.vec vec).kind.width = 0)
    (hshort : (w.memory.buffer r.buffer).length < exactBound)
    (hl : inPlace = true → ∀ region, lender = some region → w.isOpen region = true) :
    ∃ w', takeElements vec r lender inPlace w = .ok () w' ∧ w.Takes vec r lender inPlace w' := by
  cases h : lenderInPlace lender inPlace (w.vec vec).kind r with
  | none =>
    obtain ⟨w', hcopy, hlodges⟩ := lodges_adoptCopy hplain h hid hc hr
    exact ⟨w', (takeElements_of_none h).trans hcopy, hlodges.takes⟩
  | some region =>
    obtain ⟨hp, -, hlender⟩ := lenderInPlace_eq_some.1 h
    obtain ⟨w', hattach, hlodges⟩ := lodges_attach h hid hm (hl hp region hlender) hc hr
    exact ⟨w', (takeElements_of_some h hc hr hshort).trans hattach, hlodges.takes⟩

/-- Elements that have been taken lie where the lender, the policy and their alignment say. -/
theorem lodges_of_takeElements (hvec : vec < w.vecs.size) (hc : w.memory.Covers r)
    (hwhole : r.length % (w.vec vec).kind.width = 0)
    (hshort : (w.memory.buffer r.buffer).length < exactBound)
    (htake : takeElements vec r lender inPlace w = .ok () w') : w.Lodges vec r lender inPlace w' := by
  cases h : lenderInPlace lender inPlace (w.vec vec).kind r with
  | none =>
    rw [takeElements_of_none h] at htake
    have hadopt := adopting_adoptCopy w vec r
    rw [htake] at hadopt
    cases hadopt with
    | copied hp =>
      obtain ⟨w₁, hcopy, hlodges⟩ := lodges_adoptCopy hp h hvec hc hwhole
      rw [adoptCopy_of_plain vec hp] at hcopy
      cases hcopy
      exact hlodges
    | shared hs => exact lodges_over hs h hvec hc hwhole
  | some region =>
    rw [takeElements_of_some h hc hwhole hshort] at htake
    have hattached := htake
    rw [attach_eq] at hattached
    split_ifs at hattached with hm ho
    obtain ⟨w₁, hattach, hlodges⟩ := lodges_attach h hvec hm ho hc hwhole
    rw [hattach] at htake
    cases htake
    exact hlodges

end Takes

end LeaseVec.World
