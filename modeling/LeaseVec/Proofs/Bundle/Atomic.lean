import LeaseVec.Proofs.Lifetime.Released

/-!
# Fields are read whole or not at all

A field is read in three stages: its count, the check that its elements are there, and the change of the
vector. A read that stops in one of them leaves every vector as it was and its reader where the stage began, or
behind the elements when only the vector has refused them, or the host a view of them. A read that does not
stop leaves nothing of what the vector had.
-/

namespace LeaseVec

open Number Number.Binary64

namespace Scan

variable {kind : Kind} {stride : Binary64} {s : Nat} {bound : Option Scalar} {bytes : Bytes} {start : Nat}

/-- The input goes on with a count that may be read. -/
structure Counts (bound : Option Scalar) (bytes : Bytes) (start count : Nat) : Prop where
  room : start + 8 ≤ bytes.length
  decode_eq : Word.decode (bytes.slice start 8) = count
  below : ∃ limit : Int, corruptFrom bound = .ok limit ∧ (count : Int) < limit

/-- Why there is no field to be read, and where the reader then stands. -/
inductive NoField (kind : Kind) (stride : Binary64) (s : Nat) (bound : Option Scalar) (bytes : Bytes)
    (start : Nat) : Fault → Nat → Prop where
  | short (h : bytes.length < start + 8) :
    NoField kind stride s bound bytes start (.inputEnds (ofNat 8) (bytes.length - start)) start
  | unusable {e : Fault} (room : start + 8 ≤ bytes.length) (h : corruptFrom bound = .error e) :
    NoField kind stride s bound bytes start e (start + 8)
  | corrupt {limit : Int} (room : start + 8 ≤ bytes.length) (h : corruptFrom bound = .ok limit)
      (hle : limit ≤ (Word.decode (bytes.slice start 8) : Int)) :
    NoField kind stride s bound bytes start
      (.countTooLarge (Word.decode (bytes.slice start 8) : Int) limit) (start + 8)
  | cut {count : Nat} {e : Fault} (h : Counts bound bytes start count)
      (hlong : bytes.length < start + 8 + count * s * kind.width)
      (he : e = .inputEnds (spanLength kind stride count) (bytes.length - (start + 8)) ∨
        e = .invalidReadLength (spanLength kind stride count)) :
    NoField kind stride s bound bytes start e (start + 8)

theorem u64_of_room (h : start + 8 ≤ bytes.length) :
    u64 bytes start = .ok (Word.decode (bytes.slice start 8)) (start + 8) := by
  have hskip : skip 8 bytes start = .ok start (start + 8) := by rw [skip_eq, if_neg (by omega)]
  have htake : take 8 bytes start = .ok (bytes.slice start 8) (start + 8) := bind_ok hskip
  exact bind_ok htake

theorem u64_of_short (h : bytes.length < start + 8) :
    u64 bytes start = .error (.inputEnds (ofNat 8) (bytes.length - start)) start := by
  have hskip : skip 8 bytes start = .error (.inputEnds (ofNat 8) (bytes.length - start)) start := by
    rw [skip_eq, if_pos (by omega)]
  exact bind_error (bind_error hskip)

theorem count_of_room (bound : Option Scalar) (hroom : start + 8 ≤ bytes.length) :
    count bound bytes start = ofExcept
      (do acceptCount (Word.decode (bytes.slice start 8)) (← corruptFrom bound)) bytes (start + 8) :=
  bind_ok (u64_of_room hroom)

theorem Counts.count_eq {n : Nat} (h : Counts bound bytes start n) :
    count bound bytes start = .ok n (start + 8) := by
  obtain ⟨limit, hl, hbelow⟩ := h.below
  rw [count_of_room bound h.room, hl, h.decode_eq]
  change ofExcept (acceptCount n limit) bytes (start + 8) = _
  rw [acceptCount_ok.2 ⟨Int.natCast_nonneg _, hbelow, rfl⟩, Int.toNat_natCast]
  rfl

/-- The count is read, or it is known why not. -/
theorem count_cases (kind : Kind) (stride : Binary64) (s : Nat) (bound : Option Scalar) (bytes : Bytes)
    (start : Nat) :
    (∃ n, Counts bound bytes start n) ∨
      ∃ e offset, NoField kind stride s bound bytes start e offset ∧
        count bound bytes start = .error e offset := by
  by_cases hroom : start + 8 ≤ bytes.length
  · have hcount := count_of_room bound hroom
    cases hl : corruptFrom bound with
    | error e =>
      rw [hl] at hcount
      exact Or.inr ⟨e, start + 8, .unusable hroom hl, hcount⟩
    | ok limit =>
      rw [hl] at hcount
      change _ = ofExcept (acceptCount (Word.decode (bytes.slice start 8)) limit) bytes (start + 8) at hcount
      by_cases hbelow : (Word.decode (bytes.slice start 8) : Int) < limit
      · exact Or.inl ⟨_, hroom, rfl, limit, hl, hbelow⟩
      · have hrefused : acceptCount (Word.decode (bytes.slice start 8)) limit =
            .error (.countTooLarge (Word.decode (bytes.slice start 8) : Int) limit) :=
          if_pos (Or.inr (not_lt.1 hbelow))
        rw [hrefused] at hcount
        exact Or.inr ⟨_, _, .corrupt hroom hl (not_lt.1 hbelow), hcount⟩
  · have hshort : bytes.length < start + 8 := by omega
    exact Or.inr ⟨_, _, .short hshort, bind_error (u64_of_short hshort)⟩

theorem Counts.lt_exactBound {count : Nat} (h : Counts bound bytes start count) : count < exactBound := by
  obtain ⟨limit, hlimit, hlt⟩ := h.below
  have hle := corruptFrom_le hlimit
  have hceiling : (countCeiling : Int) < exactBound := by decide
  omega

/-- Elements that are all there are found. -/
theorem Counts.field_found {n : Nat} (hn : Counts bound bytes start n) (hs : Whole stride s)
    (hlen : bytes.length < exactBound) (hfits : start + 8 + n * s * kind.width ≤ bytes.length) :
    Scan.field kind stride bound bytes start =
      .ok (start + 8, n * s * kind.width) (start + 8 + n * s * kind.width) := by
  have hspan : (spanLength kind stride n).toNat? = some (n * s * kind.width) := by
    rcases spanLength_cases kind hs hn.lt_exactBound.le with ⟨-, hexact⟩ | ⟨hbig, -⟩
    · exact hexact.toNat?
    · omega
  have hskip : skipLength (spanLength kind stride n) bytes (start + 8) =
      .ok (start + 8) (start + 8 + n * s * kind.width) := by
    rw [skipLength_of_toNat? hspan, if_neg (by omega)]
  rw [field_eq, bind_ok hn.count_eq, bind_ok hskip, hspan]
  rfl

/-- The fault of asking for a length that is not there. The one length that cannot be asked for is infinite. -/
def lengthFault (length : Binary64) (left : Nat) : Fault :=
  if length = infinite false then .invalidReadLength length else .inputEnds length left

/-- Elements of which some are missing are not found: their length may be rounded, but not to one that is
there. -/
theorem Counts.field_cut {n : Nat} (hn : Counts bound bytes start n) (hs : Whole stride s)
    (hlen : bytes.length < exactBound) (hlong : bytes.length < start + 8 + n * s * kind.width) :
    Scan.field kind stride bound bytes start =
      .error (lengthFault (spanLength kind stride n) (bytes.length - (start + 8))) (start + 8) := by
  have hroom := hn.room
  unfold lengthFault
  rw [field_eq, bind_ok hn.count_eq]
  rcases whole_or_infinite_spanLength kind hs hn.lt_exactBound.le with ⟨k, hk⟩ | hinfinite
  · have hmissing : bytes.length - (start + 8) < k := by
      by_contra hle
      have hexact := spanLength_eq hs hn.lt_exactBound.le (by omega) hk.toNat?
      omega
    have hfinite : spanLength kind stride n ≠ infinite false := by
      obtain ⟨sign, c, hc, -⟩ := hk.exists_finite
      rw [hc]
      exact Binary64.noConfusion
    rw [if_neg hfinite]
    apply bind_error
    rw [skipLength_of_toNat? hk.toNat?, if_pos hmissing]
  · rw [if_pos hinfinite]
    apply bind_error
    rw [hinfinite]
    rfl

/-- A field is found behind its count, with as many bytes as the count and the stride say, or it is known why
there is none. -/
theorem field_cases (kind : Kind) (bound : Option Scalar) (start : Nat) (hs : Whole stride s)
    (hlen : bytes.length < exactBound) :
    (∃ n, Counts bound bytes start n ∧ start + 8 + n * s * kind.width ≤ bytes.length ∧
        Scan.field kind stride bound bytes start =
          .ok (start + 8, n * s * kind.width) (start + 8 + n * s * kind.width)) ∨
      ∃ e offset, NoField kind stride s bound bytes start e offset ∧
        Scan.field kind stride bound bytes start = .error e offset := by
  rcases count_cases kind stride s bound bytes start with ⟨n, hn⟩ | ⟨e, offset, hno, hcount⟩
  · rcases Nat.lt_or_ge bytes.length (start + 8 + n * s * kind.width) with hlong | hfits
    · refine Or.inr ⟨_, _, .cut hn hlong ?_, hn.field_cut hs hlen hlong⟩
      unfold lengthFault
      split_ifs
      · exact Or.inr rfl
      · exact Or.inl rfl
    · exact Or.inl ⟨n, hn, hfits, hn.field_found hs hlen hfits⟩
  · rw [field_eq]
    exact Or.inr ⟨e, offset, hno, bind_error hcount⟩

end Scan

/-- Elements that slicing does not move are at no multiple of their size. -/
structure ByteRange.Misplaced (r : ByteRange) (kind : Kind) : Prop where
  shares : r.shares = true
  misaligned : kind.isAligned r.offset = false

namespace World

variable {w w' : World} {reader vec start offset : Nat} {stride : Binary64} {policy : ReadPolicy} {bytes : Bytes}

/-- Why a vector does not borrow from a region. -/
inductive Refuses (w : World) (vec region : Nat) : Fault → Prop where
  | owned (h : (w.vec vec).mode = .owned) : Refuses w vec region .alreadyOwned
  | ended (hm : (w.vec vec).mode ≠ .owned) (h : w.isOpen region = false) :
    Refuses w vec region (.borrowEnded (w.region region).label)

/-- The range of the elements of a field. -/
def payload (w : World) (reader start length : Nat) : ByteRange :=
  (w.reader reader).source.sub (start + 8) length

/-- Why reading a field stops, and where the reader then stands. -/
inductive FieldStops (w : World) (reader vec : Nat) (stride : Binary64) (policy : ReadPolicy)
    (bytes : Bytes) (start : Nat) : Fault → Nat → Prop where
  | badStride (h : ∀ s, Whole stride s → s = 0) :
    FieldStops w reader vec stride policy bytes start (.invalidStride stride) start
  | noField {s offset : Nat} {e : Fault} (hs : Whole stride s) (hpos : 1 ≤ s)
      (h : Scan.NoField (w.vec vec).kind stride s policy.bound bytes start e offset) :
    FieldStops w reader vec stride policy bytes start e offset
  | refused {s n region : Nat} {e : Fault} (hs : Whole stride s) (hpos : 1 ≤ s)
      (hn : Scan.Counts policy.bound bytes start n)
      (hfits : start + 8 + n * s * (w.vec vec).kind.width ≤ bytes.length)
      (hlend : lenderInPlace (w.reader reader).lender policy.inPlace (w.vec vec).kind
        (w.payload reader start (n * s * (w.vec vec).kind.width)) = some region)
      (h : w.Refuses vec region e) :
    FieldStops w reader vec stride policy bytes start e (start + 8 + n * s * (w.vec vec).kind.width)
  | misplaced {s n : Nat} (hs : Whole stride s) (hpos : 1 ≤ s) (hn : Scan.Counts policy.bound bytes start n)
      (hfits : start + 8 + n * s * (w.vec vec).kind.width ≤ bytes.length)
      (h : (w.payload reader start (n * s * (w.vec vec).kind.width)).Misplaced (w.vec vec).kind) :
    FieldStops w reader vec stride policy bytes start .viewRefused (start + 8 + n * s * (w.vec vec).kind.width)

/-- Nothing is different but where a reader stands and how many views have been given out. -/
def OnlyMoved (w : World) (reader offset : Nat) (w' : World) : Prop :=
  ∃ views, w' = ({ w with memory := { w.memory with views := views } } : World).movedTo reader offset

/-- All that can be seen of any vector is as it was, and nothing has been reported. -/
structure SameVecs (w w' : World) : Prop where
  vec : ∀ id, w'.vec id = w.vec id
  elements : ∀ id, w'.elements (w'.vec id) = w.elements (w.vec id)
  lender : ∀ id, w'.lenderLabel? (w'.vec id) = w.lenderLabel? (w.vec id)
  promotions : w'.promotions = w.promotions

/-- How many views there are cannot be seen in the elements of a vector. -/
theorem OnlyMoved.sameVecs (h : w.OnlyMoved reader offset w') : w.SameVecs w' := by
  obtain ⟨views, rfl⟩ := h
  refine ⟨fun _ => rfl, fun id => ?_, fun _ => rfl, rfl⟩
  unfold World.elements
  change (viewOf _ (w.vec id)).map _ = _
  cases hh : (w.vec id).holding with
  | empty =>
    rw [viewOf_of_empty hh, viewOf_of_empty hh]
    rfl
  | owned a =>
    rw [viewOf_of_owned hh, viewOf_of_owned hh]
    rfl
  | borrowed view region =>
    rw [viewOf_of_borrowed hh, viewOf_of_borrowed hh]
    rfl

theorem Stands.offset_of_onlyMoved (h : w.Stands reader bytes start) (hmoved : w.OnlyMoved reader offset w') :
    (w'.reader reader).offset = offset := by
  obtain ⟨views, rfl⟩ := hmoved
  have h' : ({ w with memory := { w.memory with views := views } } : World).Stands reader bytes start :=
    ⟨h.lt, ⟨h.covers.buffer_lt, h.covers.end_le⟩, h.short, h.bytes_eq, h.offset_eq⟩
  exact h'.offset_movedTo

/-- A vector of `n` elements has been read from the bytes behind a count. Whatever it held before, nothing is left
of it and nothing has been reported. -/
structure FieldRead (w : World) (reader vec : Nat) (policy : ReadPolicy) (bytes : Bytes) (start n : Nat)
    (mode : Mode) (w' : World) : Prop where
  offset_eq : (w'.reader reader).offset = start + 8 + n * (w.vec vec).kind.width
  mode_eq : (w'.vec vec).mode = mode
  mode_ne : mode ≠ .empty
  borrowed_iff : mode = .borrowed ↔ (lenderInPlace (w.reader reader).lender policy.inPlace (w.vec vec).kind
    (w.payload reader start (n * (w.vec vec).kind.width))).isSome = true
  size_eq : (w'.vec vec).size = n
  capacity_eq : (w'.vec vec).capacity = n
  elements_eq : w'.elements (w'.vec vec) = .ok ((Word.split (w.vec vec).kind.width n
    (bytes.slice (start + 8) (n * (w.vec vec).kind.width))).map (w.vec vec).kind.load)
  others : ∀ id, id ≠ vec → w'.vec id = w.vec id
  promotions_eq : w'.promotions = w.promotions

/-- How reading a field ends. -/
inductive FieldEnds (w : World) (reader vec : Nat) (stride : Binary64) (policy : ReadPolicy)
    (bytes : Bytes) (start : Nat) : EStateM.Result Fault World Mode → Prop where
  | stopped {e : Fault} {offset : Nat} {w' : World}
      (why : w.FieldStops reader vec stride policy bytes start e offset)
      (moved : w.OnlyMoved reader offset w') (offset_eq : (w'.reader reader).offset = offset)
      (same : w.SameVecs w') : FieldEnds w reader vec stride policy bytes start (.error e w')
  | read {s n : Nat} {mode : Mode} {w' : World} (hs : Whole stride s) (hpos : 1 ≤ s)
      (hn : Scan.Counts policy.bound bytes start n)
      (hfits : start + 8 + n * s * (w.vec vec).kind.width ≤ bytes.length)
      (done : w.FieldRead reader vec policy bytes start (n * s) mode w') :
    FieldEnds w reader vec stride policy bytes start (.ok mode w')

theorem Stands.stopped (h : w.Stands reader bytes start) {e : Fault}
    (why : w.FieldStops reader vec stride policy bytes start e offset) (hmoved : w.OnlyMoved reader offset w') :
    w.FieldEnds reader vec stride policy bytes start (.error e w') :=
  .stopped why hmoved (h.offset_of_onlyMoved hmoved) hmoved.sameVecs

theorem onlyMoved_movedTo (w : World) (reader offset : Nat) : w.OnlyMoved reader offset (w.movedTo reader offset) :=
  ⟨w.memory.views, rfl⟩

theorem readField_of_badStride {e : Fault} (h : acceptStride stride = .error e) :
    readField reader vec stride policy w = .error e w := by
  rw [readField_eq, h]
  rfl

theorem readField_of_noField {s : Nat} {e : Fault} (hs : acceptStride stride = .ok s)
    (hfield : Scan.field (w.vec vec).kind stride policy.bound (w.bytes (w.reader reader).source)
      (w.reader reader).offset = .error e offset) :
    readField reader vec stride policy w = .error e (w.movedTo reader offset) := by
  rw [readField_eq, hs]
  change (scan reader _ >>= _) w = _
  rw [Action.bind_error (scan_error hfield)]
  rfl

theorem Stands.length_eq (h : w.Stands reader bytes start) : bytes.length = (w.reader reader).source.length := by
  rw [← h.bytes_eq]
  exact length_bytes h.covers

theorem Stands.length_lt (h : w.Stands reader bytes start) : bytes.length < exactBound := by
  have hend := h.covers.end_le
  have hshort := h.short
  rw [h.length_eq]
  omega

/-- The elements lie in the bytes of the reader. -/
theorem Stands.covers_payload (h : w.Stands reader bytes start) {length : Nat}
    (hfits : start + 8 + length ≤ bytes.length) : w.memory.Covers (w.payload reader start length) := by
  have hsource := h.length_eq
  have hend := h.covers.end_le
  refine ⟨h.covers.buffer_lt, ?_⟩
  change (w.reader reader).source.offset + (start + 8) + length ≤ _
  change _ ≤ (w.memory.buffer (w.reader reader).source.buffer).length
  omega

theorem Stands.bytes_payload (h : w.Stands reader bytes start) {length : Nat}
    (hfits : start + 8 + length ≤ bytes.length) :
    w.bytes (w.payload reader start length) = bytes.slice (start + 8) length := by
  have hsource := h.length_eq
  rw [← h.bytes_eq]
  exact bytes_sub w (by omega)

/-- What holds `n` elements of a range, all of them and no more. -/
theorem HeldFrom.holds {buffers : Nat} {r : ByteRange} {kind : Kind} {lender : Option Nat} {v : Vec}
    (h : HeldFrom buffers r kind lender v.holding) :
    v.mode ≠ .empty ∧ (v.mode = .borrowed ↔ lender.isSome = true) ∧ v.size = r.length / kind.width ∧
      v.capacity = r.length / kind.width := by
  unfold Vec.mode Vec.size Vec.capacity
  cases lender with
  | some region =>
    obtain ⟨serial, hh⟩ := h
    simp [hh]
  | none =>
    unfold HeldFrom at h
    split_ifs at h
    · simp [h, Growable.over]
    · obtain ⟨buffer, -, hh⟩ := h
      simp [hh]

theorem fieldRead_of_lodges {n : Nat} {w' : World} (h : w.Stands reader bytes start)
    (hfits : start + 8 + n * (w.vec vec).kind.width ≤ bytes.length)
    (hl : (w.movedTo reader (start + 8 + n * (w.vec vec).kind.width)).Lodges vec
      (w.payload reader start (n * (w.vec vec).kind.width)) (w.reader reader).lender policy.inPlace w') :
    w.FieldRead reader vec policy bytes start n (w'.vec vec).mode w' := by
  have hlength : (w.payload reader start (n * (w.vec vec).kind.width)).length = n * (w.vec vec).kind.width := rfl
  obtain ⟨hmode, hborrowed, hsize, hcapacity⟩ := hl.held.holds
  have hwords := hl.takes.shows.elements
  change _ = Except.ok (((Word.split (w.vec vec).kind.width _ (w.bytes _))).map _) at hwords
  rw [h.bytes_payload hfits] at hwords
  change (w'.vec vec).size = _ / (w.vec vec).kind.width at hsize
  change (w'.vec vec).capacity = _ / (w.vec vec).kind.width at hcapacity
  change w'.elements (w'.vec vec) = .ok ((Word.split (w.vec vec).kind.width
    (_ / (w.vec vec).kind.width) _).map (w.vec vec).kind.load) at hwords
  rw [hlength, Nat.mul_div_cancel _ (w.vec vec).kind.width_pos] at hsize hcapacity hwords
  obtain ⟨m, holding, -, -, -, heq⟩ := hl.takes.frame
  have hreader : (w'.reader reader).offset = start + 8 + n * (w.vec vec).kind.width := by
    rw [heq]
    exact h.offset_movedTo
  refine ⟨hreader, rfl, hmode, hborrowed, hsize, hcapacity, hwords, fun id hid => ?_, ?_⟩
  · rw [heq]
    exact vec_setHolding_of_ne _ vec holding hid
  · rw [heq]
    rfl

/-- A vector takes the elements of a range, or it refuses to borrow them, or the host refuses a view of them. -/
theorem takeElements_cases {r : ByteRange} (lender : Option Nat) (inPlace : Bool) (hvec : vec < w.vecs.size)
    (hc : w.memory.Covers r) (hwhole : r.length % (w.vec vec).kind.width = 0)
    (hshort : (w.memory.buffer r.buffer).length < exactBound) :
    (∃ w', takeElements vec r lender inPlace w = .ok () w' ∧ w.Lodges vec r lender inPlace w') ∨
      (∃ region e, lenderInPlace lender inPlace (w.vec vec).kind r = some region ∧ w.Refuses vec region e ∧
        takeElements vec r lender inPlace w = .error e { w with memory := countView w.memory }) ∨
      r.Misplaced (w.vec vec).kind ∧ takeElements vec r lender inPlace w = .error .viewRefused w := by
  cases hl : lenderInPlace lender inPlace (w.vec vec).kind r with
  | none =>
    have hadopting := w.adopting_adoptCopy vec r
    rw [← takeElements_of_none hl] at hadopting
    generalize hrun : takeElements vec r lender inPlace w = result at hadopting
    cases hadopting with
    | copied => exact Or.inl ⟨_, rfl, lodges_of_takeElements hvec hc hwhole hshort hrun⟩
    | shared => exact Or.inl ⟨_, rfl, lodges_of_takeElements hvec hc hwhole hshort hrun⟩
    | refused hs ha => exact Or.inr (Or.inr ⟨⟨hs, ha⟩, rfl⟩)
  | some region =>
    have htake := takeElements_of_some hl hc hwhole hshort
    by_cases hm : (w.vec vec).mode = .owned
    · rw [attach_eq] at htake
      exact Or.inr (Or.inl ⟨region, _, rfl, .owned hm, htake.trans (if_pos hm)⟩)
    · cases ho : w.isOpen region with
      | true =>
        obtain ⟨w', hattach, hlodges⟩ := lodges_attach hl hvec hm ho hc hwhole
        exact Or.inl ⟨w', htake.trans hattach, hlodges⟩
      | false =>
        rw [attach_eq] at htake
        refine Or.inr (Or.inl ⟨region, _, rfl, .ended hm ho, htake.trans ((if_neg hm).trans (if_neg ?_))⟩)
        change ¬ w.isOpen region = true
        rw [ho]
        exact Bool.false_ne_true

/-- The stage in which the elements have been found and the vector is changed. -/
theorem Stands.readField_found (h : w.Stands reader bytes start) (hvec : vec < w.vecs.size) {s n : Nat}
    (hs : acceptStride stride = .ok s) (hn : Scan.Counts policy.bound bytes start n)
    (hfits : start + 8 + n * s * (w.vec vec).kind.width ≤ bytes.length)
    (hfield : Scan.field (w.vec vec).kind stride policy.bound bytes start =
      .ok (start + 8, n * s * (w.vec vec).kind.width) (start + 8 + n * s * (w.vec vec).kind.width)) :
    w.FieldEnds reader vec stride policy bytes start (readField reader vec stride policy w) := by
  obtain ⟨hwhole, hpos⟩ := acceptStride_ok.1 hs
  have hrun : readField reader vec stride policy w =
      (takeElements vec (w.payload reader start (n * s * (w.vec vec).kind.width)) (w.reader reader).lender
        policy.inPlace >>= fun _ => (get : Action World) >>= fun w => pure (w.vec vec).mode)
        (w.movedTo reader (start + 8 + n * s * (w.vec vec).kind.width)) :=
    readField_of_field hs (by rwa [h.bytes_eq, h.offset_eq])
  have hcovers := h.covers_payload hfits
  rcases takeElements_cases (w := w.movedTo reader (start + 8 + n * s * (w.vec vec).kind.width))
      (w.reader reader).lender policy.inPlace hvec hcovers (Nat.mul_mod_left ..) h.short with
    ⟨w', htake, hlodges⟩ | ⟨region, e, hlend, hrefuses, htake⟩ | ⟨hmisplaced, htake⟩
  · have hread := fieldRead_of_lodges h hfits hlodges
    rw [hrun, Action.bind_ok htake]
    exact .read hwhole hpos hn hfits hread
  · have hrefused : w.Refuses vec region e := by
      cases hrefuses with
      | owned hm => exact .owned hm
      | ended hm ho => exact .ended hm ho
    rw [hrun, Action.bind_error htake]
    exact h.stopped (.refused hwhole hpos hn hfits hlend hrefused) ⟨w.memory.views + 1, rfl⟩
  · rw [hrun, Action.bind_error htake]
    exact h.stopped (.misplaced hwhole hpos hn hfits hmisplaced) (onlyMoved_movedTo ..)

/-- Under a stride that is accepted, a field is found and read or it is known why not. -/
theorem Stands.readField_of_stride (h : w.Stands reader bytes start) (hvec : vec < w.vecs.size) {s : Nat}
    (hs : acceptStride stride = .ok s) (policy : ReadPolicy) :
    w.FieldEnds reader vec stride policy bytes start (readField reader vec stride policy w) := by
  obtain ⟨hwhole, hpos⟩ := acceptStride_ok.1 hs
  rcases Scan.field_cases (w.vec vec).kind policy.bound start hwhole h.length_lt with
    ⟨n, hn, hfits, hfield⟩ | ⟨e, offset, hno, hfield⟩
  · exact h.readField_found hvec hs hn hfits hfield
  · rw [← h.bytes_eq, ← h.offset_eq] at hfield
    rw [readField_of_noField hs hfield]
    exact h.stopped (.noField hwhole hpos hno) (onlyMoved_movedTo ..)

/-- A field is read whole, or reading it stops and changes nothing but the place of its reader. -/
theorem fieldEnds_readField (h : w.Stands reader bytes start) (hvec : vec < w.vecs.size)
    (stride : Binary64) (policy : ReadPolicy) :
    w.FieldEnds reader vec stride policy bytes start (readField reader vec stride policy w) := by
  cases hs : acceptStride stride with
  | error e =>
    obtain ⟨rfl, hbad⟩ := acceptStride_error hs
    rw [readField_of_badStride hs]
    refine h.stopped (.badStride hbad) ⟨w.memory.views, ?_⟩
    rw [← h.offset_eq]
    exact (movedTo_self w reader).symm
  | ok s => exact h.readField_of_stride hvec hs policy

/-- Behind the name of its field, a reader of a region stands in front of a count, and the vector has storage of
its own. -/
def ownedBeforeField : List Command := lendBundle ++ [.vec 0 (.push (.number 5))]

theorem fieldEnds_ownedBeforeField :
    ((empty.performAll ownedBeforeField).2.vec 0).mode = .owned ∧
      answer? (readField 1 0 (ofNat 1) {} (empty.performAll ownedBeforeField).2) = none ∧
      answer? (readField 1 0 (ofNat 1) { inPlace := false } (empty.performAll ownedBeforeField).2) =
        some .owned ∧
      (empty.performAll ownedBeforeField).2.FieldEnds 1 0 (ofNat 1) {}
        (⟨0, [⟨[97], .u8, 1, [0, 0, 0], 2, [7, 9]⟩]⟩ : Bundle.Reading).bytes 32
        (readField 1 0 (ofNat 1) {} (empty.performAll ownedBeforeField).2) := by
  have hstands : (empty.performAll ownedBeforeField).2.Stands 1
      (⟨0, [⟨[97], .u8, 1, [0, 0, 0], 2, [7, 9]⟩]⟩ : Bundle.Reading).bytes 32 :=
    ⟨by decide +kernel, ⟨by decide +kernel, by decide +kernel⟩, by decide +kernel, by decide +kernel,
      by decide +kernel⟩
  exact ⟨by decide +kernel, by decide +kernel, by decide +kernel,
    fieldEnds_readField hstands (by decide +kernel) (ofNat 1) {}⟩

end World

end LeaseVec
