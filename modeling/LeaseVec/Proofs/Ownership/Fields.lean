import LeaseVec.Proofs.Ownership.Arrays
import LeaseVec.Proofs.World.Span
import LeaseVec.Proofs.World.Stores

/-!
# Regions, readers and what is decoded

A field that is read in place borrows from bytes that are lent already, and one that is copied gets a buffer
of its own. Only the bytes given to a region or a reader come from outside, so nothing else has to be asked
of the caller.
-/

namespace LeaseVec.World

open Number Number.Binary64

variable {α β : Type} {w w' : World}

/-- However a step ends it keeps what every step keeps, and when it succeeds more is known. -/
def Safe (x : Action α) (w : World) (post : α → World → Prop) : Prop :=
  match x w with
  | .ok a w' => w.Advances w' ∧ post a w'
  | .error _ w' => w.Advances w'

theorem Safe.after {x : Action α} {p : α → World → Prop} (h : Safe x w p) :
    w.Advances (x.after w) := by
  unfold Safe at h
  cases hx : x w with
  | ok a w' =>
    rw [hx] at h
    rw [Action.after_ok hx]
    exact h.1
  | error e w' =>
    rw [hx] at h
    rw [Action.after_error hx]
    exact h

theorem safe_of_advances {x : Action α} (h : w.Advances (x.after w)) :
    Safe x w fun _ _ => True := by
  unfold Safe
  cases hx : x w with
  | ok a w' =>
    rw [Action.after_ok hx] at h
    exact ⟨h, trivial⟩
  | error e w' =>
    rw [Action.after_error hx] at h
    exact h

theorem safe_of_leads {x : Action α} {F : Fault → Prop} {p : α → World → Prop}
    (h : Action.Leads Advances F x w p) : Safe x w p := by
  unfold Action.Leads at h
  unfold Safe
  cases hx : x w with
  | ok a w' =>
    rw [hx] at h
    exact h
  | error e w' =>
    rw [hx] at h
    exact h.1

theorem Safe.leads {x : Action α} {p : α → World → Prop} (h : Safe x w p) :
    Action.Leads Advances (fun _ => True) x w p := by
  unfold Safe at h
  cases hx : x w with
  | ok a w' =>
    rw [hx] at h
    exact Action.leads_of_ok hx h.1 h.2
  | error e w' =>
    rw [hx] at h
    exact Action.leads_of_error hx h trivial

instance : Std.Refl Advances := ⟨Advances.refl⟩

instance : IsTrans World Advances := ⟨fun _ _ _ => Advances.trans⟩

theorem safe_pure {a : α} {post : α → World → Prop} (h : post a w) :
    Safe (pure a) w post := ⟨Advances.refl w, h⟩

theorem Safe.bind {x : Action α} {f : α → Action β} {p : α → World → Prop}
    {q : β → World → Prop} (hx : Safe x w p)
    (hf : ∀ a w', w.Advances w' → p a w' → Safe (f a) w' q) : Safe (x >>= f) w q := by
  unfold Safe at hx ⊢
  cases h : x w with
  | error e w' =>
    rw [h] at hx
    rw [Action.bind_error h]
    exact hx
  | ok a w₁ =>
    rw [h] at hx
    rw [Action.bind_ok h]
    have hrest := hf a w₁ hx.1 hx.2
    unfold Safe at hrest
    cases h' : f a w₁ with
    | error e w₂ =>
      rw [h'] at hrest
      exact hx.1.trans hrest
    | ok b w₂ =>
      rw [h'] at hrest
      exact ⟨hx.1.trans hrest.1, hrest.2⟩

theorem Safe.get_bind {f : World → Action β} {post : β → World → Prop} (h : Safe (f w) w post) :
    Safe (get >>= f) w post := h

theorem Safe.ofExcept_bind {x : Except Fault α} {f : α → Action β} {post : β → World → Prop}
    (h : ∀ a, x = .ok a → Safe (f a) w post) : Safe (Action.ofExcept x >>= f) w post := by
  cases x with
  | ok a => exact h a rfl
  | error e => exact Advances.refl w

theorem Safe.demand_bind {admitted : Bool} {f : Unit → Action β} {post : β → World → Prop}
    (h : Safe (f ()) w post) : Safe (Action.demand admitted >>= f) w post := by
  cases admitted with
  | true => exact h
  | false => exact Advances.refl w

/-- A new buffer is nobody's storage, and its range is all of it. -/
theorem safe_alloc (he : w.Exclusive) (contents : Bytes) :
    Safe (alloc contents) w fun r w' => w'.Outside r := by
  have hadv : w.Advances { w with memory := (w.memory.alloc contents).2 } :=
    advances_memory (Memory.grows_alloc ..)
  refine ⟨hadv, ⟨w.memory.lt_size_alloc contents, fun o a ha => ?_⟩, w.memory.covers_alloc contents, rfl⟩
  exact (he.stored o a ((storage?_congr rfl rfl o).symm.trans ha)).ne

theorem safe_slice (he : w.Exclusive) {r : ByteRange} (hr : r.shares = false) :
    Safe (slice r) w fun r w' => w'.Outside r := by
  unfold Safe
  rw [slice_of_plain hr]
  exact safe_alloc he (w.bytes r)

/-- A slice of whatever class takes nothing from anybody. -/
theorem advances_slice (he : w.Exclusive) (r : ByteRange) : w.Advances ((slice r).after w) := by
  rcases slice_cases w r with ⟨-, h⟩ | ⟨hr, -⟩
  · rw [Action.after_ok h]
    exact Advances.refl w
  · exact (safe_slice he hr).after

theorem safe_view (kind : Kind) (buffer : Nat) (offset : Binary64) (length : Option Binary64) :
    Safe (view kind buffer offset length) w fun v w' =>
      v.buffer = buffer ∧ (buffer < w.memory.buffers.size → w'.memory.Covers v.range) := by
  unfold Safe view
  cases h : w.memory.view? kind buffer offset length with
  | error e => exact Advances.refl w
  | ok r =>
    obtain ⟨v, m⟩ := r
    obtain ⟨-, hb, hle, rfl⟩ := view?_ok h
    refine ⟨advances_memory (grows_countView _), hb, fun hlt => ⟨?_, ?_⟩⟩
    · change v.buffer < w.memory.buffers.size
      rwa [hb]
    · change v.offset + v.byteLength ≤ (w.memory.buffer v.buffer).length
      rwa [hb]

/-- What is outside stays so when no owner gains storage. -/
theorem Outside.of_storage {r : ByteRange} (h : w.Outside r) (hg : w.memory.Grows w'.memory)
    (hs : ∀ o a, w'.storage? o = some a → w.storage? o = some a) : w'.Outside r where
  foreign := ⟨h.foreign.lt.trans_le hg.size_le, fun o a ha => h.foreign.ne o a (hs o a ha)⟩
  covers := h.covers.of_grows hg
  plain := h.plain

theorem advances_pushRegion {label : Text} {n : Nat} {held : ByteRange} (h : w.Outside held) :
    w.Advances { w with regions := w.regions.push ⟨label, n, some held⟩ } := by
  have hs : ∀ o a, ({ w with regions := w.regions.push ⟨label, n, some held⟩ } : World).storage? o =
      some a → w.storage? o = some a := fun o a ha => (storage?_congr rfl rfl o).symm.trans ha
  refine Advances.of_lose (Memory.Grows.refl _) hs (fun _ _ _ => rfl) fun r hr => ?_
  cases hr with
  | source j hlt => exact Or.inl (.source j hlt)
  | stored j files path r hf hfind => exact Or.inl (.stored j files path r hf hfind)
  | borrowed j view reg hb => exact Or.inl (.borrowed j view reg hb)
  | held j r hr =>
    rw [region_push] at hr
    split_ifs at hr
    · cases hr
      exact Or.inr (h.of_storage (Memory.Grows.refl _) hs)
    · exact Or.inl (.held j r hr)

/-- A region lends what it is given, or a copy of it. -/
theorem safe_lend (he : w.Exclusive) {r : ByteRange} (label : Text) (hr : w.Outside r) :
    Safe (lend r label) w fun _ _ => True := by
  unfold Safe
  rcases lend_cases w r label with ⟨-, h⟩ | ⟨-, h⟩
  · rw [h]
    exact ⟨advances_pushRegion hr, trivial⟩
  · obtain ⟨hcopy, hout⟩ := safe_alloc he (w.bytes r)
    rw [h]
    exact ⟨hcopy.trans (advances_pushRegion hout), trivial⟩

theorem advances_close (id : Nat) : w.Advances ((close id).after w) := by
  change w.Advances
    { w with regions := w.regions.modify id fun r => { r with held := none } }
  refine Advances.of_lose (Memory.Grows.refl _)
    (fun o _ ha => (storage?_congr rfl rfl o).symm.trans ha) (fun _ _ _ => rfl) fun r hr => ?_
  cases hr with
  | source j h => exact Or.inl (.source j h)
  | stored j files path r hs h => exact Or.inl (.stored j files path r hs h)
  | borrowed j view reg h => exact Or.inl (.borrowed j view reg h)
  | held j r h =>
    refine Or.inl (.held j r ?_)
    unfold region at h ⊢
    simp only [Array.getD_eq_getD_getElem?, Array.getElem?_modify] at h ⊢
    split_ifs at h with hj
    · cases hr : w.regions[j]? with
      | none => simp [hr, default, instInhabitedRegion.default] at h
      | some old => simp [hr] at h
    · exact h

/-- A reader lends its source, which may be lent already. -/
theorem advances_pushReader {source : ByteRange} {lender : Option Nat}
    (hsource : w.Lends source ∨ w.Outside source) :
    w.Advances { w with readers := w.readers.push ⟨source, 0, lender⟩ } := by
  have hs : ∀ o a, ({ w with readers := w.readers.push ⟨source, 0, lender⟩ } : World).storage? o =
      some a → w.storage? o = some a := fun o a ha => (storage?_congr rfl rfl o).symm.trans ha
  refine Advances.of_lose (Memory.Grows.refl _) hs (fun _ _ _ => rfl) fun r hr => ?_
  cases hr with
  | held j r h => exact Or.inl (.held j r h)
  | stored j files path r hf h => exact Or.inl (.stored j files path r hf h)
  | borrowed j view reg h => exact Or.inl (.borrowed j view reg h)
  | source j h =>
    rw [reader_push]
    split_ifs with hj
    · exact hsource.imp_right fun h => h.of_storage (Memory.Grows.refl _) hs
    · have hlt : j < w.readers.size := by
        have hle : j < w.readers.size + 1 := by simpa using h
        omega
      exact Or.inl (.source j hlt)

theorem safe_newReader {source : ByteRange} (hs : w.Outside source) :
    Safe (newReader source) w fun _ _ => True :=
  ⟨advances_pushReader (Or.inr hs), trivial⟩

theorem lentBytes_ok {region : Nat} {r : ByteRange} (h : w.lentBytes region = .ok r) :
    (w.region region).held = some r := by
  unfold lentBytes at h
  cases hh : (w.region region).held with
  | none => simp [hh] at h
  | some held =>
    simp only [hh, Except.ok.injEq] at h
    rw [h]

/-- A reader over a region passes on what the region lends. -/
theorem advances_newBorrower (region : Nat) : w.Advances ((newBorrower region).after w) := by
  change w.Advances (Action.after (Action.ofExcept (w.lentBytes region) >>= fun source => do
    set { w with readers := w.readers.push ⟨source, 0, some region⟩ }
    return w.readers.size) w)
  cases h : w.lentBytes region with
  | error e => exact Advances.refl w
  | ok source => exact advances_pushReader (Or.inl (.held region source (lentBytes_ok h)))

theorem advances_setOffset (reader offset : Nat) :
    w.Advances (w.setReader reader { w.reader reader with offset := offset }) := by
  refine Advances.of_lose (Memory.Grows.refl _)
    (fun o _ ha => (storage?_congr rfl rfl o).symm.trans ha) (fun _ _ _ => rfl) fun r hr => ?_
  cases hr with
  | held j r h => exact Or.inl (.held j r h)
  | stored j files path r hs h => exact Or.inl (.stored j files path r hs h)
  | borrowed j view reg h => exact Or.inl (.borrowed j view reg h)
  | source j h =>
    rw [source_setOffset]
    exact Or.inl (.source j (by simpa using h))

theorem safe_scan (reader : Nat) (s : Scan α) :
    Safe (scan reader s) w fun a w' => ∃ offset,
      s (w.bytes (w.reader reader).source) (w.reader reader).offset = .ok a offset ∧
        w' = w.setReader reader { w.reader reader with offset := offset } := by
  unfold Safe
  cases h : s (w.bytes (w.reader reader).source) (w.reader reader).offset with
  | ok a offset =>
    rw [scan_ok h]
    exact ⟨advances_setOffset reader offset, offset, rfl, rfl⟩
  | error e offset =>
    rw [scan_error h]
    exact advances_setOffset reader offset

/-- What a reader reads is plain; a reader that does not exist reads nothing, which is plain as well. -/
theorem Exclusive.plain_source (he : w.Exclusive) (reader : Nat) : (w.reader reader).source.shares = false := by
  rcases Nat.lt_or_ge reader w.readers.size with hlt | hge
  · exact he.plain _ (.source reader hlt)
  · unfold World.reader
    rw [Array.getD_eq_getD_getElem?, Array.getElem?_eq_none hge]
    rfl

/-- A reader that may borrow exists, so what it reads is lent. -/
theorem foreign_source (he : w.Exclusive) {reader region : Nat}
    (h : (w.reader reader).lender = some region) : w.Foreign (w.reader reader).source.buffer := by
  refine he.lent _ (.source reader ?_)
  rcases Nat.lt_or_ge reader w.readers.size with hlt | hge
  · exact hlt
  · unfold World.reader at h
    rw [Array.getD_eq_getD_getElem?, Array.getElem?_eq_none hge] at h
    cases h

/-- The bytes of a range that exists are as many as it says. -/
theorem length_bytes {r : ByteRange} (h : w.memory.Covers r) : (w.bytes r).length = r.length := by
  have hle := h.end_le
  unfold World.bytes Memory.read
  rw [Bytes.length_slice]
  omega

/-- The range holds whole elements of a kind. -/
def Holds (w : World) (kind : Kind) (r : ByteRange) : Prop :=
  w.memory.Covers r ∧ r.length % kind.width = 0

/-- A copy of whole elements fits the buffer that is made for it. -/
theorem fits_copy {kind : Kind} {r : ByteRange} (h : w.Holds kind r) :
    Growable.Fits (w.memory.alloc (w.bytes r)).2
      (.over kind ⟨w.memory.buffers.size, 0, r.length, false⟩) := by
  refine ⟨?_, le_rfl, by simp [Growable.over]⟩
  show 0 + r.length / kind.width * kind.width ≤
    ((w.memory.alloc (w.bytes r)).2.buffer w.memory.buffers.size).length
  rw [Memory.buffer_alloc_self, length_bytes h.1, Nat.zero_add]
  exact Nat.div_mul_le_self ..

/-- Storage over bytes that exist fits them. -/
theorem fits_over {kind : Kind} {r : ByteRange} (h : w.memory.Covers r) : (Growable.over kind r).Fits w.memory := by
  refine ⟨?_, le_rfl, by simp [Growable.over]⟩
  calc r.offset + r.length / kind.width * kind.width ≤ r.offset + r.length :=
        Nat.add_le_add_left (Nat.div_mul_le_self ..) _
    _ ≤ (w.memory.buffer r.buffer).length := h.end_le

theorem renews_copy {vec : Nat} {r : ByteRange}
    (hr : w.memory.Addressable → w.InBounds → w.Holds (w.vec vec).kind r) :
    w.Renews (.vec vec) (w.memory.alloc (w.bytes r)).2
      (.over (w.vec vec).kind ⟨w.memory.buffers.size, 0, r.length, false⟩) where
  grows := Memory.grows_alloc ..
  frame := Memory.frame_alloc _ _ _
  buffer_cases := Or.inr le_rfl
  buffer_lt := by
    intro _
    exact w.memory.lt_size_alloc _
  fits := by
    intro hm hi
    exact fits_copy (hr (hm.of_grows (Memory.grows_alloc ..)) hi)
  kind_eq := by
    intro _ j hj _
    cases hj
    rfl

theorem advances_adoptCopy {vec : Nat} {r : ByteRange} (hp : r.shares = false)
    (hr : w.memory.Addressable → w.InBounds → w.Holds (w.vec vec).kind r) :
    w.Advances ((adoptCopy vec r).after w) := by
  rw [Action.after_ok (adoptCopy_of_plain vec hp)]
  exact ((renews_copy hr).places_vec w.promotions).advances

/-- Elements are borrowed from foreign bytes, or copied. -/
theorem safe_takeElements {vec : Nat} {r : ByteRange} {lender : Option Nat} {inPlace : Bool}
    (hp : r.shares = false) (hl : ∀ region, lender = some region → w.Foreign r.buffer)
    (hr : w.memory.Addressable → w.InBounds → w.Holds (w.vec vec).kind r) :
    Safe (takeElements vec r lender inPlace) w fun _ _ => True := by
  have hcopy : Safe (adoptCopy vec r) w fun _ _ => True := safe_of_advances (advances_adoptCopy hp hr)
  unfold takeElements
  refine Safe.get_bind ?_
  cases lender with
  | none => exact hcopy
  | some region =>
    have hf := hl region rfl
    simp only
    split_ifs
    · refine (safe_view ..).bind fun v w₁ hadv hv => ?_
      refine safe_of_advances (advances_attach fun _ => ⟨?_, hv.2 hf.lt⟩)
      rw [hv.1]
      exact hadv.foreign _ hf
    · exact hcopy

/-- A field that has been found holds whole elements, if it was looked for in bytes that exist. -/
theorem holds_of_field {kind : Kind} {stride : Binary64} {s : Nat} {bound : Option Scalar}
    {source : ByteRange} {offset start span offset' : Nat} (hs : Whole stride s)
    (hshort : (w.memory.buffer source.buffer).length < exactBound) (hc : w.memory.Covers source)
    (h : Scan.field kind stride bound (w.bytes source) offset = .ok (start, span) offset') :
    w.Holds kind (source.sub start span) := by
  have hlen := length_bytes hc
  have hend := hc.end_le
  obtain ⟨-, hle, hwhole⟩ := Scan.field_within hs (by omega) h
  refine ⟨⟨hc.buffer_lt, ?_⟩, hwhole⟩
  change source.offset + start + span ≤ (w.memory.buffer source.buffer).length
  omega

/-- Only a reader that exists can find a field. -/
theorem covers_of_field {kind : Kind} {stride : Binary64} {bound : Option Scalar} {reader : Nat}
    {found : Nat × Nat} {offset offset' : Nat}
    (hi : (w.setReader reader { w.reader reader with offset := offset }).InBounds)
    (h : Scan.field kind stride bound (w.bytes (w.reader reader).source)
      (w.reader reader).offset = .ok found offset') :
    w.memory.Covers (w.reader reader).source := by
  have hle := Scan.field_le h
  rcases Nat.lt_or_ge reader w.readers.size with hlt | hge
  · have hl : (w.setReader reader { w.reader reader with offset := offset }).Lends
        (w.reader reader).source := by
      have hs := Lends.source (w := w.setReader reader { w.reader reader with offset := offset })
        reader (by simpa using hlt)
      rwa [source_setOffset] at hs
    exact hi.covers _ hl
  · have hnone : (w.reader reader).source.length = 0 := by
      unfold World.reader
      rw [Array.getD_eq_getD_getElem?, Array.getElem?_eq_none hge]
      rfl
    have hempty : (w.bytes (w.reader reader).source).length = 0 := by
      unfold World.bytes Memory.read
      rw [Bytes.length_slice, hnone, Nat.zero_min]
    omega

theorem safe_readField (he : w.Exclusive) (reader vec : Nat) (stride : Binary64)
    (policy : ReadPolicy) : Safe (readField reader vec stride policy) w fun _ _ => True := by
  unfold readField
  refine Safe.ofExcept_bind fun s hstride => Safe.get_bind ?_
  obtain ⟨hwhole, -⟩ := acceptStride_ok.1 hstride
  refine (safe_scan reader _).bind fun found w₁ hadv hfound => ?_
  obtain ⟨start, span⟩ := found
  obtain ⟨offset, hfield, rfl⟩ := hfound
  refine Safe.get_bind (Safe.bind (p := fun _ _ => True) (safe_takeElements ?_ ?_ ?_) ?_)
  · exact (hadv.exclusive he).plain_source reader
  · intro region hl
    exact foreign_source (hadv.exclusive he) hl
  · intro hm hi
    have hc := covers_of_field hi hfield
    rw [source_setOffset]
    exact holds_of_field (w := w) hwhole (hm _) hc hfield
  · intro _ w₂ _ _
    exact Safe.get_bind (safe_pure trivial)

/-- Decoding keeps ownership exclusive whether it succeeds or not. -/
theorem safe_decodeField (he : w.Exclusive) (reader : Nat) (policy : Bundle.Policy) :
    Safe (Bundle.decodeField reader policy) w fun _ _ => True := by
  unfold Bundle.decodeField
  refine (safe_scan reader _).bind fun head w₁ h₁ _ => ?_
  refine (safe_of_advances (advances_newVec head.kind policy.checked)).bind fun vec w₂ h₂ _ => ?_
  refine (safe_readField (h₂.exclusive (h₁.exclusive he)) ..).bind fun mode w₃ _ _ => ?_
  exact safe_pure trivial

theorem safe_decodeFields (he : w.Exclusive) (reader : Nat) (policy : Bundle.Policy) (count : Nat) :
    Safe (Bundle.decodeFields reader policy count) w fun _ _ => True := by
  induction count generalizing w with
  | zero => exact safe_pure trivial
  | succ count ih =>
    refine (safe_decodeField he reader policy).bind fun field w₁ h₁ _ => ?_
    refine (ih (h₁.exclusive he)).bind fun rest w₂ _ _ => ?_
    exact safe_pure trivial

theorem safe_decode (he : w.Exclusive) (reader : Nat) (policy : Bundle.Policy) :
    Safe (Bundle.decode reader policy) w fun _ _ => True := by
  refine (safe_scan reader _).bind fun count w₁ h₁ _ => ?_
  exact safe_decodeFields (h₁.exclusive he) reader policy count

theorem safe_decodeCopy (he : w.Exclusive) {source : ByteRange} (hs : w.Outside source)
    (policy : Bundle.Policy) : Safe (Bundle.decodeCopy source policy) w fun _ _ => True := by
  refine (safe_newReader hs).bind fun reader w₁ h₁ _ => ?_
  exact safe_decode (h₁.exclusive he) reader policy

/-- Every file that a store keeps in memory lies outside all storage. -/
def KeptOutside (w : World) (s : Store) : Prop :=
  ∀ files path r, s = .memory files → Store.find? files path = some r → w.Lends r ∨ w.Outside r

theorem keptOutside_store (w : World) (id : Nat) : w.KeptOutside (w.store id) :=
  fun files path r hs h => Or.inl (.stored id files path r hs h)

/-- A store lends what it keeps, which is outside or lent already. -/
theorem advances_stores {stores : Array Store} (hs : ∀ id, w.KeptOutside (stores.getD id default)) :
    w.Advances { w with stores := stores } := by
  have hstorage : ∀ o a, ({ w with stores := stores } : World).storage? o = some a → w.storage? o = some a :=
    fun o a ha => (storage?_congr rfl rfl o).symm.trans ha
  refine Advances.of_lose (Memory.Grows.refl _) hstorage (fun _ _ _ => rfl) fun r hr => ?_
  cases hr with
  | held j r h => exact Or.inl (.held j r h)
  | source j h => exact Or.inl (.source j h)
  | borrowed j view reg h => exact Or.inl (.borrowed j view reg h)
  | stored j files path r hf h =>
    exact (hs j files path r hf h).imp_right fun ho => ho.of_storage (Memory.Grows.refl _) hstorage

theorem advances_setStore (id : Nat) {s : Store} (hs : w.KeptOutside s) : w.Advances (w.setStore id s) := by
  refine advances_stores fun j => ?_
  have hj := store_setStore (w := w) id s j
  unfold setStore store at hj
  rw [hj]
  split_ifs
  · exact hs
  · exact w.keptOutside_store j

theorem advances_addStore {s : Store} (hs : w.KeptOutside s) : w.Advances ((addStore s).after w) := by
  refine advances_stores fun j => ?_
  have hj := store_push (w := w) s j
  unfold store at hj
  rw [hj]
  split_ifs
  · exact hs
  · exact w.keptOutside_store j

theorem advances_alloc (w : World) (contents : Bytes) :
    w.Advances { w with memory := (w.memory.alloc contents).2 } := advances_memory (Memory.grows_alloc ..)

/-- What is lent or outside stays so when there is a new buffer. -/
theorem lends_or_outside_alloc (contents : Bytes) {r : ByteRange} (h : w.Lends r ∨ w.Outside r) :
    ({ w with memory := (w.memory.alloc contents).2 } : World).Lends r ∨
      ({ w with memory := (w.memory.alloc contents).2 } : World).Outside r := by
  refine h.imp (fun hl => ?_) fun ho => ?_
  · cases hl with
    | held id r hr => exact .held id r hr
    | source id hlt => exact .source id hlt
    | stored id files path r hs hf => exact .stored id files path r hs hf
    | borrowed id view region hv => exact .borrowed id view region hv
  · exact ho.of_storage (Memory.grows_alloc ..) fun o a ha => (storage?_congr rfl rfl o).symm.trans ha

/-- A memory store is given plain bytes. -/
def PlainFor (w : World) (store : Nat) (r : ByteRange) : Prop :=
  ∀ files, w.store store = .memory files → r.shares = false

/-- A new store is made of plain bytes, so that it keeps copies. -/
theorem safe_newMemory (he : w.Exclusive) {files : List (Text × ByteRange)}
    (hf : ∀ f ∈ files, f.2.shares = false) : Safe (newMemory files) w fun _ _ => True :=
  safe_of_leads (leads_newMemory_keeping (P := fun u r => u.Lends r ∨ u.Outside r) advances_alloc
    (fun u contents hu => (u.advances_alloc contents).exclusive hu)
    (fun _ contents _ h => lends_or_outside_alloc contents h)
    (fun _ contents hu => Or.inr (safe_alloc hu contents).2) (fun _ _ h => advances_addStore h) he
    fun f hm hs => nomatch (hf f hm).symm.trans hs)

/-- What is fetched lies outside all storage, since it has been copied. -/
theorem safe_fetch (he : w.Exclusive) (store : Nat) (path : Text) :
    Safe (fetch store path) w fun r w' => w'.Outside r := by
  have hfetch := fetching_fetch w store path
  unfold Safe
  generalize fetch store path w = outcome at hfetch
  cases hfetch with
  | missing => exact Advances.refl w
  | shared hs hf hshares =>
    rw [he.plain _ (.stored store _ path _ hs hf)] at hshares
    cases hshares
  | copied => exact safe_alloc he _

theorem safe_lendFile (he : w.Exclusive) (store : Nat) (path : Text) :
    Safe (lendFile store path) w fun _ _ => True :=
  (safe_fetch he store path).bind fun _ _ h₁ hr => safe_lend (h₁.exclusive he) path hr

theorem safe_openInPlace (he : w.Exclusive) (store : Nat) (path : Text) (policy : Bundle.Policy) :
    Safe (openInPlace store path policy) w fun _ _ => True := by
  unfold openInPlace
  refine (safe_lendFile he store path).bind fun region w₁ h₁ _ => ?_
  refine (safe_of_advances (advances_newBorrower region)).bind fun reader w₂ h₂ _ => ?_
  refine (safe_decode (h₂.exclusive (h₁.exclusive he)) reader policy).bind fun fields w₃ _ _ => ?_
  exact safe_pure trivial

/-- A store is given plain bytes to keep them in memory, so that it keeps copies. -/
theorem safe_keeping (he : w.Exclusive) (store : Nat) {c : StoreCommand} (hc : ∀ r ∈ c.given?, w.PlainFor store r) :
    Safe (c.run store) w fun _ _ => True :=
  safe_of_leads (leads_storeCommand_keeping (P := fun u r => u.Lends r ∨ u.Outside r) advances_alloc
    (fun u contents hu => (u.advances_alloc contents).exclusive hu)
    (fun _ contents _ h => lends_or_outside_alloc contents h)
    (fun _ contents hu => Or.inr (safe_alloc hu contents).2) (fun u => u.keptOutside_store store)
    (fun _ _ h => advances_setStore store h) he
    (fun r hr files hfiles hs => nomatch (hc r hr files hfiles).symm.trans hs)
    (fun path => (safe_lendFile he store path).leads)
    fun path policy _ => (safe_openInPlace he store path policy).leads)

end LeaseVec.World
