import LeaseVec.World.Command
import LeaseVec.Proofs.Growable.Updates

/-!
# Who owns which buffer

Every vector that owns its storage and every array has a buffer to itself. Bytes that are lent out (held
by a region, read by a reader, kept by a store, or seen through a borrowed view) never lie in such a buffer,
and they are plain, so that slices of them are copies. This module says what that means and lists the few
ways in which a step may rearrange storage; it does not look at the steps themselves.
-/

namespace LeaseVec

/-- The bytes of a range exist. -/
structure Memory.Covers (m : Memory) (r : ByteRange) : Prop where
  buffer_lt : r.buffer < m.buffers.size
  end_le : r.offset + r.length ≤ (m.buffer r.buffer).length

theorem Memory.Covers.of_grows {m m' : Memory} {r : ByteRange} (h : m.Covers r) (hg : m.Grows m') :
    m'.Covers r where
  buffer_lt := h.buffer_lt.trans_le hg.size_le
  end_le := by
    rw [hg.length_eq _ h.buffer_lt]
    exact h.end_le

theorem Memory.covers_alloc (m : Memory) (contents : Bytes) : (m.alloc contents).2.Covers (m.alloc contents).1 where
  buffer_lt := m.lt_size_alloc contents
  end_le := by
    change 0 + contents.length ≤ ((m.alloc contents).2.buffer m.buffers.size).length
    rw [buffer_alloc_self, Nat.zero_add]

/-- What can own storage. -/
inductive Owner where
  | vec (id : Nat)
  | array (id : Nat)
  deriving DecidableEq

namespace World

/-- The storage that an owner has, if it has any. -/
def storage? (w : World) : Owner → Option Growable
  | .vec id =>
    match (w.vec id).holding with
    | .owned a => some a
    | _ => none
  | .array id => w.arrays[id]?

/-- The buffer exists and is nobody's storage. -/
structure Foreign (w : World) (buffer : Nat) : Prop where
  lt : buffer < w.memory.buffers.size
  ne : ∀ o a, w.storage? o = some a → a.buffer ≠ buffer

/-- The ranges that are lent out. -/
inductive Lends (w : World) : ByteRange → Prop where
  | held (id : Nat) (r : ByteRange) (h : (w.region id).held = some r) : Lends w r
  | source (id : Nat) (h : id < w.readers.size) : Lends w (w.reader id).source
  | stored (id : Nat) (files : List (Text × ByteRange)) (path : Text) (r : ByteRange)
      (hs : w.store id = .memory files) (h : Store.find? files path = some r) : Lends w r
  | borrowed (id : Nat) (view : View) (region : Nat)
      (h : (w.vec id).holding = .borrowed view region) : Lends w view.range

/-- Bytes that exist, are nobody's storage, and are plain. -/
structure Outside (w : World) (r : ByteRange) : Prop where
  foreign : w.Foreign r.buffer
  covers : w.memory.Covers r
  plain : r.shares = false

/-- Storage is never shared: not among owners, and not with anything that is lent out. -/
structure Exclusive (w : World) : Prop where
  stored : ∀ o a, w.storage? o = some a → a.buffer < w.memory.buffers.size
  apart : ∀ o o' a a', w.storage? o = some a → w.storage? o' = some a' →
    a.buffer = a'.buffer → o = o'
  lent : ∀ r, w.Lends r → w.Foreign r.buffer
  plain : ∀ r, w.Lends r → r.shares = false

/-- Storage fits its buffer, a vector's storage has the vector's kind, and what is lent exists. -/
structure InBounds (w : World) : Prop where
  fits : ∀ o a, w.storage? o = some a → a.Fits w.memory
  kind_eq : ∀ id a, w.storage? (.vec id) = some a → a.kind = (w.vec id).kind
  covers : ∀ r, w.Lends r → w.memory.Covers r

/-- What every step keeps, whoever takes it. -/
structure Advances (w w' : World) : Prop where
  grows : w.memory.Grows w'.memory
  foreign : ∀ b, w.Foreign b → w'.Foreign b
  exclusive : w.Exclusive → w'.Exclusive
  inBounds : w.Exclusive → w.InBounds → w'.memory.Addressable → w'.InBounds

variable {w w' w'' : World}

theorem Advances.refl (w : World) : w.Advances w where
  grows := Memory.Grows.refl _
  foreign := fun _ h => h
  exclusive := id
  inBounds := fun _ h _ => h

theorem Advances.trans (h : w.Advances w') (h' : w'.Advances w'') : w.Advances w'' where
  grows := h.grows.trans h'.grows
  foreign := fun b hb => h'.foreign b (h.foreign b hb)
  exclusive := fun he => h'.exclusive (h.exclusive he)
  inBounds := fun he hi ha =>
    h'.inBounds (h.exclusive he) (h.inBounds he hi (ha.of_grows h'.grows)) ha

/-- No owner gains storage, and what is newly lent lies outside it. -/
theorem Advances.of_lose (hg : w.memory.Grows w'.memory)
    (hs : ∀ o a, w'.storage? o = some a → w.storage? o = some a)
    (hk : ∀ id a, w'.storage? (.vec id) = some a → (w'.vec id).kind = (w.vec id).kind)
    (hl : ∀ r, w'.Lends r → w.Lends r ∨ w'.Outside r) :
    w.Advances w' where
  grows := hg
  foreign := by
    intro b hb
    exact ⟨hb.lt.trans_le hg.size_le, fun o a ha => hb.ne o a (hs o a ha)⟩
  exclusive := by
    intro he
    refine ⟨fun o a ha => (he.stored o a (hs o a ha)).trans_le hg.size_le,
      fun o o' a a' ha ha' => he.apart o o' a a' (hs o a ha) (hs o' a' ha'), fun r hr => ?_,
      fun r hr => (hl r hr).elim (he.plain r) Outside.plain⟩
    rcases hl r hr with hold | hnew
    · have hf := he.lent r hold
      exact ⟨hf.lt.trans_le hg.size_le, fun o a ha => hf.ne o a (hs o a ha)⟩
    · exact hnew.foreign
  inBounds := by
    intro he hi _
    refine ⟨fun o a ha => ?_, fun id a ha => ?_, fun r hr => ?_⟩
    · exact (hi.fits o a (hs o a ha)).of_grows hg (he.stored o a (hs o a ha))
    · rw [hk id a ha]
      exact hi.kind_eq id a (hs _ a ha)
    · rcases hl r hr with hold | hnew
      · exact (hi.covers r hold).of_grows hg
      · exact hnew.covers

/-- Storage that an owner may get, in memory that has changed for it: it lies where the owner's storage has
been or in a new buffer, and no other buffer is written. -/
structure Renews (w : World) (o : Owner) (m : Memory) (a : Growable) : Prop where
  grows : w.memory.Grows m
  frame : w.memory.Frame (fun b => ∃ c, w.storage? o = some c ∧ c.buffer = b) m
  buffer_cases : (∃ c, w.storage? o = some c ∧ a.buffer = c.buffer) ∨
    w.memory.buffers.size ≤ a.buffer
  buffer_lt : w.Exclusive → a.buffer < m.buffers.size
  fits : m.Addressable → w.InBounds → a.Fits m
  kind_eq : w.InBounds → ∀ id, o = .vec id → id < w.vecs.size → a.kind = (w.vec id).kind

/-- An owner gets the storage that is meant for it, and nothing else changes hands. -/
structure Places (w w' : World) (o : Owner) (a : Growable) : Prop where
  renews : w.Renews o w'.memory a
  others : ∀ o' b, w'.storage? o' = some b → o' = o ∧ b = a ∨ o' ≠ o ∧ w.storage? o' = some b
  lends : ∀ r, w'.Lends r → w.Lends r
  kind_eq : w.InBounds → ∀ id b, w'.storage? (.vec id) = some b → b.kind = (w'.vec id).kind

/-- An owner's new storage is not where anything else has been. -/
theorem Renews.ne_buffer {o : Owner} {m : Memory} {a : Growable} (h : w.Renews o m a) {b : Nat}
    (hb : b < w.memory.buffers.size) (hne : ∀ c, w.storage? o = some c → c.buffer ≠ b) :
    a.buffer ≠ b := by
  rcases h.buffer_cases with ⟨c, hc, he⟩ | hge
  · rw [he]
    exact hne c hc
  · omega

theorem Places.foreign {o : Owner} {a : Growable} (h : w.Places w' o a) {b : Nat}
    (hb : w.Foreign b) : w'.Foreign b := by
  refine ⟨hb.lt.trans_le h.renews.grows.size_le, fun o' c hc => ?_⟩
  rcases h.others o' c hc with ⟨rfl, rfl⟩ | ⟨-, hold⟩
  · exact h.renews.ne_buffer hb.lt fun c hc => hb.ne _ c hc
  · exact hb.ne o' c hold

theorem Places.exclusive {o : Owner} {a : Growable} (h : w.Places w' o a) (he : w.Exclusive) :
    w'.Exclusive := by
  have hapart : ∀ o' c, o' ≠ o → w.storage? o' = some c → a.buffer ≠ c.buffer := by
    intro o' c hne hc
    refine h.renews.ne_buffer (he.stored o' c hc) fun d hd heq => ?_
    exact hne (he.apart o' o c d hc hd heq.symm)
  refine ⟨fun o' c hc => ?_, fun o₁ o₂ c₁ c₂ h₁ h₂ heq => ?_, fun r hr => ?_,
    fun r hr => he.plain r (h.lends r hr)⟩
  · rcases h.others o' c hc with ⟨-, rfl⟩ | ⟨-, hold⟩
    · exact h.renews.buffer_lt he
    · exact (he.stored o' c hold).trans_le h.renews.grows.size_le
  · rcases h.others o₁ c₁ h₁ with ⟨rfl, rfl⟩ | ⟨hne₁, hold₁⟩
    · rcases h.others o₂ c₂ h₂ with ⟨rfl, -⟩ | ⟨hne₂, hold₂⟩
      · rfl
      · exact absurd heq (hapart o₂ c₂ hne₂ hold₂)
    · rcases h.others o₂ c₂ h₂ with ⟨rfl, rfl⟩ | ⟨-, hold₂⟩
      · exact absurd heq.symm (hapart o₁ c₁ hne₁ hold₁)
      · exact he.apart o₁ o₂ c₁ c₂ hold₁ hold₂ heq
  · exact h.foreign (he.lent r (h.lends r hr))

theorem Places.inBounds {o : Owner} {a : Growable} (h : w.Places w' o a) (he : w.Exclusive)
    (hi : w.InBounds) (hm : w'.memory.Addressable) : w'.InBounds := by
  refine ⟨fun o' c hc => ?_, fun id c hc => ?_, fun r hr => ?_⟩
  · rcases h.others o' c hc with ⟨-, rfl⟩ | ⟨-, hold⟩
    · exact h.renews.fits hm hi
    · exact (hi.fits o' c hold).of_grows h.renews.grows (he.stored o' c hold)
  · exact h.kind_eq hi id c hc
  · exact (hi.covers r (h.lends r hr)).of_grows h.renews.grows

theorem Places.advances {o : Owner} {a : Growable} (h : w.Places w' o a) : w.Advances w' where
  grows := h.renews.grows
  foreign := fun _ hb => h.foreign hb
  exclusive := h.exclusive
  inBounds := h.inBounds

/-- Two owners exchange their storage. -/
structure Exchanges (w w' : World) (o p : Owner) : Prop where
  memory_eq : w'.memory = w.memory
  ne : o ≠ p
  first : ∀ a, w'.storage? o = some a → w.storage? p = some a
  second : ∀ a, w'.storage? p = some a → w.storage? o = some a
  others : ∀ q a, q ≠ o → q ≠ p → w'.storage? q = some a → w.storage? q = some a
  lends : ∀ r, w'.Lends r → w.Lends r
  kind_eq : ∀ id a, w.InBounds → w'.storage? (.vec id) = some a → a.kind = (w'.vec id).kind

/-- Whose storage it was before the exchange. -/
theorem Exchanges.storage?_eq {o p : Owner} (h : w.Exchanges w' o p) {q : Owner} {a : Growable}
    (ha : w'.storage? q = some a) :
    w.storage? (if q = o then p else if q = p then o else q) = some a := by
  split_ifs with h₁ h₂
  · subst h₁
    exact h.first a ha
  · subst h₂
    exact h.second a ha
  · exact h.others q a h₁ h₂ ha

theorem Exchanges.foreign {o p : Owner} (h : w.Exchanges w' o p) {b : Nat} (hb : w.Foreign b) :
    w'.Foreign b := by
  refine ⟨?_, fun q a ha => hb.ne _ a (h.storage?_eq ha)⟩
  rw [h.memory_eq]
  exact hb.lt

theorem Exchanges.advances {o p : Owner} (h : w.Exchanges w' o p) : w.Advances w' where
  grows := by
    rw [h.memory_eq]
    exact Memory.Grows.refl _
  foreign := fun _ hb => h.foreign hb
  exclusive := by
    intro he
    refine ⟨fun q a ha => ?_, fun q q' a a' ha ha' heq => ?_, fun r hr => ?_,
      fun r hr => he.plain r (h.lends r hr)⟩
    · rw [h.memory_eq]
      exact he.stored _ a (h.storage?_eq ha)
    · have hsame := he.apart _ _ a a' (h.storage?_eq ha) (h.storage?_eq ha') heq
      have hne := h.ne
      split_ifs at hsame <;> simp_all
    · exact h.foreign (he.lent r (h.lends r hr))
  inBounds := by
    intro he hi _
    refine ⟨fun q a ha => ?_, fun id a ha => h.kind_eq id a hi ha, fun r hr => ?_⟩
    · rw [h.memory_eq]
      exact hi.fits _ a (h.storage?_eq ha)
    · rw [h.memory_eq]
      exact hi.covers r (h.lends r hr)

end World

end LeaseVec
