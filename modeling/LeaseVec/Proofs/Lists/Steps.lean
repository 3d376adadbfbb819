import LeaseVec.Proofs.Lists.Preserved

/-!
# One step on worlds and on lists

What can be seen of the outcome of a command is compared with the outcome of the plain step. A step of a
vector is put together from two parts: the storage that the vector gets, and the list that this storage
holds.
-/

namespace LeaseVec

open Number

/-- What a reply shows. A view shows its elements. Whether elements have moved to a new buffer is nothing
that lists know about. -/
def Reply.seen (m : Memory) : Reply → Reply
  | view v => elements v.kind (m.elements v)
  | truth _ => done
  | reply => reply

namespace World

variable {w w' : World} {s s' : Plain} {c : Command}

/-- The outcome of a command, seen in the world after it. -/
def watch (w : World) (c : Command) : Except Fault Reply :=
  (w.perform c).1.map (Reply.seen (w.perform c).2.memory)

/-- Whether the host grants the room that a command asks for. -/
def grants (w : World) (c : Command) : Bool :=
  match (w.perform c).1 with
  | .error .allocationRefused => false
  | _ => true

/-- A command does to a world what it does to the lists, and only a large request is refused. -/
structure Refines (w : World) (s : Plain) (c : Command) : Prop where
  answer : w.watch c = (s.step w.memory.elements (w.grants c) c).1
  represents : (w.perform c).2.Represents (s.step w.memory.elements (w.grants c) c).2
  large : w.grants c = false → s.Large w.memory.limit c

theorem refines_ok {reply : Reply} (hp : w.perform c = (.ok reply, w'))
    (hs : s.step w.memory.elements true c = (.ok (reply.seen w'.memory), s'))
    (hr : w'.Represents s') : w.Refines s c := by
  have hg : w.grants c = true := by
    unfold grants
    rw [hp]
  refine ⟨?_, ?_, fun hf => ?_⟩
  · rw [hg, hs]
    unfold watch
    rw [hp]
    rfl
  · rw [hg, hs, hp]
    exact hr
  · rw [hg] at hf
    cases hf

/-- A command that fails for another reason than want of room fails on the lists likewise. -/
theorem refines_error {e : Fault} (hp : w.perform c = (.error e, w'))
    (he : e ≠ .allocationRefused) (hs : s.step w.memory.elements true c = (.error e, s'))
    (hr : w'.Represents s') : w.Refines s c := by
  have hg : w.grants c = true := by
    unfold grants
    rw [hp]
    cases e <;> first | rfl | exact absurd rfl he
  refine ⟨?_, ?_, fun hf => ?_⟩
  · rw [hg, hs]
    unfold watch
    rw [hp]
    rfl
  · rw [hg, hs, hp]
    exact hr
  · rw [hg] at hf
    cases hf

theorem refines_refused (hp : w.perform c = (.error .allocationRefused, w'))
    (hl : s.Large w.memory.limit c)
    (hs : s.step w.memory.elements false c = (.error .allocationRefused, s'))
    (hr : w'.Represents s') : w.Refines s c := by
  have hg : w.grants c = false := by
    unfold grants
    rw [hp]
  refine ⟨?_, ?_, fun _ => hl⟩
  · rw [hg, hs]
    unfold watch
    rw [hp]
    rfl
  · rw [hg, hs, hp]
    exact hr

theorem isVec_owned {v : Vec} {a : Growable} {p : PlainVec} (hv : v.holding = .owned a)
    (hk : v.kind = p.kind) (hc : v.checked = p.checked) (hm : p.mode = .owned)
    (hi : a.toList w.memory = p.items) : w.IsVec v p where
  kind := hk
  checked := hc
  mode := (Vec.mode_eq_owned.2 ⟨a, hv⟩).trans hm.symm
  items := by rw [elements_eq_of_owned hv, hi]
  borrowed := by
    intro view region h
    rw [hv] at h
    cases h

/-- Storage for a vector, in memory that has changed for it, with the elements of a list. -/
structure Stores (w : World) (id : Nat) (p : PlainVec) (items : List Scalar) (m : Memory)
    (a : Growable) : Prop where
  renews : w.Renews (.vec id) m a
  kind : a.kind = p.kind
  items : a.toList m = items

variable {id : Nat} {items : List Scalar} {m m' : Memory} {a a' : Growable}

theorem Stores.update {p : PlainVec} (h : w.Stores id p items m a)
    (hu : Growable.Updates m a m' a') {items' : List Scalar} (hi : a'.toList m' = items') :
    w.Stores id p items' m' a' where
  renews := h.renews.update hu
  kind := hu.kind_eq.trans h.kind
  items := hi

/-- A vector can always be taken to owned storage that holds its list. -/
theorem IsVec.own_ok {p : PlainVec} (h : w.IsVec (w.vec id) p) (hi : w.InBounds) :
    ∃ a m q, own id w = .ok a (w.withOwned id a m q) ∧ w.Stores id p p.items m a := by
  have hitems := h.items
  have hfresh : ∀ words, w.Renews (.vec id)
      (Growable.ofWords w.memory (w.vec id).kind words).2
      (Growable.ofWords w.memory (w.vec id).kind words).1 := by
    intro words
    refine Renews.fresh (Growable.fresh_ofWords ..) fun j hj _ => ?_
    cases hj
    rfl
  cases hh : (w.vec id).holding with
  | empty =>
    rw [elements_eq_of_empty hh] at hitems
    exact ⟨_, _, _, own_of_empty hh, hfresh [], h.kind, Except.ok.inj hitems⟩
  | owned a =>
    rw [elements_eq_of_owned hh] at hitems
    refine ⟨a, w.memory, w.promotions, ?_, ?_, ?_, Except.ok.inj hitems⟩
    · rw [withOwned_self hh]
      exact own_of_owned hh
    · exact Renews.refl (storage?_vec_of_owned hh)
    · exact (hi.kind_eq id a (storage?_vec_of_owned hh)).trans h.kind
  | borrowed view region =>
    rw [elements_eq_of_borrowed hh] at hitems
    split_ifs at hitems with ho
    have hkind := h.borrowed view region hh
    obtain ⟨q, hq⟩ := own_of_borrowed hh ho (hkind ▸ Kind.sameSort_self view.kind)
    refine ⟨_, _, q, hq, hfresh _, h.kind, ?_⟩
    rw [Growable.toList_ofView, ← Except.ok.inj hitems]
    -- a view of the vector's own kind shows values that elements of that kind hold
    refine (List.map_congr_left fun x hx => ?_).trans (List.map_id _)
    obtain ⟨n, hn, rfl⟩ := List.mem_map.1 hx
    rw [← hkind]
    exact Kind.held_load view.kind (Word.split_lt hn)

/-- A vector that gets storage is the only owner touched. -/
theorem Renews.spares (h : w.Renews (.vec id) m a) (he : w.Exclusive) (q : Array Promotion) :
    w.Spares (w.withOwned id a m q) (· = .vec id) :=
  (h.places_vec q).spares he rfl (size_vecs_withOwned ..).ge
    (fun j hj => vec_withOwned_of_ne a m q fun heq => hj (by rw [heq])) fun _ _ => rfl

/-- When a vector has got storage, its list is what the storage holds, and it owns it. -/
theorem Represents.withOwned (h : w.Represents s) (he : w.Exclusive) (hid : id < w.vecs.size)
    (hs : w.Stores id (s.vec id) items m a) (q : Array Promotion) :
    (w.withOwned id a m q).Represents (s.changeVec id ((s.vec id).own items)) := by
  refine h.changeVec he (hs.renews.spares he q) (size_vecs_withOwned ..) rfl rfl ?_
  rw [vec_withOwned_self a m q hid]
  exact isVec_owned rfl (h.vec id).kind (h.vec id).checked rfl hs.items

end World

end LeaseVec
