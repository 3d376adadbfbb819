import LeaseVec.Proofs.Lists.Plain
import LeaseVec.Proofs.Growable.Contents
import LeaseVec.Proofs.Ownership.Isolation

/-!
# When a world represents lists

A vector represents a list when its elements, wherever they lie, are the values of the list. A walk that has
begun looks at a view, which has to go on showing the values of its vector: it is empty, or it lies over
lent bytes, or over the storage that the vector still has. The answers to questions about a vector follow
from its list.
-/

namespace LeaseVec

open Number Number.Binary64

namespace World

variable {w w' : World} {s : Plain}

/-- A vector with the elements of a list. A view that it borrows is of its own kind. -/
structure IsVec (w : World) (v : Vec) (p : PlainVec) : Prop where
  kind : v.kind = p.kind
  checked : v.checked = p.checked
  mode : v.mode = p.mode
  items : w.elements v = .ok p.items
  borrowed : ∀ view region, v.holding = .borrowed view region → view.kind = v.kind

structure IsArray (w : World) (a : Growable) (p : PlainArray) : Prop where
  kind : a.kind = p.kind
  items : a.toList w.memory = p.items

/-- The bytes under a view that only its vector can change: none, lent ones, or the vector's storage. -/
def Settled (w : World) (vec : Nat) (view : View) : Prop :=
  view.length = 0 ∨ w.Foreign view.buffer ∨
    ∃ a, w.storage? (.vec vec) = some a ∧ a.buffer = view.buffer

/-- A walk that does to the elements what the plain walk does to the list. -/
def IsWalk (w : World) (s : Plain) : Iteration → PlainWalk → Prop
  | .fresh vec, .fresh vec' => vec = vec'
  | .running vec view position, .running vec' position' =>
    vec = vec' ∧ position = position' ∧ vec < w.vecs.size ∧
      w.memory.elements view = (s.vec vec).items ∧ w.Settled vec view
  | .running vec _ _, .stale vec' => vec = vec'
  | .finished vec, .finished vec' => vec = vec'
  | _, _ => False

/-- The vectors, arrays and walks of a world do what the plain ones do. -/
structure Represents (w : World) (s : Plain) : Prop where
  vecCount : w.vecs.size = s.vecCount
  vec : ∀ id, w.IsVec (w.vec id) (s.vec id)
  arrayCount : w.arrays.size = s.arrayCount
  array : ∀ id, w.IsArray (w.array id) (s.array id)
  walkCount : w.iterations.size = s.walkCount
  walk : ∀ id, w.IsWalk s (w.iteration id) (s.walk id)

theorem IsWalk.vec_eq {i : Iteration} {p : PlainWalk} (h : w.IsWalk s i p) : i.vec = p.vec := by
  cases i with
  | fresh vec => cases p <;> simp_all [IsWalk, Iteration.vec, PlainWalk.vec]
  | running vec view position => cases p <;> simp_all [IsWalk, Iteration.vec, PlainWalk.vec]
  | finished vec => cases p <;> simp_all [IsWalk, Iteration.vec, PlainWalk.vec]

/-- The view of a vector's elements shows its list. -/
theorem IsVec.viewOf {id : Nat} {p : PlainVec} (h : w.IsVec (w.vec id) p) (hi : w.InBounds) :
    ∃ view, w.viewOf (w.vec id) = .ok view ∧ w.memory.elements view = p.items ∧
      view.kind = p.kind ∧ view.length = p.items.length ∧ (w.vec id).size = view.length := by
  have hitems := h.items
  unfold elements at hitems
  cases hv : w.viewOf (w.vec id) with
  | error e =>
    rw [hv] at hitems
    cases hitems
  | ok view =>
    rw [hv] at hitems
    have hshow : w.memory.elements view = p.items := Except.ok.inj hitems
    have hlen : view.length = p.items.length := by rw [← hshow, Memory.length_elements]
    refine ⟨view, rfl, hshow, ?_, hlen, ?_⟩
    · rw [← h.kind]
      unfold World.viewOf at hv
      cases hh : (w.vec id).holding with
      | empty =>
        simp only [hh, Except.ok.injEq] at hv
        rw [← hv]
      | owned a =>
        simp only [hh, Except.ok.injEq] at hv
        rw [← hv]
        exact hi.kind_eq id a (storage?_vec_of_owned hh)
      | borrowed v region =>
        simp only [hh] at hv
        split_ifs at hv
        cases hv
        exact h.borrowed view region hh
    · unfold World.viewOf at hv
      unfold Vec.size
      cases hh : (w.vec id).holding with
      | empty =>
        simp only [hh, Except.ok.injEq] at hv
        rw [← hv]
      | owned a =>
        simp only [hh, Except.ok.injEq] at hv
        rw [← hv]
        rfl
      | borrowed v region =>
        simp only [hh] at hv
        split_ifs at hv
        cases hv
        rfl

theorem IsVec.size_eq {id : Nat} {p : PlainVec} (h : w.IsVec (w.vec id) p) (hi : w.InBounds) :
    (w.vec id).size = p.items.length := by
  obtain ⟨view, -, -, -, hlen, hsize⟩ := h.viewOf hi
  rw [hsize, hlen]

/-- An index is accepted when it is a position of the list. -/
theorem acceptIndex_eq {items : List Scalar} (p : PlainVec) (hp : p.items = items)
    (index : Binary64) :
    acceptIndex index items.length =
      match p.find? index, index.toNat? with
      | some _, some i => .ok i
      | _, _ => .error (.outOfRange index items.length) := by
  unfold acceptIndex PlainVec.find?
  cases hn : index.toNat? with
  | none => rfl
  | some i =>
    simp only [Option.bind_some, hp]
    by_cases hi : i < items.length
    · rw [if_pos hi, List.getElem?_eq_getElem hi]
    · rw [if_neg hi, List.getElem?_eq_none (by omega)]

theorem IsVec.at? {id : Nat} {p : PlainVec} (h : w.IsVec (w.vec id) p) (hi : w.InBounds)
    (index : Binary64) : w.at? (w.vec id) index = p.at? index := by
  obtain ⟨view, hv, hshow, -, hlen, -⟩ := h.viewOf hi
  have hfind : w.memory.element? view index = p.find? index := by
    rw [Memory.element?_eq, hshow]
    rfl
  unfold World.at? PlainVec.at?
  rw [hv]
  change (acceptIndex index view.length >>= fun _ => Except.ok (w.memory.element? view index)) = _
  rw [hlen, acceptIndex_eq p rfl index, hfind]
  cases hp : p.find? index with
  | none => rfl
  | some x =>
    cases hn : index.toNat? with
    | none => simp [PlainVec.find?, hn] at hp
    | some i => rfl

theorem IsVec.get? {id : Nat} {p : PlainVec} (h : w.IsVec (w.vec id) p) (hi : w.InBounds)
    (index : Binary64) : w.get? (w.vec id) index = p.get? index := by
  obtain ⟨view, hv, hshow, -, hlen, -⟩ := h.viewOf hi
  have hat := h.at? hi index
  unfold World.at? at hat
  unfold World.get? PlainVec.get?
  rw [hv] at hat ⊢
  rw [← h.checked]
  cases hc : (w.vec id).checked with
  | true =>
    rw [if_pos rfl, ← hat]
    rfl
  | false =>
    rw [if_neg (by simp)]
    change Except.ok (w.memory.element? view index) = _
    rw [Memory.element?_eq, hshow]
    rfl

theorem find?_natCast {p : PlainVec} {index : Binary64} {i : Nat} (h : Whole index i) :
    p.find? index = p.items[i]? := by
  unfold PlainVec.find?
  rw [h.toNat?]
  rfl

theorem IsVec.front? {id : Nat} {p : PlainVec} (h : w.IsVec (w.vec id) p) (hi : w.InBounds) :
    w.front? (w.vec id) = p.front? := by
  unfold World.front?
  rw [h.at? hi]
  have hfind : p.find? 0 = p.items[0]? := find?_natCast (whole_ofNat (by decide))
  unfold PlainVec.at? PlainVec.front?
  rw [hfind]
  cases hl : p.items with
  | nil => rfl
  | cons x rest => rfl

theorem IsVec.whole_count {id : Nat} {p : PlainVec} (h : w.IsVec (w.vec id) p) (hi : w.InBounds)
    (hm : w.memory.Addressable) :
    Whole (w.vec id).count p.items.length ∧ p.items.length ≤ exactBound := by
  have hsize := h.size_eq hi
  unfold Vec.count
  cases hh : (w.vec id).holding with
  | empty =>
    simp only [Vec.size, hh] at hsize ⊢
    rw [← hsize]
    exact ⟨whole_ofNat (by decide), by decide⟩
  | owned a =>
    simp only [Vec.size, hh] at hsize ⊢
    rw [← hsize]
    have ha := hi.fits _ a (storage?_vec_of_owned hh)
    exact ⟨ha.whole_size hm, ha.length_le.trans (ha.capacity_lt hm).le⟩
  | borrowed view region =>
    simp only [Vec.size, hh] at hsize ⊢
    rw [← hsize]
    have hc := (hi.covers _ (.borrowed id view region hh)).end_le
    have hlt := hm view.buffer
    have hle : view.length ≤ view.byteLength := Nat.le_mul_of_pos_right _ view.kind.width_pos
    change view.offset + view.byteLength ≤ (w.memory.buffer view.buffer).length at hc
    exact ⟨whole_ofNat (by omega), by omega⟩

/-- The last element is at the size less one, which is no index when there are no elements. -/
theorem IsVec.back? {id : Nat} {p : PlainVec} (h : w.IsVec (w.vec id) p) (hi : w.InBounds)
    (hm : w.memory.Addressable) : w.back? (w.vec id) = p.back? := by
  obtain ⟨hcount, hbound⟩ := h.whole_count hi hm
  unfold World.back?
  rw [h.at? hi]
  unfold PlainVec.back? PlainVec.at?
  cases hl : p.items with
  | nil =>
    rw [hl] at hcount
    have hzero : Whole 0 0 := whole_ofNat (by decide)
    have hfind : p.find? ((w.vec id).count - 1) = none := by
      unfold PlainVec.find?
      rw [Whole.sub_one hcount, toNat?_minus_one]
      rfl
    rw [hfind, Whole.sub_one hcount, Whole.sub_one hzero]
    rfl
  | cons x rest =>
    have hlen : p.items.length = rest.length + 1 := by rw [hl, List.length_cons]
    have hone : Whole 1 1 := whole_ofNat (by decide)
    have hindex : Whole ((w.vec id).count - 1) (p.items.length - 1) :=
      hcount.sub hone (by omega) (by omega)
    rw [find?_natCast hindex, ← List.getLast?_eq_getElem?, hl]
    cases hlast : (x :: rest).getLast? with
    | none => simp at hlast
    | some y => rfl

end World

end LeaseVec
