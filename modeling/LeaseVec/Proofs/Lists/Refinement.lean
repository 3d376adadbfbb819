import LeaseVec.Proofs.Lists.Vectors
import LeaseVec.Proofs.Lists.Arrays

/-!
# Vectors and arrays refine lists

Any world that a lawful history reaches can be read as lists. From there on every sequence of vector and
array commands is followed by the lists: each answer and each failure is the one that the lists give, and
the vectors, arrays and walks go on representing them. The module does not cover writes from outside, the
end of a region, or a walk that goes on after its vector has been changed.
-/

namespace LeaseVec

/-- The scalars that elements are set to; without a fill value that is the zero of the kind. -/
def VecCommand.values (kind : Kind) : VecCommand → List Scalar
  | set _ value | push value => [value]
  | resize _ fill => [fill.getD kind.zero]
  | _ => []

def ArrayCommand.values : ArrayCommand → List Scalar
  | push value | resize _ value => [value]
  | _ => []

end LeaseVec

namespace LeaseVec.World

open Number Number.Binary64

variable {w w' : World} {s : Plain} {c : Command}

/-- The commands that lists answer. Elements are set to scalars of their own sort, a view that is attached is
of the vector's own kind and from a region that is open, and a walk goes on only while its vector has not
been changed. -/
def Permits (w : World) (s : Plain) : Command → Prop
  | .newVec _ _ => True
  | .vecOfList kind values _ => values.all kind.admits = true
  | .vecOfView kind view _ => view.kind.sameSort kind = true
  | .array id c => c.values.all (w.array id).kind.admits = true
  | .vec id (.attach view region) => w.isOpen region = true ∧ view.kind = (w.vec id).kind
  | .vec _ (.isView _) => False
  | .vec id c => (c.values (w.vec id).kind).all (w.vec id).kind.admits = true
  | .next walk => walk < w.iterations.size ∧ (s.walk walk).vec < w.vecs.size ∧
      ∀ vec, s.walk walk ≠ .stale vec
  | _ => False

/-- Commands that are lawful and permitted, each where it is carried out. -/
def PermitsAll (w : World) (s : Plain) : List Command → Prop
  | [] => True
  | c :: rest => c.Lawful w ∧ w.Permits s c ∧
      (w.perform c).2.PermitsAll (s.step w.memory.elements (w.grants c) c).2 rest

/-- What can be read off a world is what the lists say. -/
structure Agrees (w : World) (s : Plain) : Prop where
  represents : w.Represents s
  size : ∀ id, (w.vec id).size = (s.vec id).items.length
  count : ∀ id, Whole (w.vec id).count (s.vec id).items.length

/-- The lists follow the world through commands. -/
def Follows (w : World) (s : Plain) : List Command → Prop
  | [] => w.Agrees s
  | c :: rest => w.Agrees s ∧
      w.watch c = (s.step w.memory.elements (w.grants c) c).1 ∧
      (w.grants c = false → s.Large w.memory.limit c) ∧
      (w.perform c).2.Follows (s.step w.memory.elements (w.grants c) c).2 rest

theorem admits_of_all {kind : Kind} {x : Scalar} (h : [x].all kind.admits = true) :
    kind.admits x = true := List.all_eq_true.1 h x (List.mem_singleton_self x)

theorem refines_vec (h : w.Represents s) (he : w.Exclusive) (hi : w.InBounds) {id : Nat}
    {c : VecCommand} (hid : id < w.vecs.size) (hl : c.Lawful w) (hp : w.Permits s (.vec id c))
    (hm : (w.perform (.vec id c)).2.memory.Addressable) (hm₀ : w.memory.Addressable) :
    w.Refines s (.vec id c) := by
  cases c with
  | attach view region => exact refines_attach h he hid hp.1 hl hp.2
  | item index =>
    exact refines_ask h rfl ((h.vec id).at? hi index) (at?_ne_refused _ _) rfl
  | unchecked index =>
    exact refines_ask h rfl ((h.vec id).get? hi index) (get?_ne_refused _ _) rfl
  | front => exact refines_ask h rfl ((h.vec id).front? hi) (front?_ne_refused _) rfl
  | back => exact refines_ask h rfl ((h.vec id).back? hi hm₀) (back?_ne_refused _) rfl
  | toList => exact refines_toList h
  | share => exact refines_share h he hi
  | isView view => exact hp.elim
  | writable => exact refines_writable h he hi hid
  | set index value => exact refines_set h he hi hid index (admits_of_all hp) hm
  | push value => exact refines_push h he hi hid (admits_of_all hp) hm
  | pop => exact refines_pop h he hi hid hm
  | resize length fill => exact refines_resize h he hi hid length (admits_of_all hp) hm
  | swap array => exact refines_swap h he hi hid hl
  | clear => exact refines_clear h he hid
  | iterate => exact refines_iterate h he

theorem refines_array (h : w.Represents s) (he : w.Exclusive) (hi : w.InBounds) {id : Nat}
    {c : ArrayCommand} (hid : id < w.arrays.size) (hl : c.Lawful w) (hp : w.Permits s (.array id c))
    (hm : w.memory.Addressable) : w.Refines s (.array id c) := by
  cases c with
  | reserve extra => exact refines_reserve h he hi hm hid extra
  | push value => exact refines_pushArray h he hi hm hid (admits_of_all hp)
  | pop => exact refines_popArray h he hi hid
  | resize length fill => exact refines_resizeArray h he hi hm hid length (admits_of_all hp)
  | share => exact refines_shareArray h he
  | clear => exact refines_clearArray h he hid
  | release => exact refines_release h he hid
  | swap other => exact refines_swapArrays h he hid hl

theorem refines_perform (h : w.Represents s) (he : w.Exclusive) (hi : w.InBounds)
    (hl : c.Lawful w) (hp : w.Permits s c) (hm : (w.perform c).2.memory.Addressable) :
    w.Refines s c := by
  have hm₀ : w.memory.Addressable := hm.of_grows (advances_perform he hl).grows
  cases c with
  | newVec kind checked => exact refines_newVec h he kind checked
  | vecOfList kind values checked => exact refines_vecOfList h he hp checked
  | vecOfView kind view checked => exact refines_vecOfView h he hp checked
  | vec id c => exact refines_vec h he hi hl.1 hl.2 hp hm hm₀
  | array id c => exact refines_array h he hi hl.1 hl.2 hp hm₀
  | next walk =>
    exact refines_next h he hi (h.walkCount ▸ hp.1) (h.vecCount ▸ hp.2.1) hp.2.2
  | _ => exact hp.elim

theorem PermitsAll.lawfulAll {commands : List Command} (h : w.PermitsAll s commands) :
    w.LawfulAll commands := by
  induction commands generalizing w s with
  | nil => trivial
  | cons c rest ih => exact ⟨h.1, ih h.2.2⟩

theorem Represents.agrees (h : w.Represents s) (hi : w.InBounds) (hm : w.memory.Addressable) :
    w.Agrees s :=
  ⟨h, fun id => (h.vec id).size_eq hi, fun id => ((h.vec id).whole_count hi hm).1⟩

theorem Represents.follows {commands : List Command} (h : w.Represents s) (he : w.Exclusive)
    (hi : w.InBounds) (hp : w.PermitsAll s commands)
    (hm : (w.performAll commands).2.memory.Addressable) : w.Follows s commands := by
  induction commands generalizing w s with
  | nil => exact h.agrees hi hm
  | cons c rest ih =>
    have hadv := advances_perform he hp.1
    have hrest := advances_performAll (hadv.exclusive he) hp.2.2.lawfulAll
    have hm₁ : (w.perform c).2.memory.Addressable := hm.of_grows hrest.grows
    have hr := refines_perform h he hi hp.1 hp.2.1 hm₁
    refine ⟨h.agrees hi (hm₁.of_grows hadv.grows), hr.answer, hr.large, ?_⟩
    exact ih hr.represents (hadv.exclusive he) (hadv.inBounds he hi hm₁) hp.2.2 hm

/-- The lists of a world. A walk that has begun is not looked at. -/
def plain (w : World) : Plain where
  vecCount := w.vecs.size
  vec id :=
    ⟨(w.vec id).kind, (w.vec id).checked, (w.vec id).mode,
      match w.elements (w.vec id) with
      | .ok items => items
      | .error _ => []⟩
  arrayCount := w.arrays.size
  array id := ⟨(w.array id).kind, (w.array id).toList w.memory⟩
  walkCount := w.iterations.size
  walk id :=
    match w.iteration id with
    | .fresh vec => .fresh vec
    | .running vec _ _ => .stale vec
    | .finished vec => .finished vec

/-- Every vector that borrows borrows a view of its own kind from a region that is open. -/
def BorrowsStand (w : World) : Prop :=
  ∀ id view region, (w.vec id).holding = .borrowed view region →
    w.isOpen region = true ∧ view.kind = (w.vec id).kind

theorem BorrowsStand.represents (h : w.BorrowsStand) : w.Represents w.plain where
  vecCount := rfl
  vec := by
    intro id
    have hitems : ∃ items, w.elements (w.vec id) = .ok items := by
      cases hh : (w.vec id).holding with
      | empty => exact ⟨_, elements_eq_of_empty hh⟩
      | owned a => exact ⟨_, elements_eq_of_owned hh⟩
      | borrowed view region =>
        exact ⟨_, (elements_eq_of_borrowed hh).trans (if_pos (h id view region hh).1)⟩
    obtain ⟨items, hi⟩ := hitems
    refine ⟨rfl, rfl, rfl, ?_, fun view region hh => (h id view region hh).2⟩
    change _ = Except.ok (match w.elements (w.vec id) with
      | .ok items => items
      | .error _ => [])
    rw [hi]
  arrayCount := rfl
  array := fun _ => ⟨rfl, rfl⟩
  walkCount := rfl
  walk := by
    intro id
    change w.IsWalk w.plain (w.iteration id) (match w.iteration id with
      | .fresh vec => .fresh vec
      | .running vec _ _ => .stale vec
      | .finished vec => .finished vec)
    cases w.iteration id with
    | fresh vec => rfl
    | running vec view position => rfl
    | finished vec => rfl

/-- From every world that a lawful history reaches, and in which every borrow stands, the lists follow every
sequence of permitted commands. No buffer may reach `2 ^ 53` bytes, which is more than a buffer can have. -/
theorem follows_of_permitsAll {limit : AllocationLimit} {setup commands : List Command}
    (hl : (empty limit).LawfulAll setup) (hb : ((empty limit).performAll setup).2.BorrowsStand)
    (hp : ((empty limit).performAll setup).2.PermitsAll ((empty limit).performAll setup).2.plain commands)
    (hm : (((empty limit).performAll setup).2.performAll commands).2.memory.Addressable) :
    ((empty limit).performAll setup).2.Follows ((empty limit).performAll setup).2.plain commands := by
  have hadv := advances_performAll exclusive_empty hl
  have he := hadv.exclusive exclusive_empty
  have hm₀ := hm.of_grows (advances_performAll he hp.lawfulAll).grows
  exact hb.represents.follows he (hadv.inBounds exclusive_empty inBounds_empty hm₀) hp hm

/-- Four bytes that are lent, and a vector without elements. -/
def lentBytesAndVec : List Command :=
  [.alloc [1, 2, 3, 4], .lend ⟨0, 0, 4, false⟩ [], .newVec .u8 false]

/-- The vector borrows the bytes, is written to, and loses its last element again. -/
def borrowPushPop : List Command :=
  [.vec 0 (.attach ⟨.u8, 0, 0, 4, 0⟩ 0), .vec 0 (.push (.number 7)), .vec 0 .pop]

theorem follows_borrowPushPop :
    empty.LawfulAll lentBytesAndVec ∧ (empty.performAll lentBytesAndVec).2.BorrowsStand ∧
      (empty.performAll lentBytesAndVec).2.PermitsAll (empty.performAll lentBytesAndVec).2.plain
        borrowPushPop ∧
      ((empty.performAll lentBytesAndVec).2.performAll borrowPushPop).2.memory.Addressable ∧
      (empty.performAll lentBytesAndVec).2.Follows (empty.performAll lentBytesAndVec).2.plain
        borrowPushPop := by
  have hsource : (empty.perform (.alloc [1, 2, 3, 4])).2.Outside ⟨0, 0, 4, false⟩ := by
    exact outside_of_no_storage (fun o => by cases o <;> rfl) ⟨by decide, by decide⟩ rfl
  have hview : (empty.performAll lentBytesAndVec).2.Outside ⟨0, 0, 4, false⟩ := by
    refine outside_of_no_storage (fun o => ?_) ⟨by decide, by decide⟩ rfl
    cases o with
    | vec id => rcases id with _ | id <;> rfl
    | array id => rfl
  have hl : empty.LawfulAll lentBytesAndVec := by
    refine ⟨?_, ?_, ?_, trivial⟩
    · intro r hr
      cases hr
    · intro r hr
      obtain rfl := List.mem_singleton.1 hr
      exact hsource
    · intro r hr
      cases hr
  have hb : (empty.performAll lentBytesAndVec).2.BorrowsStand := by
    intro id view region hh
    exfalso
    rcases id with _ | id <;> cases hh
  have hp : (empty.performAll lentBytesAndVec).2.PermitsAll
      (empty.performAll lentBytesAndVec).2.plain borrowPushPop := by
    refine ⟨⟨?_, hview⟩, ⟨rfl, rfl⟩, ⟨?_, trivial⟩, rfl, ⟨?_, trivial⟩, rfl, trivial⟩
    · decide +kernel
    · decide +kernel
    · decide +kernel
  have hm : ((empty.performAll lentBytesAndVec).2.performAll borrowPushPop).2.memory.Addressable :=
    Memory.addressable_of_all (by decide +kernel)
  exact ⟨hl, hb, hp, hm, follows_of_permitsAll hl hb hp hm⟩

theorem perform_reserve {id : Nat} {extra : Binary64} {moved : Bool}
    (h : ((w.array id).reserve w.memory extra).toOption.map (·.1) = some moved) :
    (w.perform (.array id (.reserve extra))).1 = .ok (.truth moved) := by
  have hc : (Command.array id (.reserve extra)).run w =
      (reserve id extra >>= fun b => pure (Reply.truth b)) w := rfl
  cases hr : (w.array id).reserve w.memory extra with
  | error e =>
    rw [hr] at h
    cases h
  | ok r =>
    obtain ⟨taken, a, m⟩ := r
    rw [hr] at h
    cases h
    rw [perform_ok hc (reserveArray_ok hr)]

/-- The element that an outcome delivers. -/
def delivered? : Except Fault Reply → Option Scalar
  | .ok (.element _ x) => x
  | _ => none

/-- An array without elements or room. -/
def bareArray : World := (empty.performAll [.newArray .u8 0 none]).2

/-- An array without elements that has room for one. -/
def roomyArray : World := (bareArray.perform (.array 0 (.reserve 1))).2

/-- A vector of two elements without more room. -/
def tightPair : World :=
  (empty.performAll [.vecOfList .u8 [.number 1, .number 2] false]).2

/-- A vector of the same elements that once had another. -/
def widePair : World := (tightPair.performAll [.vec 0 (.push (.number 3)), .vec 0 .pop]).2

/-- A walk goes on after its vector has been changed. -/
def walkAcrossChange : List Command :=
  [.vec 0 .iterate, .next 0, .vec 0 (.push (.number 3)), .vec 0 (.set 1 (.number 9)), .next 0]

/-- Whether elements move depends on the room there is; room that the host does not have is refused, where
a list would be extended; and what a walk sees of a change depends on the room too. -/
theorem lists_do_not_tell :
    (bareArray.array 0).toList bareArray.memory = (roomyArray.array 0).toList roomyArray.memory ∧
      (bareArray.perform (.array 0 (.reserve 1))).1 = .ok (.truth true) ∧
      (roomyArray.perform (.array 0 (.reserve 1))).1 = .ok (.truth false) ∧
    bareArray.grants (.array 0 (.resize (ofNat (2 ^ 53)) (.number 0))) = false ∧
    (tightPair.elements (tightPair.vec 0)).toOption = some [.number 1, .number 2] ∧
      (widePair.elements (widePair.vec 0)).toOption = some [.number 1, .number 2] ∧
      (tightPair.performAll walkAcrossChange).1.map delivered? =
        [none, some (.number 1), none, none, some (.number 2)] ∧
      (widePair.performAll walkAcrossChange).1.map delivered? =
        [none, some (.number 1), none, none, some (.number 9)] := by
  refine ⟨?_, perform_reserve ?_, perform_reserve ?_, ?_, ?_, ?_, ?_, ?_⟩
  · decide +kernel
  · decide +kernel
  · decide +kernel
  · decide +kernel
  · decide +kernel
  · decide +kernel
  · decide +kernel
  · decide +kernel

end LeaseVec.World
