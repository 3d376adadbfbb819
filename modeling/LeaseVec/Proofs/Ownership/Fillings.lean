import LeaseVec.Proofs.Ownership.Capacities

/-!
# Ways of filling

There are four ways to come to a number of elements that all hold one value: to make an array of them, to
extend an array, to add them one after the other, or to extend a vector. They store the same words, with one
exception: an array that is made leaves out a fill value that equals zero, and negative zero does. The value is of
the sort that the kind stores.
-/

namespace LeaseVec

open Number Number.Binary64

/-- A host gives room for a number of elements however it comes about, be it by doubling. -/
def AllocationLimit.Gives (limit : AllocationLimit) (n : Nat) : Prop := 0 < limit.count ∧ 2 * n ≤ limit.count

inductive FillWay where
  | create
  | resize
  | push
  | resizeVec (checked : Bool)
  deriving DecidableEq

namespace FillWay

/-- What is asked for, when `n` elements are wanted and the double `x` says so. -/
def history (w : World) (kind : Kind) (x : Binary64) (n : Nat) (fill : Scalar) : FillWay → List Command
  | create => [.newArray kind x (some fill)]
  | resize => [.newArray kind 0 none, .array w.arrays.size (.resize x fill)]
  | push => .newArray kind 0 none :: List.replicate n (.array w.arrays.size (.push fill))
  | resizeVec checked => [.newVec kind checked, .vec w.vecs.size (.resize x (some fill))]

/-- Who has the elements then. -/
def owner (w : World) : FillWay → Owner
  | resizeVec _ => .vec w.vecs.size
  | _ => .array w.arrays.size

end FillWay

namespace World

variable {w w' : World} {id n : Nat} {kind : Kind} {words : List Nat} {fill : Scalar} {x : Binary64}
  {limit : AllocationLimit} {small : Prop} {post : World → Prop}

/-- The kind and the words of the elements that an owner stores. -/
def stored? (w : World) (o : Owner) : Option (Kind × List Nat) :=
  (w.storage? o).map fun a => (a.kind, a.live w.memory)

def Succeeds (w : World) (history : List Command) : Prop :=
  ∀ outcome ∈ (w.performAll history).1, outcome.isOk = true

/-- A history that comes to something when it succeeds, which it does when there is little to store. -/
structure Brings (w : World) (small : Prop) (history : List Command) (post : World → Prop) : Prop where
  post : w.Succeeds history → post (w.performAll history).2
  succeeds : small → w.Succeeds history

theorem Brings.mono {history : List Command} {post' : World → Prop} (h : w.Brings small history post)
    (hpost : ∀ w', post w' → post' w') : w.Brings small history post' where
  post := fun hok => hpost _ (h.post hok)
  succeeds := h.succeeds

theorem brings_nil (h : post w) : w.Brings small [] post where
  post := fun _ => h
  succeeds := fun _ _ hmem => by cases hmem

theorem Brings.cons {c : Command} {rest : List Command} {reply : Reply}
    (hp : w.perform c = (.ok reply, w')) (h : w'.Brings small rest post) :
    w.Brings small (c :: rest) post := by
  have hall : w.performAll (c :: rest) = (.ok reply :: (w'.performAll rest).1, (w'.performAll rest).2) := by
    rw [performAll, hp]
  refine ⟨fun hok => ?_, fun hsmall outcome hmem => ?_⟩
  · rw [hall]
    refine h.post fun outcome hmem => hok outcome ?_
    rw [hall]
    exact List.mem_cons_of_mem _ hmem
  · rw [hall] at hmem
    rcases List.mem_cons.1 hmem with rfl | hmem
    · rfl
    · exact h.succeeds hsmall outcome hmem

theorem brings_of_error {c : Command} {rest : List Command} {e : Fault}
    (hp : w.perform c = (.error e, w')) (h : ¬ small) : w.Brings small (c :: rest) post where
  post := fun hok => by
    have hfirst := hok (.error e) (by rw [performAll, hp]; exact List.mem_cons_self ..)
    cases hfirst
  succeeds := fun hsmall => absurd hsmall h

/-- An array of a kind whose elements are certain words, on a host with a limit. -/
structure HasArray (w : World) (limit : AllocationLimit) (id : Nat) (kind : Kind) (words : List Nat) : Prop where
  limit_eq : w.memory.limit = limit
  lt : id < w.arrays.size
  addressable : w.memory.Addressable
  stored : (w.array id).Stored w.memory
  kind_eq : (w.array id).kind = kind
  live_eq : (w.array id).live w.memory = words

theorem HasArray.stored?_eq (h : w.HasArray limit id kind words) :
    w.stored? (.array id) = some (kind, words) := by
  rw [World.stored?, storage?_array h.lt, Option.map_some, h.kind_eq, h.live_eq]

theorem HasArray.length_eq (h : w.HasArray limit id kind words) : (w.array id).length = words.length := by
  rw [← h.live_eq, Growable.length_live]

theorem HasArray.update {m : Memory} {a : Growable} {words' : List Nat} (h : w.HasArray limit id kind words)
    (hu : Growable.Updates w.memory (w.array id) m a) (hm : m.Addressable) (hlive : a.live m = words') :
    ({ w with memory := m }.setArray id a).HasArray limit id kind words' := by
  have harray : ({ w with memory := m }.setArray id a).array id = a :=
    array_setArray_self { w with memory := m } a h.lt
  refine ⟨hu.grows.limit_eq.trans h.limit_eq, by simpa using h.lt, hm, ?_, ?_, ?_⟩
  · rw [harray]
    exact h.stored.update hu hm
  · rw [harray, hu.kind_eq, h.kind_eq]
  · rw [harray]
    exact hlive

theorem HasArray.push (h : w.HasArray limit id kind words) (hfill : kind.admits fill = true) :
    (∃ w', w.perform (.array id (.push fill)) = (.ok .done, w') ∧
        w'.HasArray limit id kind (words ++ [kind.store fill])) ∨
      (∃ e, w.perform (.array id (.push fill)) = (.error e, w)) ∧ limit.count < 2 * (words.length + 1) := by
  have hpush := pushArray_eq w id fill
  rw [h.kind_eq, if_pos hfill] at hpush
  have hrun : (Command.array id (.push fill)).run w =
      (changeArray id (fun m a => a.push m fill) >>= fun _ => pure Reply.done) w :=
    Action.bind_congr (x := pushArray id fill) _ hpush
  cases hr : (w.array id).push w.memory fill with
  | ok r =>
    refine Or.inl ⟨_, perform_ok hrun (changeArray_ok hr), ?_⟩
    refine h.update (Growable.updates_push hr)
      (Growable.makesRoom_push h.addressable h.stored.fits hr).addressable ?_
    rw [Growable.live_push h.addressable h.stored.fits h.stored.lt hr, h.live_eq, h.kind_eq]
  | error e =>
    refine Or.inr ⟨⟨e, perform_error hrun (changeArray_error hr)⟩, ?_⟩
    rw [← h.length_eq, ← h.limit_eq]
    exact (Growable.push_error h.addressable h.stored.fits hr).2

/-- A number of pushes adds as many elements. -/
theorem HasArray.brings_push (h : w.HasArray limit id kind words) (hfill : kind.admits fill = true) (n : Nat) :
    w.Brings (limit.Gives (words.length + n)) (List.replicate n (.array id (.push fill)))
      (·.HasArray limit id kind (words ++ List.replicate n (kind.store fill))) := by
  induction n generalizing w words with
  | zero =>
    refine brings_nil ?_
    rwa [List.replicate_zero, List.append_nil]
  | succ n ih =>
    rw [List.replicate_succ]
    rcases h.push hfill with ⟨w', hp, hnext⟩ | ⟨⟨e, hp⟩, hlarge⟩
    · have hrest := ih hnext
      rw [List.length_append, List.append_assoc, List.length_singleton, Nat.add_assoc, Nat.add_comm 1] at hrest
      exact hrest.cons hp
    · refine brings_of_error hp fun hgives => ?_
      have hgiven := hgives.2
      omega

theorem HasArray.brings_resize (h : w.HasArray limit id kind words) (hx : Whole x n)
    (hfill : kind.admits fill = true) :
    w.Brings (limit.Gives n) [.array id (.resize x fill)]
      (·.HasArray limit id kind (words.take n ++ List.replicate (n - words.length) (kind.store fill))) := by
  have hresize := resizeArray_eq w id x fill
  rw [h.kind_eq, hfill, Bool.true_or, if_pos rfl] at hresize
  have hrun : (Command.array id (.resize x fill)).run w =
      (changeArray id (fun m a => a.resize m x fill) >>= fun _ => pure Reply.done) w :=
    Action.bind_congr (x := resizeArray id x fill) _ hresize
  cases hr : (w.array id).resize w.memory x fill with
  | ok r =>
    refine (brings_nil ?_).cons (perform_ok hrun (changeArray_ok hr))
    refine h.update (Growable.updates_resize hr)
      (Growable.makesRoom_resize h.addressable h.stored.fits hx hr).addressable ?_
    rw [Growable.live_resize h.addressable h.stored.fits h.stored.lt hx hr, h.live_eq, h.length_eq, h.kind_eq]
  | error e =>
    have hlarge := Growable.large_of_resize_error h.addressable h.stored.fits hr hx.toNat?
    rw [h.limit_eq] at hlarge
    exact brings_of_error (perform_error hrun (changeArray_error hr)) fun hgives => not_le.2 hlarge hgives.2

/-- A new array is there with its elements, unless there are too many. -/
theorem brings_newArray {rest : List Command} (hm : w.memory.Addressable) (hx : Whole x n)
    {fill : Option Scalar} (hfill : ∀ y, fill = some y → kind.admits y = true) (hl : w.memory.limit = limit)
    (hsmall : small → limit.Gives n)
    (hrest : ∀ w' : World, w'.HasArray limit w.arrays.size kind (List.replicate n (Growable.filledWith kind fill)) →
      w'.Brings small rest post) :
    w.Brings small (.newArray kind x fill :: rest) post := by
  have hrun : (Command.newArray kind x fill).run w =
      (newArray kind x fill >>= fun i => pure (Reply.made i)) w := rfl
  have hstep : newArray kind x fill w =
      (Action.ofExcept (Growable.create w.memory kind x fill) >>= fun r => addArray r.1 r.2) w := rfl
  rcases Growable.create_cases w.memory kind hx fill hfill with ⟨hlarge, he⟩ | ⟨hlt, a, m, he, hk, hlive⟩
  · rw [he] at hstep
    refine brings_of_error (perform_error hrun hstep) fun h => ?_
    obtain ⟨hpos, hgiven⟩ := hsmall h
    rw [hl] at hlarge
    omega
  · rw [he] at hstep
    have harray : ({ w with arrays := w.arrays.push a, memory := m } : World).array w.arrays.size = a := by
      simp [array]
    have hfresh := Growable.fresh_create he
    refine (hrest _ ⟨hfresh.grows.limit_eq.trans hl, ?_, ?_, ?_, ?_, ?_⟩).cons (perform_ok hrun hstep)
    · change _ < (w.arrays.push a).size
      rw [Array.size_push]
      exact Nat.lt_succ_self _
    · exact Growable.addressable_create hm he
    · rw [harray]
      exact hfresh.stored
    · rw [harray, hk]
    · rw [harray]
      exact hlive

theorem whole_nought : Whole 0 0 := whole_ofNat (by decide)

section Ways

variable (hm : w.memory.Addressable) (hfill : kind.admits fill = true)

include hm hfill

theorem brings_create (hx : Whole x n) :
    w.Brings (w.memory.limit.Gives n) (FillWay.create.history w kind x n fill) fun w' =>
      w'.stored? (.array w.arrays.size) =
        some (kind, List.replicate n (Growable.filledWith kind (some fill))) := by
  refine brings_newArray hm hx (fun y hy => ?_) rfl id fun _ h => brings_nil h.stored?_eq
  cases hy
  exact hfill

theorem brings_resizeArray (hx : Whole x n) :
    w.Brings (w.memory.limit.Gives n) (FillWay.resize.history w kind x n fill) fun w' =>
      w'.stored? (.array w.arrays.size) = some (kind, List.replicate n (kind.store fill)) := by
  refine brings_newArray hm whole_nought (fun y hy => by cases hy) rfl (fun h => ⟨h.1, Nat.zero_le _⟩) fun _ h => ?_
  have hresize := h.brings_resize hx hfill
  rw [List.replicate_zero, List.take_nil, List.nil_append, List.length_nil, Nat.sub_zero] at hresize
  exact hresize.mono fun _ h' => h'.stored?_eq

theorem brings_pushArray :
    w.Brings (w.memory.limit.Gives n) (FillWay.push.history w kind x n fill) fun w' =>
      w'.stored? (.array w.arrays.size) = some (kind, List.replicate n (kind.store fill)) := by
  refine brings_newArray hm whole_nought (fun y hy => by cases hy) rfl (fun h => ⟨h.1, Nat.zero_le _⟩) fun w₁ h => ?_
  have hpushes := h.brings_push hfill n
  rw [List.replicate_zero, List.length_nil, Nat.zero_add] at hpushes
  exact hpushes.mono fun _ h' => h'.stored?_eq

end Ways

/-- Extending a vector that has no storage yet. -/
theorem brings_resizeEmpty (hid : id < w.vecs.size) (hm : w.memory.Addressable)
    (hh : (w.vec id).holding = .empty) (hx : Whole x n) (hfill : (w.vec id).kind.admits fill = true) :
    w.Brings (w.memory.limit.Gives n) [.vec id (.resize x (some fill))] fun w' =>
      w'.stored? (.vec id) = some ((w.vec id).kind, List.replicate n ((w.vec id).kind.store fill)) := by
  have hfresh := Growable.fresh_ofWords w.memory (w.vec id).kind []
  have hgiven : (Growable.ofWords w.memory (w.vec id).kind []).2.Addressable :=
    hm.alloc (by decide : ([] : Bytes).length < exactBound)
  have hresize := resize_eq w id x (some fill)
  rw [lengthOf?, hx.toNat?, if_neg (by simp), Option.getD_some, hfill, Bool.true_or, if_pos rfl] at hresize
  have hrun : (Command.vec id (.resize x (some fill))).run w =
      (changeOwned id (fun m a => a.resize m x fill) >>= fun _ => pure Reply.done) w :=
    Action.bind_congr (x := World.resize id x (some fill)) _ hresize
  cases hr : (Growable.ofWords w.memory (w.vec id).kind []).1.resize
      (Growable.ofWords w.memory (w.vec id).kind []).2 x fill with
  | ok r =>
    obtain ⟨a, m⟩ := r
    refine (brings_nil ?_).cons (perform_ok hrun (changeOwned_ok (own_of_empty hh) hr))
    have hlive := Growable.live_resize hgiven hfresh.fits hfresh.buffer_lt hx hr
    rw [withOwned_withOwned, World.stored?, storage?_withOwned_self hid, Option.map_some,
      (Growable.updates_resize hr).kind_eq]
    refine congrArg (fun words => some ((w.vec id).kind, words)) (hlive.trans ?_)
    exact congrArg (· ++ List.replicate n ((w.vec id).kind.store fill)) List.take_nil
  | error e =>
    have hlarge := Growable.large_of_resize_error hgiven hfresh.fits hr hx.toNat?
    refine brings_of_error (perform_error hrun (changeOwned_error (own_of_empty hh) hr)) fun hgives => ?_
    exact not_le.2 (hfresh.grows.limit_eq ▸ hlarge) hgives.2

theorem brings_resizeVec (hm : w.memory.Addressable) (hfill : kind.admits fill = true) (hx : Whole x n)
    (checked : Bool) : w.Brings (w.memory.limit.Gives n) ((FillWay.resizeVec checked).history w kind x n fill) fun w' =>
      w'.stored? (.vec w.vecs.size) = some (kind, List.replicate n (kind.store fill)) := by
  have hvec : ({ w with vecs := w.vecs.push (.new kind checked) } : World).vec w.vecs.size =
      .new kind checked := by
    rw [vec_push, if_pos rfl]
  have hlt : w.vecs.size < ({ w with vecs := w.vecs.push (.new kind checked) } : World).vecs.size := by
    simp
  have hresize := brings_resizeEmpty hlt hm (by rw [hvec]; rfl) hx (by rwa [hvec])
  rw [hvec] at hresize
  exact hresize.cons rfl

/-- What a way of filling brings. -/
theorem brings_fill (hm : w.memory.Addressable) (hfill : kind.admits fill = true) (hx : Whole x n)
    (way : FillWay) :
    w.Brings (w.memory.limit.Gives n) (way.history w kind x n fill) fun w' => w'.stored? (way.owner w) =
      some (kind, List.replicate n (if way = .create then Growable.filledWith kind (some fill)
        else kind.store fill)) := by
  cases way with
  | create => exact brings_create hm hfill hx
  | resize => exact brings_resizeArray hm hfill hx
  | push => exact brings_pushArray hm hfill
  | resizeVec checked => exact brings_resizeVec hm hfill hx checked

/-- A number of elements of one value, however they come about. -/
structure FillsAlike (w : World) (kind : Kind) (x : Binary64) (n : Nat) (fill : Scalar) : Prop where
  succeeds : w.memory.limit.Gives n → ∀ way : FillWay, w.Succeeds (way.history w kind x n fill)
  /-- Each element stores the fill value bit for bit, unless an array of doubles or singles is made with
  negative zero. -/
  stored_iff : ∀ way : FillWay, w.Succeeds (way.history w kind x n fill) →
    ((w.performAll (way.history w kind x n fill)).2.stored? (way.owner w) =
        some (kind, List.replicate n (kind.store fill)) ↔
      (way = .create → n = 0 ∨ kind.isFloat = false ∨ fill ≠ .number negativeZero))

theorem filledWith_iff (kind : Kind) (fill : Scalar) :
    Growable.filledWith kind (some fill) = kind.store fill ↔
      kind.isFloat = false ∨ fill ≠ .number negativeZero := by
  unfold Growable.filledWith
  constructor
  · intro h
    by_contra hne
    rw [not_or, Bool.not_eq_false, not_not] at hne
    obtain ⟨hfloat, rfl⟩ := hne
    exact Kind.store_negativeZero_ne hfloat h.symm
  · intro h
    cases hzero : fill.isZero with
    | true => simp [hzero, Kind.store_of_isZero hzero h]
    | false => simp [hzero]

/-- All ways of filling store the same words for every fill value of the kind's sort but negative zero. -/
theorem fillsAlike (hm : w.memory.Addressable) (hx : Whole x n) (hfill : kind.admits fill = true) :
    w.FillsAlike kind x n fill where
  succeeds := fun hsmall way => (brings_fill hm hfill hx way).succeeds hsmall
  stored_iff := by
    intro way hok
    rw [(brings_fill hm hfill hx way).post hok, Option.some.injEq, Prod.mk.injEq,
      and_iff_right rfl, List.replicate_inj, and_iff_right rfl]
    by_cases hway : way = .create
    · rw [if_pos hway, filledWith_iff, forall_prop_of_true hway]
    · rw [if_neg hway]
      exact ⟨fun _ h => absurd h hway, fun _ => Or.inr rfl⟩

theorem fillsAlike_one : Memory.empty.Addressable ∧ Whole 1 1 ∧
    Kind.admits .f64 (.number negativeZero) = true ∧ empty.FillsAlike .f64 1 1 (.number negativeZero) := by
  have haddressable : Memory.empty.Addressable := Memory.addressable_of_all (by decide +kernel)
  exact ⟨haddressable, Growable.whole_one, rfl, fillsAlike haddressable Growable.whole_one rfl⟩

/-- An array made with negative zero has another word than an array extended with it. -/
theorem create_drops_negativeZero :
    (empty.performAll (FillWay.create.history empty .f64 1 1 (.number negativeZero))).2.stored? (.array 0) =
        some (.f64, [0]) ∧
      (empty.performAll (FillWay.resize.history empty .f64 1 1 (.number negativeZero))).2.stored?
        (.array 0) = some (.f64, [2 ^ 63]) := by
  decide +kernel

end World

end LeaseVec
