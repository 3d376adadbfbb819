import LeaseVec.Proofs.Ownership.Promotion

/-!
# Calls that fail

A call that is to change a vector checks indices, lengths and kinds before it takes the vector to owned storage, so
it fails without a trace. There are two checks that come later, since only the storage makes them: whether there is
room for more elements, and whether a value is of the sort that the storage takes. A vector that did not own its
elements owns them after such a failure, and there may be room for more of them.
-/

namespace LeaseVec

open Number Number.Binary64

/-- The calls that give a vector other elements, or other storage for those that it has. -/
def VecCommand.Alters : VecCommand → Prop
  | attach _ _ | swap _ => True
  | c => c.Edits

/-- The number of elements for which a call needs room. -/
def VecCommand.room? (size : Nat) : VecCommand → Option Nat
  | push _ => some (size + 1)
  | resize length _ => length.toNat?
  | _ => none

/-- The value that a call writes. -/
def VecCommand.added? : VecCommand → Option Scalar
  | set _ x | push x => some x
  | resize _ fill => fill
  | _ => none

/-- The fault is that of an allocation. -/
def Fault.isRefusal : Fault → Bool
  | allocationRefused => true
  | _ => false

/-- The fault is that of a sort. -/
def Fault.isMisfit : Fault → Bool
  | sortRefused => true
  | _ => false

/-- Whether a call has failed with a fault that can be told from others. -/
def decidableFailed {e : Fault} (tell : Fault → Bool) (h : ∀ e', tell e' = true ↔ e' = e)
    (outcome : Except Fault Reply) : Decidable (outcome = .error e) :=
  match outcome with
  | .ok _ => isFalse fun h => by cases h
  | .error e' => decidable_of_iff (tell e' = true) (by rw [h e', Except.error.injEq])

instance (outcome : Except Fault Reply) : Decidable (outcome = .error .allocationRefused) :=
  decidableFailed Fault.isRefusal (fun e => by cases e <;> simp [Fault.isRefusal]) outcome

instance (outcome : Except Fault Reply) : Decidable (outcome = .error .sortRefused) :=
  decidableFailed Fault.isMisfit (fun e => by cases e <;> simp [Fault.isMisfit]) outcome

namespace World

variable {w w' : World} {id : Nat} {e : Fault}

/-- Storage that a vector owns may have got room for more elements. -/
inductive Roomy (w : World) (id : Nat) (a : Growable) : World → Prop where
  | same : Roomy w id a w
  | room {extra : Binary64} {moved : Bool} {b : Growable} {m : Memory}
      (reserved : a.reserve w.memory extra = .ok (moved, b, m)) : Roomy w id a (w.withOwned id b m w.promotions)

/-- The ways in which a change of a vector fails. -/
inductive Failing (w : World) (id : Nat) (c : VecCommand) : Fault → World → Prop where
  /-- It is refused, and nothing has happened. -/
  | refused {e : Fault} (he : e ≠ .allocationRefused) (hs : e ≠ .sortRefused) : Failing w id c e w
  /-- The elements cannot be copied, and nothing has happened. -/
  | otherSort {view : View} {region : Nat} (holding : (w.vec id).holding = .borrowed view region)
      (sort : view.kind.sameSort (w.vec id).kind = false) : Failing w id c .sortRefused w
  /-- There is no room, and the vector has been taken to owned storage. -/
  | noRoom {a : Growable} {w' : World} (hown : own id w = .ok a w')
      (hlarge : a.Fits w'.memory → w'.memory.Addressable →
        ∃ n, c.room? (w.vec id).size = some n ∧ w'.memory.limit.count < 2 * n) :
    Failing w id c .allocationRefused w'
  /-- A value is of the wrong sort. The vector has been taken to owned storage, and there is room for the value. -/
  | misfit {a : Growable} {w₁ w' : World} {x : Scalar} (added : c.added? = some x)
      (sort : (w.vec id).kind.admits x = false) (hown : own id w = .ok a w₁) (hroom : w₁.Roomy id a w') :
    Failing w id c .sortRefused w'

theorem failing_of_own {c : VecCommand} (h : own id w = .error e w') : w.Failing id c e w' := by
  have howning := owning_own w id
  rw [h] at howning
  cases howning with
  | ended hh ho => exact .refused Fault.noConfusion Fault.noConfusion
  | otherSort hh ho hs => exact .otherSort hh hs

/-- A step of owned storage fails as taking the vector to it does, or for want of room. -/
theorem failing_changeOwned {c : VecCommand}
    (change : Memory → Growable → Except Fault (Growable × Memory))
    (herror : ∀ m a e, change m a = .error e → e = .allocationRefused ∧
      (a.length = (w.vec id).size → a.Fits m → m.Addressable →
        ∃ n, c.room? (w.vec id).size = some n ∧ m.limit.count < 2 * n))
    (h : changeOwned id change w = .error e w') : w.Failing id c e w' := by
  cases hown : own id w with
  | error e₁ w₁ =>
    rw [changeOwned_of_error hown] at h
    cases h
    exact failing_of_own hown
  | ok a w₁ =>
    cases hstep : change w₁.memory a with
    | ok r =>
      rw [changeOwned_ok hown hstep] at h
      cases h
    | error e₁ =>
      rw [changeOwned_error hown hstep] at h
      cases h
      obtain ⟨rfl, hlarge⟩ := herror _ _ _ hstep
      exact .noRoom hown (hlarge (length_of_own hown))

/-- Making room for a value of the wrong sort fails like that, or else it is the sort that is refused. -/
theorem failing_refuse {c : VecCommand} {extra : Growable → Binary64} {x : Scalar} (hx : c.added? = some x)
    (hsort : (w.vec id).kind.admits x = false)
    (herror : ∀ (m : Memory) (a : Growable) e, a.reserve m (extra a) = .error e → a.length = (w.vec id).size →
      a.Fits m → m.Addressable → ∃ n, c.room? (w.vec id).size = some n ∧ m.limit.count < 2 * n)
    (h : refuse id extra w = .error e w') : w.Failing id c e w' := by
  rw [refuse_eq] at h
  cases hmake : changeOwned id (makeRoom extra) w with
  | error e₁ w₁ =>
    rw [Action.bind_error hmake] at h
    cases h
    refine failing_changeOwned (makeRoom extra) (fun m a e hstep => ?_) hmake
    have hreserve : a.reserve m (extra a) = .error e := error_of_makeRoom hstep
    exact ⟨Growable.reserve_error hreserve, herror m a e hreserve⟩
  | ok u w₁ =>
    rw [Action.bind_ok hmake] at h
    cases h
    cases hown : own id w with
    | error e₁ w₂ =>
      rw [changeOwned_of_error hown] at hmake
      cases hmake
    | ok a w₂ =>
      cases hstep : makeRoom extra w₂.memory a with
      | error e₁ =>
        rw [changeOwned_error hown hstep] at hmake
        cases hmake
      | ok r =>
        rw [changeOwned_ok hown hstep] at hmake
        cases hmake
        obtain ⟨moved, hreserve⟩ := reserve_of_makeRoom hstep
        exact .misfit hx hsort hown (.room hreserve)

theorem failing_setAt {index : Binary64} {value : Scalar} (h : setAt id index value w = .error e w') :
    w.Failing id (.set index value) e w' := by
  rw [setAt_eq] at h
  cases hi : acceptIndex index (w.vec id).size with
  | error e₁ =>
    have he : e₁ ≠ .allocationRefused ∧ e₁ ≠ .sortRefused := by
      unfold acceptIndex at hi
      split at hi
      · split_ifs at hi
        cases hi
        exact ⟨Fault.noConfusion, Fault.noConfusion⟩
      · cases hi
        exact ⟨Fault.noConfusion, Fault.noConfusion⟩
    rw [hi] at h
    cases h
    exact .refused he.1 he.2
  | ok i =>
    rw [hi] at h
    change (if (w.vec id).kind.admits value = true then
      changeOwned id fun m a => .ok (a, m.writeWords a.slots i [a.kind.store value])
      else own id >>= fun _ => throw .sortRefused : Action Unit) w = _ at h
    split_ifs at h with hsort
    · exact failing_changeOwned (fun m a => .ok (a, m.writeWords a.slots i [a.kind.store value]))
        (fun _ _ _ hstep => by cases hstep) h
    · cases hown : own id w with
      | error e₁ w₁ =>
        rw [Action.bind_error hown] at h
        cases h
        exact failing_of_own hown
      | ok a w₁ =>
        rw [Action.bind_ok hown] at h
        cases h
        exact .misfit rfl (Bool.eq_false_iff.2 hsort) hown .same

theorem failing_push {value : Scalar} (h : push id value w = .error e w') :
    w.Failing id (.push value) e w' := by
  -- one more element is more than there can be
  have hlarge : ∀ (m : Memory) (a : Growable) e₁, a.reserve m 1 = .error e₁ → a.length = (w.vec id).size →
      a.Fits m → m.Addressable →
      ∃ n, (VecCommand.push value).room? (w.vec id).size = some n ∧ m.limit.count < 2 * n := by
    intro m a e₁ hreserve hsize ha hm
    have hlarge := Growable.lt_of_reserve_error hm ha (ha.whole_succ hm) hreserve
    rw [hsize] at hlarge
    exact ⟨_, rfl, hlarge⟩
  rw [push_eq] at h
  split_ifs at h with hsort
  · refine failing_changeOwned (fun m a => a.push m value) (fun m a e₁ hstep => ?_) h
    have hreserve := Growable.reserve_of_push_error hstep
    exact ⟨Growable.reserve_error hreserve, hlarge m a e₁ hreserve⟩
  · exact failing_refuse (x := value) rfl (Bool.eq_false_iff.2 hsort) hlarge h

theorem failing_resize {length : Binary64} {fill : Option Scalar}
    (h : resize id length fill w = .error e w') : w.Failing id (.resize length fill) e w' := by
  rw [resize_eq] at h
  split_ifs at h with hnone hfill
  · cases h
    exact .refused Fault.noConfusion Fault.noConfusion
  · obtain ⟨n, hn⟩ : ∃ n, length.toNat? = some n := Option.ne_none_iff_exists'.1 (by simpa [lengthOf?] using hnone)
    refine failing_changeOwned (fun m a => a.resize m length (fill.getD a.kind.zero))
      (fun m a e₁ hstep => ?_) h
    refine ⟨Growable.reserve_error (Growable.reserve_of_resize_error hn hstep).2, fun _ ha hm => ?_⟩
    exact ⟨n, hn, Growable.large_of_resize_error hm ha hstep hn⟩
  · obtain ⟨hadmits, hfills⟩ := Bool.or_eq_false_iff.1 (Bool.eq_false_iff.2 hfill)
    obtain ⟨x, rfl⟩ : ∃ x, fill = some x := by
      cases fill with
      | none => simp at hadmits
      | some x => exact ⟨x, rfl⟩
    obtain ⟨n, hn, hlt⟩ := exists_of_fills (by simpa using hfills)
    refine failing_refuse (x := x) rfl hadmits (fun m a e₁ hreserve hsize ha hm => ⟨n, hn, ?_⟩) h
    rcases Growable.extension_cases hm ha (whole_of_toNat? hn) (hsize ▸ hlt) with ⟨-, hw⟩ | ⟨hbig, -⟩
    · exact Growable.lt_of_reserve_error hm ha hw hreserve
    · exact m.limit_lt_double hbig

/-- Attaching and exchanging are refused before anything has happened. -/
theorem failing_attach {view : View} {region : Nat} (h : attach id view region w = .error e w') :
    w.Failing id (.attach view region) e w' ∧ w' = w := by
  rw [attach_eq] at h
  split_ifs at h
  · cases h
    exact ⟨.refused Fault.noConfusion Fault.noConfusion, rfl⟩
  · cases h
    exact ⟨.refused Fault.noConfusion Fault.noConfusion, rfl⟩

theorem failing_swapWith {array : Nat} (h : swapWith id array w = .error e w') :
    w.Failing id (.swap array) e w' ∧ w' = w := by
  by_cases hk : (w.vec id).kind = (w.array array).kind
  · cases hown : own id w with
    | ok a w₁ =>
      rw [swapWith_ok hk hown] at h
      cases h
    | error e₁ w₁ =>
      rw [swapWith_of_error hk hown] at h
      cases h
      exact ⟨failing_of_own hown, own_error hown⟩
  · rw [swapWith_of_ne hk] at h
    cases h
    exact ⟨.refused Fault.noConfusion Fault.noConfusion, rfl⟩

/-- What comes after taking the vector to owned storage does not fail by itself. -/
theorem failing_of_own_bind {α : Type} {c : VecCommand} {x : Action α}
    (hok : ∀ a w₁, own id w = .ok a w₁ → ∃ r w₂, x w = .ok r w₂)
    (herror : ∀ e₁ w₁, own id w = .error e₁ w₁ → x w = .error e₁ w₁) (h : x w = .error e w') :
    w.Failing id c e w' := by
  cases hown : own id w with
  | ok a w₁ =>
    obtain ⟨r, w₂, hx⟩ := hok a w₁ hown
    rw [hx] at h
    cases h
  | error e₁ w₁ =>
    rw [herror e₁ w₁ hown] at h
    cases h
    exact failing_of_own hown

/-- An answer of its own does not make a step fail. -/
theorem error_of_map {α β : Type} {x : Action α} {f : α → β}
    (h : (x >>= fun a => pure (f a)) w = .error e w') : x w = .error e w' := by
  cases hx : x w with
  | ok a w₁ =>
    rw [Action.bind_ok hx] at h
    cases h
  | error e₁ w₁ =>
    rw [Action.bind_error hx] at h
    cases h
    rfl

theorem failing_perform {c : VecCommand} (hc : c.Alters) (h : w.perform (.vec id c) = (.error e, w')) :
    w.Failing id c e w' ∧ (c.Edits ∨ w' = w) := by
  have hrun := perform_eq_error.1 h
  cases c with
  | attach view region =>
    exact (failing_attach (error_of_map (f := fun _ => Reply.done) hrun)).imp_right Or.inr
  | set index value => exact ⟨failing_setAt (error_of_map (f := fun _ => Reply.done) hrun), Or.inl trivial⟩
  | push value => exact ⟨failing_push (error_of_map (f := fun _ => Reply.done) hrun), Or.inl trivial⟩
  | resize length fill => exact ⟨failing_resize (error_of_map (f := fun _ => Reply.done) hrun), Or.inl trivial⟩
  | swap array => exact (failing_swapWith (error_of_map (f := fun _ => Reply.done) hrun)).imp_right Or.inr
  | pop =>
    exact ⟨failing_of_own_bind (fun a w₁ hown => ⟨_, _, pop_ok hown⟩) (fun e₁ w₁ hown => pop_of_error hown)
      (error_of_map (f := Reply.element (w.vec id).kind) hrun), Or.inl trivial⟩
  | writable =>
    exact ⟨failing_of_own_bind (fun a w₁ hown => ⟨_, _, writableView_ok hown⟩)
      (fun e₁ w₁ hown => writableView_of_error hown) (error_of_map (f := Reply.view) hrun), Or.inl trivial⟩
  | _ => exact hc.elim

/-- Taking a vector to owned storage that had none of its own uses a new buffer. -/
theorem ne_of_own {a : Growable} (h : own id w = .ok a w') (hm : (w.vec id).mode ≠ .owned) : w' ≠ w := by
  have howning := owning_own w id
  rw [h] at howning
  have hgrown : ∀ words p, w.withOwned id (Growable.ofWords w.memory (w.vec id).kind words).1
      (Growable.ofWords w.memory (w.vec id).kind words).2 p ≠ w := by
    intro words p heq
    have hsize := congrArg (fun u : World => u.memory.buffers.size) heq
    change (w.memory.alloc _).2.buffers.size = w.memory.buffers.size at hsize
    rw [Memory.size_alloc] at hsize
    omega
  cases howning with
  | owned hh => exact (hm (Vec.mode_eq_owned.2 ⟨a, hh⟩)).elim
  | empty hh => exact hgrown _ _
  | promoted p hh => exact hgrown _ _

theorem fits_of_own {a : Growable} (hi : w.InBounds) (h : own id w = .ok a w') : a.Fits w'.memory := by
  have howning := owning_own w id
  rw [h] at howning
  cases howning with
  | owned hh => exact hi.fits (.vec id) a (storage?_vec_of_owned hh)
  | empty hh => exact (Growable.fresh_ofWords ..).fits
  | promoted p hh => exact (Growable.fresh_ofWords ..).fits

/-- A vector has as many elements as it had, and nothing but the vector is different in the tables of vectors and
arrays. -/
structure SameSize (w : World) (id : Nat) (w' : World) : Prop where
  size_eq : (w'.vec id).size = (w.vec id).size
  others : ∀ j, j ≠ id → w'.vec j = w.vec j
  arrays_eq : w'.arrays = w.arrays

theorem SameSize.trans {w'' : World} (h : w.SameSize id w') (h' : w'.SameSize id w'') : w.SameSize id w'' where
  size_eq := h'.size_eq.trans h.size_eq
  others j hj := (h'.others j hj).trans (h.others j hj)
  arrays_eq := h'.arrays_eq.trans h.arrays_eq

theorem sameSize_withOwned {a : Growable} (m : Memory) (p : Array Promotion) (ha : a.length = (w.vec id).size) :
    w.SameSize id (w.withOwned id a m p) where
  size_eq := by
    rcases Nat.lt_or_ge id w.vecs.size with hlt | hge
    · rw [vec_withOwned_self a m p hlt]
      exact ha
    · rw [vec_of_size_le _ (by rwa [size_vecs_withOwned]), vec_of_size_le _ hge]
  others j hj := vec_withOwned_of_ne a m p hj
  arrays_eq := rfl

theorem sameSize_own {a : Growable} (h : own id w = .ok a w') : w.SameSize id w' := by
  have hlength := length_of_own h
  obtain ⟨m, p, rfl, -⟩ := own_ok h
  exact sameSize_withOwned m p hlength

theorem Roomy.sameSize {a : Growable} (h : w.Roomy id a w') (ha : a.length = (w.vec id).size) :
    w.SameSize id w' := by
  cases h with
  | same => exact ⟨rfl, fun _ _ => rfl, rfl⟩
  | room hr => exact sameSize_withOwned _ _ ((Growable.length_of_reserve hr).1.trans ha)

theorem Failing.sameSize {c : VecCommand} (h : w.Failing id c e w') : w.SameSize id w' := by
  cases h with
  | refused => exact ⟨rfl, fun _ _ => rfl, rfl⟩
  | otherSort => exact ⟨rfl, fun _ _ => rfl, rfl⟩
  | noRoom hown => exact sameSize_own hown
  | misfit _ _ hown hroom =>
    have hsame := sameSize_own hown
    exact hsame.trans (hroom.sameSize ((length_of_own hown).trans hsame.size_eq.symm))

/-- The elements of a vector that holds what is of its kind are its words, seen in that kind. -/
theorem elements_of_sound (hs : (w.vec id).Sound w.memory) {view : View} (hv : w.viewOf (w.vec id) = .ok view) :
    w.elements (w.vec id) = .ok ((w.memory.words view).map (w.vec id).kind.load) := by
  have hkind : view.kind = (w.vec id).kind := by
    unfold Vec.Sound at hs
    cases viewing_of_viewOf hv with
    | owned hh =>
      rw [hh] at hs
      exact hs.1
    | empty hh => rfl
    | borrowed hh =>
      rw [hh] at hs
      exact hs.1
  rw [elements, hv, ← hkind]
  rfl

/-- A change that fails leaves the elements as they are. -/
theorem elements_of_failed {c : VecCommand} (hc : c.Edits) (hs : (w.vec id).Sound w.memory)
    (h : w.perform (.vec id c) = (.error e, w')) (hm : w'.memory.Addressable) :
    w'.elements (w'.vec id) = w.elements (w.vec id) := by
  have hchanged := changed_perform hs hc
  rw [h] at hchanged
  cases hchanged with
  | refused => rfl
  | @failed _ view _ hv howns =>
    obtain ⟨a, m, p, rfl, -, hkind, hwords⟩ := howns
    rcases Nat.lt_or_ge id w.vecs.size with hlt | hge
    · obtain ⟨-, hlive⟩ := hwords hm
      have hholding : ((w.withOwned id a m p).vec id).holding = .owned a := by rw [vec_withOwned_self a m p hlt]
      have hdata : m.words (a.data m.views) = a.live m := Memory.words_eq_of_range rfl rfl rfl rfl
      rw [elements_of_sound hs hv, elements, viewOf_of_owned hholding, ← hkind, ← hlive, ← hdata]
      rfl
    · rw [vec_of_size_le _ (by rwa [size_vecs_withOwned]), vec_of_size_le _ hge]
      rfl

/-- What a call that was to change a vector and has failed with `e` has left behind. -/
structure Failed (w : World) (id : Nat) (c : VecCommand) (e : Fault) (w' : World) : Prop where
  /-- Nothing is different, unless an allocation or the sort of a value was refused. -/
  unchanged : e ≠ .allocationRefused → e ≠ .sortRefused → w' = w
  /-- An allocation is refused once the vector owns its elements, and that is the only difference. -/
  noRoom : e = .allocationRefused →
    (∃ a, own id w = .ok a w') ∧ (w' = w ↔ (w.vec id).mode = .owned)
  /-- No allocation is refused to a call that needs room for at most half of what the host allocates. -/
  large : e = .allocationRefused → w.InBounds → w'.memory.Addressable →
    ∃ n, c.room? (w.vec id).size = some n ∧ w'.memory.limit.count < 2 * n
  /-- A sort is refused for borrowed elements that cannot be copied, and nothing is different, or for a value given
  to the call. Then the vector owns its elements, and it may have got room for more. -/
  misfit : e = .sortRefused →
    (w' = w ∧ ∃ view region, (w.vec id).holding = .borrowed view region ∧
      view.kind.sameSort (w.vec id).kind = false) ∨
    (∃ x, c.added? = some x ∧ (w.vec id).kind.admits x = false) ∧
      ∃ a w₁, own id w = .ok a w₁ ∧ w₁.Roomy id a w'
  /-- In every case the number of elements, the other vectors and the arrays are the same. -/
  sameSize : w.SameSize id w'
  /-- So are the elements, of a vector that holds what is of its kind. -/
  elements_eq : (w.vec id).Sound w.memory → w'.memory.Addressable →
    w'.elements (w'.vec id) = w.elements (w.vec id)

/-- Whatever call it was, on whatever vector and with whatever arguments. -/
theorem failed_of_perform {c : VecCommand} (hc : c.Alters)
    (h : w.perform (.vec id c) = (.error e, w')) : w.Failed id c e w' := by
  obtain ⟨hfailing, hedits⟩ := failing_perform hc h
  have helements : (w.vec id).Sound w.memory → w'.memory.Addressable →
      w'.elements (w'.vec id) = w.elements (w.vec id) := by
    intro hs hm
    rcases hedits with hedits | rfl
    · exact elements_of_failed hedits hs h hm
    · rfl
  have hsame := hfailing.sameSize
  cases hfailing with
  | refused he hs =>
    exact ⟨fun _ _ => rfl, fun heq => (he heq).elim, fun heq => (he heq).elim, fun heq => (hs heq).elim, hsame,
      helements⟩
  | otherSort hh hs =>
    exact ⟨fun _ _ => rfl, Fault.noConfusion, Fault.noConfusion, fun _ => Or.inl ⟨rfl, _, _, hh, hs⟩, hsame,
      helements⟩
  | @noRoom a w' hown hlarge =>
    refine ⟨fun hne => (hne rfl).elim, fun _ => ⟨⟨a, hown⟩, fun heq => ?_, fun hm => ?_⟩,
      fun _ hi hm => hlarge (fits_of_own hi hown) hm, Fault.noConfusion, hsame, helements⟩
    · by_contra hne
      exact ne_of_own hown hne heq
    · obtain ⟨b, hb⟩ := Vec.mode_eq_owned.1 hm
      rw [own_of_owned hb] at hown
      cases hown
      rfl
  | misfit hx hsort hown hroom =>
    exact ⟨fun _ hne => (hne rfl).elim, Fault.noConfusion, Fault.noConfusion,
      fun _ => Or.inr ⟨⟨_, hx, hsort⟩, _, _, hown, hroom⟩, hsame, helements⟩

theorem perform_of_fst {c : Command} (h : (w.perform c).1 = .error e) :
    w.perform c = (.error e, (w.perform c).2) := Prod.ext h rfl

/-- A vector borrows two bytes. -/
def borrowsTwo : List Command :=
  [.alloc [1, 2], .lend ⟨0, 0, 2, false⟩ [76], .newVec .u8 false, .vec 0 (.attach ⟨.u8, 0, 0, 2, 0⟩ 0)]

theorem failed_resize_after_close :
    VecCommand.Alters (.resize (.ofNat (2 ^ 50)) none) ∧
      (empty.performAll (borrowsTwo ++ [.close 0])).2.perform (.vec 0 (.resize (.ofNat (2 ^ 50)) none)) =
        (.error (.borrowEnded [76]), (empty.performAll (borrowsTwo ++ [.close 0])).2) ∧
      (empty.performAll (borrowsTwo ++ [.close 0])).2.Failed 0 (.resize (.ofNat (2 ^ 50)) none)
        (.borrowEnded [76]) (empty.performAll (borrowsTwo ++ [.close 0])).2 := by
  have hstale : (empty.performAll (borrowsTwo ++ [.close 0])).2.perform
      (.vec 0 (.resize (.ofNat (2 ^ 50)) none)) =
        (.error (.borrowEnded [76]), (empty.performAll (borrowsTwo ++ [.close 0])).2) :=
    (perform_calls (c := .vec 0 (.resize (.ofNat (2 ^ 50)) none)) rfl).2
      ⟨rfl, ⟨_, whole_ofNat (by decide)⟩, 0, rfl, rfl, rfl⟩
  exact ⟨trivial, hstale, failed_of_perform trivial hstale⟩

/-- While the region is open the vector is copied first, and reported as copied. Then the allocation is refused, or
the value is, and the vector owns its elements: a change that fails does not always leave everything as it was. -/
theorem refused_resize_is_seen :
    ((empty.performAll borrowsTwo).2.perform (.vec 0 (.resize (.ofNat (2 ^ 50)) none))).1 =
        .error .allocationRefused ∧
      ((empty.performAll borrowsTwo).2.vec 0).mode = .borrowed ∧
      (((empty.performAll borrowsTwo).2.perform (.vec 0 (.resize (.ofNat (2 ^ 50)) none))).2.vec 0).mode =
        .owned ∧
      (empty.performAll borrowsTwo).2.promotions = #[] ∧
      ((empty.performAll borrowsTwo).2.perform (.vec 0 (.resize (.ofNat (2 ^ 50)) none))).2.promotions =
        #[⟨.u8, 2, [76]⟩] ∧
      ((empty.performAll borrowsTwo).2.perform (.vec 0 (.push (.integer 1)))).1 = .error .sortRefused ∧
      ((empty.performAll borrowsTwo).2.perform (.vec 0 (.push (.integer 1)))).2.promotions =
        #[⟨.u8, 2, [76]⟩] ∧
      ¬ ∀ w : World, w.Reachable → ∀ id c e w', VecCommand.Alters c →
        w.perform (.vec id c) = (.error e, w') → w'.promotions = w.promotions := by
  have hfails : ((empty.performAll borrowsTwo).2.perform (.vec 0 (.resize (.ofNat (2 ^ 50)) none))).1 =
      .error .allocationRefused := by decide +kernel
  have hreports :
      ((empty.performAll borrowsTwo).2.perform (.vec 0 (.resize (.ofNat (2 ^ 50)) none))).2.promotions =
        #[⟨.u8, 2, [76]⟩] := by decide +kernel
  refine ⟨hfails, rfl, by decide +kernel, rfl, hreports, by decide +kernel, by decide +kernel,
    fun h => ?_⟩
  have hnone := h _ ⟨default, borrowsTwo, rfl⟩ 0 (.resize (.ofNat (2 ^ 50)) none) _ _ trivial
    (perform_of_fst hfails)
  rw [hreports] at hnone
  cases hnone

end World

end LeaseVec
