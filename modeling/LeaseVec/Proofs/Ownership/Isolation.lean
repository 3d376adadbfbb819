import LeaseVec.Proofs.Ownership.Histories

/-!
# Isolation

Because no two owners share a buffer, and none shares one with what is lent out or was brought in from
outside, a change of one vector cannot be seen anywhere else, and a write from outside cannot be seen in any
storage. Both are stated for the world that any lawful history reaches, and for every buffer that was shared
at any time on the way, whether it is still lent or not.
-/

namespace LeaseVec

open Number Number.Binary64

/-- The commands that change the vector they are given to. -/
def VecCommand.Changes : VecCommand → Prop
  | writable | set _ _ | push _ | pop | resize _ _ | swap _ | clear => True
  | _ => False

/-- The owner that takes part in a change besides the vector itself. -/
def VecCommand.partner? : VecCommand → Option Owner
  | swap array => some (.array array)
  | _ => none

namespace World

variable {w w' : World}

/-- What an owner shows: the elements of a vector, or the fault of looking at them, and the elements of an
array. -/
def contents (w : World) : Owner → Except Fault (List Scalar)
  | .vec id => w.elements (w.vec id)
  | .array id => .ok ((w.array id).toList w.memory)

/-- The buffers that are lent out, or brought in from outside, at any time during a history. -/
def SharedDuring (w : World) : List Command → Nat → Prop
  | [], b => ∃ r, w.Lends r ∧ r.buffer = b
  | c :: rest, b => (∃ r, w.Lends r ∧ r.buffer = b) ∨ (∃ r ∈ c.sources, r.buffer = b) ∨
      (w.perform c).2.SharedDuring rest b

/-- What holds in a world with these shared buffers: whose buffers are distinct, what a change of one
owner leaves alone, and what a change of shared bytes leaves alone. -/
structure Isolated (w : World) (shared : Nat → Prop) : Prop where
  apart : ∀ o o' a a', w.storage? o = some a → w.storage? o' = some a' → o ≠ o' →
    a.buffer ≠ a'.buffer
  unshared : ∀ o a, w.storage? o = some a → ¬ shared a.buffer
  /-- A change of a vector, whether it succeeds or fails. -/
  changed : ∀ id c, id < w.vecs.size → c.Changes → c.Lawful w →
    (∀ b, shared b → (w.perform (.vec id c)).2.memory.buffer b = w.memory.buffer b) ∧
      ∀ o, o ≠ .vec id → c.partner? ≠ some o → (w.perform (.vec id c)).2.contents o = w.contents o
  /-- The view that is given out for writing lies over the vector's own storage. -/
  writable : ∀ id v w', w.perform (.vec id .writable) = (.ok (.view v), w') → id < w.vecs.size →
    ∃ a, w'.storage? (.vec id) = some a ∧ v.buffer = a.buffer
  /-- A write through a view of somebody's storage. -/
  written : ∀ o a v index x, w.storage? o = some a → v.buffer = a.buffer →
    (∀ b, shared b → (w.perform (.setElement v index x)).2.memory.buffer b = w.memory.buffer b) ∧
      ∀ o', o' ≠ o → (w.perform (.setElement v index x)).2.contents o' = w.contents o'
  /-- A write to shared bytes, through a view or directly. -/
  viewed : ∀ v index x, shared v.buffer → ∀ o a, w.storage? o = some a →
    (w.perform (.setElement v index x)).2.contents o = w.contents o
  poked : ∀ r index x, shared r.buffer → ∀ o a, w.storage? o = some a →
    (w.perform (.poke r index x)).2.contents o = w.contents o
  closed : ∀ region o a, w.storage? o = some a →
    (w.perform (.close region)).2.contents o = w.contents o

/-- A buffer that an owner's elements are read from. -/
inductive Shows (w : World) : Owner → Nat → Prop where
  | stored (o : Owner) (a : Growable) (h : w.storage? o = some a) : Shows w o a.buffer
  | borrowed (id : Nat) (view : View) (region : Nat)
      (h : (w.vec id).holding = .borrowed view region) : Shows w (.vec id) view.buffer

theorem elements_eq_of_owned {v : Vec} {a : Growable} (h : v.holding = .owned a) :
    w.elements v = .ok (a.toList w.memory) := by
  unfold elements
  rw [viewOf_of_owned h]
  exact congrArg Except.ok
    (congrArg (List.map _) (Memory.words_eq_of_range rfl rfl rfl rfl))

theorem elements_eq_of_empty {v : Vec} (h : v.holding = .empty) : w.elements v = .ok [] := by
  unfold elements
  rw [viewOf_of_empty h]
  rfl

theorem elements_eq_of_borrowed {v : Vec} {view : View} {region : Nat}
    (h : v.holding = .borrowed view region) :
    w.elements v =
      if w.isOpen region then .ok (w.memory.elements view) else .error (w.ended region) := by
  unfold elements
  rw [viewOf_of_borrowed h]
  split_ifs <;> rfl

theorem toList_congr {m m' : Memory} {a : Growable} (h : m'.buffer a.buffer = m.buffer a.buffer) :
    a.toList m' = a.toList m := Memory.elements_congr (v := a.data 0) h

/-- The elements of a vector come from its buffer, and from its region if it borrows. -/
theorem contents_vec_congr {id : Nat} (hv : w'.vec id = w.vec id)
    (hr : ∀ view region, (w.vec id).holding = .borrowed view region →
      w'.region region = w.region region)
    (hb : ∀ b, w.Shows (.vec id) b → w'.memory.buffer b = w.memory.buffer b) :
    w'.contents (.vec id) = w.contents (.vec id) := by
  change w'.elements (w'.vec id) = w.elements (w.vec id)
  rw [hv]
  cases h : (w.vec id).holding with
  | empty => rw [elements_eq_of_empty h, elements_eq_of_empty h]
  | owned a =>
    have hsame := hb a.buffer (.stored _ a (storage?_vec_of_owned h))
    rw [elements_eq_of_owned h, elements_eq_of_owned h, toList_congr hsame]
  | borrowed view region =>
    have hsame := hb view.buffer (.borrowed id view region h)
    rw [elements_eq_of_borrowed h, elements_eq_of_borrowed h, Memory.elements_congr hsame]
    unfold isOpen ended
    rw [hr view region h]

theorem contents_array_congr {id : Nat} (ha : w'.arrays[id]? = w.arrays[id]?)
    (hb : ∀ b, w.Shows (.array id) b → w'.memory.buffer b = w.memory.buffer b) :
    w'.contents (.array id) = w.contents (.array id) := by
  have harray : w'.array id = w.array id := by
    unfold array
    rw [Array.getD_eq_getD_getElem?, Array.getD_eq_getD_getElem?, ha]
  change Except.ok ((w'.array id).toList w'.memory) = .ok ((w.array id).toList w.memory)
  rw [harray]
  cases h : w.arrays[id]? with
  | some a =>
    rw [w.array_of_getElem? h, toList_congr (hb a.buffer (.stored _ a h))]
  | none =>
    have hzero : w.array id = default := by
      unfold array
      rw [Array.getD_eq_getD_getElem?, h, Option.getD_none]
    rw [hzero]
    rfl

/-- Nothing that an owner shows is in the storage of another. -/
theorem Exclusive.ne_of_shows (he : w.Exclusive) {o o' : Owner} {a : Growable} {b : Nat}
    (ho : w.storage? o = some a) (hne : o' ≠ o) (hs : w.Shows o' b) : a.buffer ≠ b := by
  cases hs with
  | stored o' c hc => exact fun heq => hne (he.apart o' o c a hc ho heq.symm)
  | borrowed id view region h => exact (he.lent _ (.borrowed id view region h)).ne o a ho

theorem Exclusive.lt_of_shows (he : w.Exclusive) {o : Owner} {b : Nat} (hs : w.Shows o b) :
    b < w.memory.buffers.size := by
  cases hs with
  | stored o c hc => exact he.stored o c hc
  | borrowed id view region h => exact (he.lent _ (.borrowed id view region h)).lt

theorem Renews.buffer_eq {o : Owner} {m : Memory} {a : Growable} (h : w.Renews o m a) {b : Nat}
    (hlt : b < w.memory.buffers.size) (hne : ∀ c, w.storage? o = some c → c.buffer ≠ b) :
    m.buffer b = w.memory.buffer b :=
  h.frame b hlt fun ⟨c, hc, heq⟩ => hne c hc heq

theorem Rewrites.buffer_of_foreign {id b : Nat} (h : w.Rewrites id w') (hb : w.Foreign b) :
    w'.memory.buffer b = w.memory.buffer b := by
  rcases h with rfl | ⟨a, m, p, rfl, hr⟩
  · rfl
  · exact hr.buffer_eq hb.lt fun c hc => hb.ne _ c hc

theorem Rewrites.contents_of_ne {id : Nat} (h : w.Rewrites id w') (he : w.Exclusive) {o : Owner}
    (ho : o ≠ .vec id) : w'.contents o = w.contents o := by
  rcases h with rfl | ⟨a, m, p, rfl, hr⟩
  · rfl
  · have hbuf : ∀ b, w.Shows o b → (w.withOwned id a m p).memory.buffer b = w.memory.buffer b :=
      fun b hs => hr.buffer_eq (he.lt_of_shows hs) fun c hc => he.ne_of_shows hc ho hs
    cases o with
    | array j => exact contents_array_congr rfl hbuf
    | vec j =>
      have hj : j ≠ id := fun heq => ho (by rw [heq])
      exact contents_vec_congr (vec_withOwned_of_ne a m p hj) (fun _ _ _ => rfl) hbuf

/-- A swap changes no byte that is not storage. -/
theorem swapWith_buffer {id array b : Nat} (hb : w.Foreign b) :
    ((swapWith id array).after w).memory.buffer b = w.memory.buffer b := by
  by_cases hk : (w.vec id).kind = (w.array array).kind
  · cases h : own id w with
    | error e w' => rw [Action.after_error (swapWith_of_error hk h), own_error h]
    | ok a w' =>
      rw [Action.after_ok (swapWith_ok hk h)]
      obtain ⟨m, p, rfl, hr⟩ := own_ok h
      exact hr.buffer_eq hb.lt fun c hc => hb.ne _ c hc
  · rw [Action.after_error (swapWith_of_ne hk)]

/-- A swap changes the vector and the array, and no byte that is not storage. -/
theorem swapWith_isolated {id array : Nat} (he : w.Exclusive) :
    (∀ b, w.Foreign b → ((swapWith id array).after w).memory.buffer b = w.memory.buffer b) ∧
      ∀ o, o ≠ .vec id → o ≠ .array array →
        ((swapWith id array).after w).contents o = w.contents o := by
  refine ⟨fun b hb => swapWith_buffer hb, fun o h₁ h₂ => ?_⟩
  by_cases hk : (w.vec id).kind = (w.array array).kind
  · cases h : own id w with
    | error e w' => rw [Action.after_error (swapWith_of_error hk h), own_error h]
    | ok a w' =>
      have hown : w.Rewrites id w' := by
        have h' : w.Rewrites id ((own id).after w) := rewrites_own
        rwa [Action.after_ok h] at h'
      rw [Action.after_ok (swapWith_ok hk h)]
      rw [← hown.contents_of_ne he h₁]
      cases o with
      | array j =>
        have hj : j ≠ array := fun heq => h₂ (by rw [heq])
        exact contents_array_congr (getElem?_setArray_of_ne _ _ _ hj) fun _ _ => rfl
      | vec j =>
        have hj : j ≠ id := fun heq => h₁ (by rw [heq])
        exact contents_vec_congr (vec_setHolding_of_ne w' id _ hj) (fun _ _ _ => rfl) fun _ _ => rfl
  · rw [Action.after_error (swapWith_of_ne hk)]

theorem clear_contents {id : Nat} {o : Owner} (ho : o ≠ .vec id) :
    ((clear id).after w).contents o = w.contents o := by
  cases o with
  | array j => exact contents_array_congr rfl fun _ _ => rfl
  | vec j =>
    have hj : j ≠ id := fun heq => ho (by rw [heq])
    exact contents_vec_congr (vec_setHolding_of_ne w id _ hj) (fun _ _ _ => rfl) fun _ _ => rfl

theorem perform_vec_after {α : Type} {id : Nat} {c : VecCommand} {x : Action α}
    (f : World → α → Reply) (h : c.run id w = (x >>= fun a => pure (f w a)) w) :
    (w.perform (.vec id c)).2 = x.after w := by
  have hrun : (Command.vec id c).run w = c.run id w := rfl
  rw [perform_snd]
  unfold Action.after
  rw [hrun, h]
  exact Action.after_map x (f w) w

theorem change_isolated (id : Nat) {c : VecCommand} (he : w.Exclusive) (hc : c.Changes) :
    (∀ b, w.Foreign b → (w.perform (.vec id c)).2.memory.buffer b = w.memory.buffer b) ∧
      ∀ o, o ≠ .vec id → c.partner? ≠ some o →
        (w.perform (.vec id c)).2.contents o = w.contents o := by
  have hrewrites : ∀ {w' : World}, w.Rewrites id w' →
      (∀ b, w.Foreign b → w'.memory.buffer b = w.memory.buffer b) ∧
        ∀ o, o ≠ .vec id → c.partner? ≠ some o → w'.contents o = w.contents o :=
    fun h => ⟨fun _ hb => h.buffer_of_foreign hb, fun _ ho _ => h.contents_of_ne he ho⟩
  cases c with
  | writable =>
    rw [perform_vec_after (x := writableView id) (fun _ v => .view v) rfl]
    exact hrewrites rewrites_writableView
  | set index value =>
    rw [perform_vec_after (x := setAt id index value) (fun _ _ => .done) rfl]
    exact hrewrites (rewrites_setAt index value)
  | push value =>
    rw [perform_vec_after (x := push id value) (fun _ _ => .done) rfl]
    exact hrewrites (rewrites_push value)
  | pop =>
    rw [perform_vec_after (x := pop id) (fun w x => .element (w.vec id).kind x) rfl]
    exact hrewrites rewrites_pop
  | resize length fill =>
    rw [perform_vec_after (x := resize id length fill) (fun _ _ => .done) rfl]
    exact hrewrites (rewrites_resize length fill)
  | swap array =>
    rw [perform_vec_after (x := swapWith id array) (fun _ _ => .done) rfl]
    refine ⟨(swapWith_isolated he).1, fun o h₁ h₂ => (swapWith_isolated he).2 o h₁ fun heq => h₂ ?_⟩
    rw [heq]
    rfl
  | clear =>
    rw [perform_vec_after (x := clear id) (fun _ _ => .done) rfl]
    exact ⟨fun _ _ => rfl, fun _ ho _ => clear_contents ho⟩
  | attach view region => exact hc.elim
  | item index => exact hc.elim
  | unchecked index => exact hc.elim
  | front => exact hc.elim
  | back => exact hc.elim
  | toList => exact hc.elim
  | share => exact hc.elim
  | isView view => exact hc.elim
  | iterate => exact hc.elim

/-- The view for writing lies over the storage that the vector has then. -/
theorem writable_storage {id : Nat} {v : View} (hid : id < w.vecs.size)
    (h : w.perform (.vec id .writable) = (.ok (.view v), w')) :
    ∃ a, w'.storage? (.vec id) = some a ∧ v.buffer = a.buffer := by
  have hrun : (Command.vec id .writable).run w =
      (writableView id >>= fun v => pure (Reply.view v)) w := rfl
  unfold perform at h
  rw [hrun] at h
  cases hown : own id w with
  | error e w₁ =>
    rw [Action.bind_error (writableView_of_error hown)] at h
    cases h
  | ok a w₁ =>
    rw [Action.bind_ok (writableView_ok hown)] at h
    cases h
    obtain ⟨m, p, rfl, -⟩ := own_ok hown
    exact ⟨a, storage?_withOwned_self hid a m p, rfl⟩

/-- A write of memory changes what is shown from the buffer that it is aimed at. -/
theorem contents_of_write {m : Memory} {b : Nat} (hf : w.memory.Frame (· = b) m)
    (he : w.Exclusive) {o : Owner} (ho : ¬ w.Shows o b) :
    ({ w with memory := m } : World).contents o = w.contents o := by
  have hbuf : ∀ c, w.Shows o c → m.buffer c = w.memory.buffer c := by
    intro c hs
    refine hf c (he.lt_of_shows hs) ?_
    rintro rfl
    exact ho hs
  cases o with
  | array j => exact contents_array_congr rfl hbuf
  | vec j => exact contents_vec_congr rfl (fun _ _ _ => rfl) hbuf

/-- A write through a view, whether it is refused or not, changes what is shown from the buffer of the view. -/
theorem contents_setElement {v : View} (he : w.Exclusive) {o : Owner} (ho : ¬ w.Shows o v.buffer)
    (index : Binary64) (x : Scalar) : ((setElement v index x).after w).contents o = w.contents o := by
  rcases after_setElement w v index x with h | h
  · rw [h]
    exact contents_of_write (Memory.frame_setElement w.memory v index x) he ho
  · rw [h]

theorem buffer_setElement {v : View} {b : Nat} (hb : w.Foreign b) (hne : b ≠ v.buffer) (index : Binary64)
    (x : Scalar) : ((setElement v index x).after w).memory.buffer b = w.memory.buffer b := by
  rcases after_setElement w v index x with h | h
  · rw [h]
    exact Memory.frame_setElement w.memory v index x b hb.lt hne
  · rw [h]

/-- What an owner shows from storage is nowhere else. -/
theorem not_shows_of_foreign {o : Owner} {a : Growable} {b : Nat} (ha : w.storage? o = some a)
    (hb : w.Foreign b) : ¬ w.Shows o b := by
  intro hs
  cases hs with
  | stored o c hc => exact hb.ne o c hc rfl
  | borrowed id view region h =>
    rw [owned_of_storage? ha] at h
    cases h

theorem contents_close {region : Nat} {o : Owner} {a : Growable} (ha : w.storage? o = some a) :
    ((close region).after w).contents o = w.contents o := by
  cases o with
  | array j => exact contents_array_congr rfl fun _ _ => rfl
  | vec j =>
    refine contents_vec_congr rfl (fun view reg hh => ?_) fun _ _ => rfl
    rw [owned_of_storage? ha] at hh
    cases hh

/-- What has been shared at any time is nobody's storage ever after. -/
theorem foreign_of_sharedDuring {history : List Command} (he : w.Exclusive)
    (hl : w.LawfulAll history) {b : Nat} (hb : w.SharedDuring history b) :
    (w.performAll history).2.Foreign b := by
  induction history generalizing w with
  | nil =>
    obtain ⟨r, hr, rfl⟩ := hb
    exact he.lent r hr
  | cons c rest ih =>
    have hstep := advances_perform he hl.1
    have he' := hstep.exclusive he
    have hrest := advances_performAll he' hl.2
    rcases hb with ⟨r, hr, rfl⟩ | ⟨r, hr, rfl⟩ | hb
    · exact hrest.foreign _ (hstep.foreign _ (he.lent r hr))
    · exact hrest.foreign _ (hstep.foreign _ (hl.1.outside hr).foreign)
    · exact ih he' hl.2 hb

/-- After every lawful history ownership is exclusive, and nobody's elements can be changed but through
their owner: neither by a change of another vector, nor by a write to bytes that were shared at any time
on the way, nor by the end of a region. -/
theorem isolated_performAll {limit : AllocationLimit} {history : List Command}
    (hl : (empty limit).LawfulAll history) :
    ((empty limit).performAll history).2.Isolated ((empty limit).SharedDuring history) := by
  have hadv := advances_performAll exclusive_empty hl
  have hforeign := fun b hb => foreign_of_sharedDuring exclusive_empty hl (b := b) hb
  have he := hadv.exclusive exclusive_empty
  clear hadv
  generalize ((empty limit).performAll history).2 = w at he hforeign
  refine ⟨?_, ?_, ?_, ?_, ?_, ?_, ?_, ?_⟩
  · intro o o' a a' ha ha' hne heq
    exact hne (he.apart o o' a a' ha ha' heq)
  · intro o a ha hs
    exact (hforeign _ hs).ne o a ha rfl
  · intro id c _ hc _
    obtain ⟨hb, ho⟩ := change_isolated id he hc
    exact ⟨fun b hs => hb b (hforeign b hs), ho⟩
  · intro id v w' h hid
    exact writable_storage hid h
  · intro o a v index x ha hv
    have hafter : (w.perform (.setElement v index x)).2 = (setElement v index x).after w := by
      rw [perform_snd]
      exact Action.after_done _ w
    rw [hafter]
    refine ⟨fun b hs => ?_, fun o' ho => ?_⟩
    · refine buffer_setElement (hforeign b hs) ?_ index x
      rintro rfl
      exact (hforeign _ hs).ne o a ha hv.symm
    · exact contents_setElement he (fun hs => he.ne_of_shows ha ho hs hv.symm) index x
  · intro v index x hs o a ha
    rw [perform_snd]
    refine (congrArg (contents · o) (Action.after_done _ w)).trans ?_
    exact contents_setElement he (not_shows_of_foreign ha (hforeign _ hs)) index x
  · intro r index x hs o a ha
    rw [perform_snd]
    refine (congrArg (contents · o) (Action.after_done _ w)).trans ?_
    exact contents_setElement he (not_shows_of_foreign ha (hforeign _ hs)) index x
  · intro region o a ha
    exact contents_close ha

/-- Bytes are lent, borrowed, and copied when the vector is first written to. -/
def borrowThenWrite : List Command :=
  [.alloc [1, 2, 3, 4, 5, 6, 7, 8], .lend ⟨0, 0, 8, false⟩ [], .newVec .u8 false,
    .vec 0 (.attach ⟨.u8, 0, 0, 8, 0⟩ 0), .vec 0 .writable]

theorem isolated_borrowThenWrite :
    empty.LawfulAll borrowThenWrite ∧ empty.SharedDuring borrowThenWrite 0 ∧
      (empty.performAll borrowThenWrite).2.Isolated (empty.SharedDuring borrowThenWrite) := by
  have hl : empty.LawfulAll borrowThenWrite := by
    refine ⟨?_, ?_, ?_, ?_, ?_, trivial⟩
    · intro r hr
      cases hr
    · intro r hr
      obtain rfl := List.mem_singleton.1 hr
      refine outside_of_no_storage (fun o => ?_) ⟨by decide, by decide⟩ rfl
      cases o <;> rfl
    · intro r hr
      cases hr
    · refine ⟨Nat.one_pos, outside_of_no_storage (fun o => ?_) ⟨by decide, by decide⟩ rfl⟩
      cases o with
      | vec id => rcases id with _ | id <;> rfl
      | array id => rfl
    · exact ⟨Nat.one_pos, trivial⟩
  have hshared : (empty.perform (.alloc [1, 2, 3, 4, 5, 6, 7, 8])).2.SharedDuring
      borrowThenWrite.tail 0 :=
    Or.inr (Or.inl ⟨⟨0, 0, 8, false⟩, List.mem_singleton_self _, rfl⟩)
  exact ⟨hl, Or.inr (Or.inr hshared), isolated_performAll hl⟩

/-- The bytes of one field of three elements, which share their slices, are read into two vectors. -/
def readTwice : List Command :=
  [.alloc [3, 0, 0, 0, 0, 0, 0, 0, 1, 2, 3], .newReader ⟨0, 0, 11, true⟩, .newReader ⟨0, 0, 11, true⟩,
    .newVec .u8 false, .newVec .u8 false, .reader 0 (.field 0 (ofNat 1) {}),
    .reader 1 (.field 1 (ofNat 1) {})]

/-- Both vectors own the source's buffer, though it was nobody's storage when it was given to the readers. A
write to one of them changes the source and the other, and a write to the source changes both. -/
theorem shared_slices_are_not_isolated :
    (∀ o, (empty.performAll (readTwice.take 3)).2.storage? o = none) ∧
    ((empty.performAll readTwice).2.storage? (.vec 0)).map Growable.buffer = some 0 ∧
    ((empty.performAll readTwice).2.storage? (.vec 1)).map Growable.buffer = some 0 ∧
    (empty.performAll (readTwice ++ [.vec 0 (.set (ofNat 0) (.number 9))])).2.bytes ⟨0, 8, 3, true⟩ =
      [9, 2, 3] ∧
    ((empty.performAll (readTwice ++ [.vec 0 (.set (ofNat 0) (.number 9))])).2.contents (.vec 1)).toOption =
      some [.number 9, .number 2, .number 3] ∧
    ((empty.performAll (readTwice ++ [.poke ⟨0, 8, 3, true⟩ (ofNat 0) (.number 7)])).2.contents
      (.vec 0)).toOption = some [.number 7, .number 2, .number 3] ∧
    ¬ (empty.performAll readTwice).2.Isolated (empty.SharedDuring readTwice) := by
  have h₀ : ((empty.performAll readTwice).2.storage? (.vec 0)).map Growable.buffer = some 0 := by
    decide +kernel
  have h₁ : ((empty.performAll readTwice).2.storage? (.vec 1)).map Growable.buffer = some 0 := by
    decide +kernel
  refine ⟨fun o => ?_, h₀, h₁, by decide +kernel, by decide +kernel, by decide +kernel, fun h => ?_⟩
  · cases o <;> rfl
  · obtain ⟨a, ha, hzero⟩ := Option.map_eq_some_iff.1 h₀
    obtain ⟨a', ha', hzero'⟩ := Option.map_eq_some_iff.1 h₁
    exact h.apart _ _ a a' ha ha' (by decide) (hzero.trans hzero'.symm)

end World

end LeaseVec
