import LeaseVec.Proofs.Lists.Steps

/-!
# What vectors do is what lists do

Every command that is given to a vector ends in a world that represents the list after the plain step, with
an answer that shows what the plain step answers. Wherever the elements lay before, a change is made to
storage that holds the same list.
-/

namespace LeaseVec.World

open Number

variable {w w' : World} {s : Plain} {id : Nat}

theorem at?_ne_refused (p : PlainVec) (index : Binary64) :
    p.at? index ≠ .error .allocationRefused := by
  unfold PlainVec.at?
  cases p.find? index <;> simp

theorem get?_ne_refused (p : PlainVec) (index : Binary64) :
    p.get? index ≠ .error .allocationRefused := by
  unfold PlainVec.get?
  split_ifs
  · exact at?_ne_refused p index
  · simp

theorem front?_ne_refused (p : PlainVec) : p.front? ≠ .error .allocationRefused := by
  unfold PlainVec.front?
  cases p.items.head? <;> simp

theorem back?_ne_refused (p : PlainVec) : p.back? ≠ .error .allocationRefused := by
  unfold PlainVec.back?
  cases p.items.getLast? <;> simp

/-- A question about an element changes nothing, and is answered from the list. -/
theorem refines_ask (h : w.Represents s) {c : VecCommand}
    {question : World → Except Fault (Option Scalar)} {answer : Except Fault (Option Scalar)}
    (hc : (Command.vec id c).run w =
      (Action.ask question >>= fun a => pure (Reply.element (w.vec id).kind a)) w)
    (hq : question w = answer) (hne : answer ≠ .error .allocationRefused)
    (hs : s.vecStep id w.memory.elements true c = s.ask id answer) : w.Refines s (.vec id c) := by
  cases answer with
  | ok x =>
    refine refines_ok (perform_ok hc (ask_ok hq)) (hs.trans ?_) h
    rw [(h.vec id).kind]
    rfl
  | error e =>
    exact refines_error (perform_error hc (ask_error hq)) (fun heq => hne (by rw [heq])) hs h

theorem refines_toList (h : w.Represents s) : w.Refines s (.vec id .toList) := by
  have hc : (Command.vec id .toList).run w =
      (Action.ask (fun u => u.elements (w.vec id)) >>= fun a =>
        pure (Reply.elements (w.vec id).kind a)) w := rfl
  refine refines_ok (perform_ok hc (ask_ok (h.vec id).items)) ?_ h
  rw [(h.vec id).kind]
  rfl

theorem frame_countView (m : Memory) : m.Frame (fun _ => False) (countView m) := fun _ _ _ => rfl

theorem elements_of_length_eq_zero (m : Memory) {view : View} (h : view.length = 0) :
    m.elements view = [] := by
  unfold Memory.elements Memory.words
  rw [h]
  rfl

/-- A view that is shared shows what it showed. There may be a new buffer for a view of nothing. -/
theorem shareView_ok {view : View} (hv : w.viewOf (w.vec id) = .ok view) :
    ∃ m, shareView id w = .ok view { w with memory := m } ∧ w.memory.Grows m ∧
      w.memory.Frame (fun _ => False) m ∧ m.elements view = w.memory.elements view := by
  have hshare : shareView id w = (if (w.vec id).mode = .empty then
      (alloc [] >>= fun _ => nextSerial >>= fun _ => pure view)
      else (nextSerial >>= fun _ => pure view)) w := by
    change (Action.ofExcept (w.viewOf (w.vec id)) >>= _) w = _
    rw [hv]
    split_ifs <;> rfl
  rw [hshare]
  split_ifs with hm
  · refine ⟨countView (w.memory.alloc []).2, rfl, ?_, Memory.frame_alloc _ _ _, ?_⟩
    · exact (Memory.grows_alloc ..).trans (grows_countView _)
    · have hnone : view.length = 0 := by
        rw [viewOf_of_empty (Vec.mode_eq_empty.1 hm)] at hv
        cases hv
        rfl
      rw [elements_of_length_eq_zero _ hnone, elements_of_length_eq_zero _ hnone]
  · exact ⟨countView w.memory, rfl, grows_countView _, frame_countView _, rfl⟩

theorem refines_share (h : w.Represents s) (he : w.Exclusive) (hi : w.InBounds) :
    w.Refines s (.vec id .share) := by
  have hc : (Command.vec id .share).run w =
      (shareView id >>= fun v => pure (Reply.view v)) w := rfl
  obtain ⟨view, hv, hshow, hk, -, -⟩ := (h.vec id).viewOf hi
  obtain ⟨m, hshare, hg, hf, hsame⟩ := shareView_ok hv
  have hr := h.of_memory he hg hf
  refine refines_ok (perform_ok hc hshare) ?_ hr
  change (Except.ok (Reply.elements (s.vec id).kind (s.vec id).items), s) =
    (.ok (.elements view.kind (m.elements view)), s)
  rw [hsame, hshow, hk]

variable {items : List Scalar} {m : Memory} {a : Growable}

theorem Stores.fits {p : PlainVec} (h : w.Stores id p items m a) (hi : w.InBounds)
    (hm : m.Addressable) : a.Fits m := h.renews.fits hm hi

/-- A change of owned storage that grows the list, or is refused. -/
theorem refines_grow (h : w.Represents s) (he : w.Exclusive) (hi : w.InBounds)
    (hid : id < w.vecs.size) {c : VecCommand}
    (hm : (w.perform (.vec id c)).2.memory.Addressable)
    (change : Memory → Growable → Except Fault (Growable × Memory)) (items' : List Scalar)
    (hc : (Command.vec id c).run w = (changeOwned id change >>= fun _ => pure .done) w)
    (hs : ∀ granted, s.vecStep id w.memory.elements granted c = s.grow id granted items')
    (hupdates : ∀ m a a' m', change m a = .ok (a', m') → Growable.Updates m a m' a')
    (hok : ∀ m a a' m', w.Stores id (s.vec id) (s.vec id).items m a → m.Addressable →
      change m a = .ok (a', m') → a'.toList m' = items')
    (herror : ∀ m a e, w.Stores id (s.vec id) (s.vec id).items m a → m.Addressable →
      change m a = .error e → e = .allocationRefused ∧ s.Large m.limit (.vec id c)) :
    w.Refines s (.vec id c) := by
  obtain ⟨a, m, q, hown, hst⟩ := (h.vec id).own_ok hi
  cases hstep : change m a with
  | ok r =>
    obtain ⟨a', m'⟩ := r
    have hchanged := changeOwned_ok hown hstep
    rw [withOwned_withOwned] at hchanged
    have hp := perform_ok hc hchanged
    rw [hp] at hm
    have hu := hupdates m a a' m' hstep
    have hst' := hst.update hu (hok m a a' m' hst (hm.of_grows hu.grows) hstep)
    have hr := h.withOwned he hid hst' (w.withOwned id a m q).promotions
    exact refines_ok hp (hs true) hr
  | error e =>
    have hp := perform_error hc (changeOwned_error hown hstep)
    rw [hp] at hm
    obtain ⟨rfl, hl⟩ := herror m a e hst hm hstep
    rw [hst.renews.grows.limit_eq] at hl
    have hr := h.withOwned he hid hst q
    exact refines_refused hp hl (hs false) hr

theorem refines_push (h : w.Represents s) (he : w.Exclusive) (hi : w.InBounds)
    (hid : id < w.vecs.size) {value : Scalar} (hv : (w.vec id).kind.admits value = true)
    (hm : (w.perform (.vec id (.push value))).2.memory.Addressable) :
    w.Refines s (.vec id (.push value)) := by
  have hc : (Command.vec id (.push value)).run w =
      (changeOwned id (fun m a => a.push m value) >>= fun _ => pure Reply.done) w :=
    Action.bind_congr _ ((push_eq w id value).trans (if_pos hv))
  refine refines_grow h he hi hid hm (fun m a => a.push m value) _ hc (fun _ => rfl)
    (fun _ _ _ _ hstep => Growable.updates_push hstep) (fun m a a' m' hst hm hstep => ?_)
    fun m a e hst hm hstep => ?_
  · rw [Growable.toList_push hm (hst.fits hi hm) (hst.renews.buffer_lt he) hstep, hst.items,
      hst.kind]
  · obtain ⟨rfl, hlarge⟩ := Growable.push_error hm (hst.fits hi hm) hstep
    refine ⟨rfl, ?_⟩
    rwa [← (hst.fits hi hm).length_toList, hst.items] at hlarge

theorem refines_resize (h : w.Represents s) (he : w.Exclusive) (hi : w.InBounds)
    (hid : id < w.vecs.size) (length : Binary64) {fill : Option Scalar}
    (hv : (w.vec id).kind.admits (fill.getD (w.vec id).kind.zero) = true)
    (hm : (w.perform (.vec id (.resize length fill))).2.memory.Addressable) :
    w.Refines s (.vec id (.resize length fill)) := by
  have hrun := resize_eq w id length fill
  cases hn : length.toNat? with
  | none =>
    rw [if_pos (by rw [lengthOf?, hn]; rfl)] at hrun
    have hc : (Command.vec id (.resize length fill)).run w =
        (resize id length fill >>= fun _ => pure Reply.done) w := rfl
    have hfail : s.vecStep id w.memory.elements true (.resize length fill) =
        (.error (.invalidSize length), s) := by
      simp only [Plain.vecStep, hn]
    exact refines_error (perform_error hc hrun) (by simp) hfail h
  | some n =>
    rw [if_neg (by rw [lengthOf?, hn]; exact Bool.false_ne_true), if_pos (by rw [hv]; rfl)] at hrun
    have hc : (Command.vec id (.resize length fill)).run w =
        (changeOwned id (fun m a => a.resize m length (fill.getD a.kind.zero)) >>= fun _ =>
          pure Reply.done) w := Action.bind_congr _ hrun
    refine refines_grow h he hi hid hm _ (extendTo (s.vec id).items n
        ((s.vec id).kind.held (fill.getD (s.vec id).kind.zero))) hc (fun granted => ?_)
      (fun _ _ _ _ hstep => Growable.updates_resize hstep) (fun m a a' m' hst hm hstep => ?_)
      fun m a e hst hm hstep => ?_
    · simp only [Plain.vecStep, hn]
    · have hfits := hst.fits hi hm
      rw [Growable.toList_resize hm hfits (hst.renews.buffer_lt he) (Binary64.whole_of_toNat? hn)
        hstep, hst.items, hst.kind, ← hfits.length_toList, hst.items]
      rfl
    · rcases Growable.resize_error hm (hst.fits hi hm) hstep with ⟨hnone, -⟩ | ⟨rfl, hlarge⟩
      · rw [hn] at hnone
        cases hnone
      · exact ⟨rfl, hlarge⟩

theorem refines_set (h : w.Represents s) (he : w.Exclusive) (hi : w.InBounds)
    (hid : id < w.vecs.size) (index : Binary64) {value : Scalar}
    (hv : (w.vec id).kind.admits value = true)
    (hm : (w.perform (.vec id (.set index value))).2.memory.Addressable) :
    w.Refines s (.vec id (.set index value)) := by
  have hc : (Command.vec id (.set index value)).run w =
      (setAt id index value >>= fun _ => pure Reply.done) w := rfl
  have hset : setAt id index value w =
      (Action.ofExcept (acceptIndex index (s.vec id).items.length) >>= fun i =>
        changeOwned id fun m a => .ok (a, m.writeWords a.slots i [a.kind.store value])) w := by
    rw [← (h.vec id).size_eq hi, setAt_eq]
    simp only [hv, if_true]
  rw [acceptIndex_eq (s.vec id) rfl index] at hset
  cases hfind : (s.vec id).find? index with
  | none =>
    rw [hfind] at hset
    have hfail : s.vecStep id w.memory.elements true (.set index value) =
        (.error (.outOfRange index (s.vec id).items.length), s) := by
      simp only [Plain.vecStep, hfind]
    exact refines_error (perform_error hc hset) (by simp) hfail h
  | some x =>
    cases hn : index.toNat? with
    | none => simp [PlainVec.find?, hn] at hfind
    | some i =>
      rw [hfind, hn] at hset
      have hstep : s.vecStep id w.memory.elements true (.set index value) =
          (.ok .done, s.changeVec id
            ((s.vec id).own ((s.vec id).items.set i ((s.vec id).kind.held value)))) := by
        simp only [Plain.vecStep, hfind, hn]
      obtain ⟨a, m, q, hown, hst⟩ := (h.vec id).own_ok hi
      have hchanged : changeOwned id
          (fun m a => .ok (a, m.writeWords a.slots i [a.kind.store value])) w =
          .ok () (w.withOwned id a (m.writeWords a.slots i [a.kind.store value]) q) :=
        (changeOwned_ok hown rfl).trans (by rw [withOwned_withOwned]; rfl)
      have hp := perform_ok hc (hset.trans hchanged)
      rw [hp] at hm
      have hu : Growable.Updates m a (m.writeWords a.slots i [a.kind.store value]) a :=
        (Growable.Updates.refl m a).write i _ fun _ ha => ⟨ha.length_le, ha.signed⟩
      have hfits := hst.fits hi (hm.of_grows hu.grows)
      have hlt : i < a.length := by
        rw [← hfits.length_toList, hst.items]
        simp only [PlainVec.find?, hn, Option.bind_some] at hfind
        exact (List.getElem?_eq_some_iff.1 hfind).1
      have hitems : a.toList (m.writeWords a.slots i [a.kind.store value]) =
          (s.vec id).items.set i ((s.vec id).kind.held value) := by
        rw [Growable.toList_set hfits (hst.renews.buffer_lt he) hlt, hst.items, hst.kind]
      have hr := h.withOwned he hid (hst.update hu hitems) q
      exact refines_ok hp hstep hr

theorem refines_pop (h : w.Represents s) (he : w.Exclusive) (hi : w.InBounds)
    (hid : id < w.vecs.size) (hm : (w.perform (.vec id .pop)).2.memory.Addressable) :
    w.Refines s (.vec id .pop) := by
  have hc : (Command.vec id .pop).run w =
      (pop id >>= fun x => pure (Reply.element (w.vec id).kind x)) w := rfl
  obtain ⟨a, m, q, hown, hst⟩ := (h.vec id).own_ok hi
  have hpopped := pop_ok hown
  rw [withOwned_withOwned] at hpopped
  have hp := perform_ok hc hpopped
  rw [hp] at hm
  obtain ⟨hlast, hrest⟩ := Growable.pop_spec (hst.fits hi hm)
  have hst' := hst.update (Growable.updates_pop m a) hrest
  rw [hst.items] at hst'
  have hr := h.withOwned he hid hst' q
  refine refines_ok hp ?_ hr
  change (Except.ok (Reply.element (s.vec id).kind (s.vec id).items.getLast?), _) =
    (Except.ok (Reply.element (w.vec id).kind (a.pop m).1), _)
  rw [hlast, hst.items, (h.vec id).kind]

/-- The view for writing shows the list, and asking for it gives the vector storage. -/
theorem refines_writable (h : w.Represents s) (he : w.Exclusive) (hi : w.InBounds)
    (hid : id < w.vecs.size) : w.Refines s (.vec id .writable) := by
  have hc : (Command.vec id .writable).run w =
      (writableView id >>= fun v => pure (Reply.view v)) w := rfl
  obtain ⟨a, m, q, hown, hst⟩ := (h.vec id).own_ok hi
  have hcounted : a.toList (countView m) = (s.vec id).items := hst.items
  have hr := h.withOwned he hid (hst.update (updates_countView m a) hcounted) q
  refine refines_ok (perform_ok hc (writableView_ok hown)) ?_ hr
  have hview : (countView m).elements (a.data m.views) = (s.vec id).items := by
    rw [← hst.items]
    exact congrArg (List.map _) (Memory.words_eq_of_range rfl rfl rfl rfl)
  change (Except.ok (Reply.elements (s.vec id).kind (s.vec id).items), _) =
    (Except.ok (Reply.elements a.kind ((countView m).elements (a.data m.views))), _)
  rw [hview, hst.kind]

/-- A step that replaces what a vector holds and does not touch memory. -/
theorem Represents.setHolding (h : w.Represents s) (he : w.Exclusive) (hid : id < w.vecs.size)
    {holding : Holding} {p : PlainVec} (hf : ∀ b, w.Foreign b → (w.setHolding id holding).Foreign b)
    (hp : (w.setHolding id holding).IsVec { w.vec id with holding := holding } p) :
    (w.setHolding id holding).Represents (s.changeVec id p) := by
  have hspares : w.Spares (w.setHolding id holding) (· = .vec id) :=
    spares_of_memory_eq rfl rfl (size_vecs_setHolding ..).ge hf
      (fun j hj => vec_setHolding_of_ne w id holding fun heq => hj (by rw [heq])) fun _ _ => rfl
  refine h.changeVec he hspares (size_vecs_setHolding ..) rfl rfl ?_
  rwa [vec_setHolding_self w holding hid]

theorem refines_clear (h : w.Represents s) (he : w.Exclusive) (hid : id < w.vecs.size) :
    w.Refines s (.vec id .clear) := by
  have hc : (Command.vec id .clear).run w =
      (clear id >>= fun _ => pure Reply.done) w := rfl
  have hp : (w.setHolding id .empty).IsVec { w.vec id with holding := .empty }
      { s.vec id with mode := .empty, items := [] } :=
    ⟨(h.vec id).kind, (h.vec id).checked, rfl, elements_eq_of_empty rfl, fun _ _ hh => by cases hh⟩
  have hadv : w.Advances ((clear id).after w) := advances_clear
  have hr := h.setHolding he hid hadv.foreign hp
  exact refines_ok (perform_ok hc rfl) rfl hr

/-- A view is attached to a vector that does not own its elements; then these are what the view shows. -/
theorem refines_attach (h : w.Represents s) (he : w.Exclusive) (hid : id < w.vecs.size) {view : View}
    {region : Nat} (ho : w.isOpen region = true) (hout : w.Outside view.range)
    (hk : view.kind = (w.vec id).kind) :
    w.Refines s (.vec id (.attach view region)) := by
  have hc : (Command.vec id (.attach view region)).run w =
      (attach id view region >>= fun _ => pure Reply.done) w := rfl
  have hattach : attach id view region w = (if (w.vec id).mode = .owned then
      throw Fault.alreadyOwned else set (w.setHolding id (.borrowed view region)) :
        Action Unit) w := by
    change (if (w.vec id).mode = .owned then throw Fault.alreadyOwned else
      if w.isOpen region then set (w.setHolding id (.borrowed view region))
      else throw (w.ended region) : Action Unit) w = _
    rw [ho]
    rfl
  have hmode := (h.vec id).mode
  have hstep : s.vecStep id w.memory.elements true (.attach view region) =
      if (s.vec id).mode = .owned then (.error .alreadyOwned, s)
      else (.ok .done,
        s.changeVec id { s.vec id with mode := .borrowed, items := w.memory.elements view }) := rfl
  split_ifs at hattach with hm
  · rw [if_pos (hmode ▸ hm)] at hstep
    exact refines_error (perform_error hc hattach) (by simp) hstep h
  · rw [if_neg (hmode ▸ hm)] at hstep
    have hopen : (w.setHolding id (.borrowed view region)).isOpen region = true := ho
    have hp : (w.setHolding id (.borrowed view region)).IsVec
        { w.vec id with holding := .borrowed view region }
        { s.vec id with mode := .borrowed, items := w.memory.elements view } := by
      refine ⟨(h.vec id).kind, (h.vec id).checked, rfl, ?_, fun v r hh => ?_⟩
      · rw [elements_eq_of_borrowed rfl, if_pos hopen]
        rfl
      · cases hh
        exact hk
    have hadv : w.Advances ((attach id view region).after w) :=
      advances_attach fun _ => ⟨hout.foreign, hout.covers⟩
    rw [Action.after_ok hattach] at hadv
    have hr := h.setHolding he hid hadv.foreign hp
    exact refines_ok (perform_ok hc hattach) hstep hr

/-- The exchange of storage touches nothing but the vector and the array. -/
theorem spares_withExchanged {a : Growable} {m : Memory} {array : Nat} (he : w.Exclusive)
    (hr : w.Renews (.vec id) m a) (q : Array Promotion) (hid : id < w.vecs.size)
    (harray : array < w.arrays.size) (hk : (w.vec id).kind = (w.array array).kind) :
    w.Spares ((w.withOwned id a m q).withExchanged id array a)
      fun o => o = .vec id ∨ o = .array array := by
  have hexchange : (w.withOwned id a m q).Exchanges
      ((w.withOwned id a m q).withExchanged id array a) (.vec id) (.array array) := by
    refine exchanges_withExchanged harray ?_ (storage?_withOwned_self hid a m q)
    rw [vec_withOwned_self a m q hid]
    exact hk
  have hsecond : (w.withOwned id a m q).Spares
      ((w.withOwned id a m q).withExchanged id array a)
      fun o => o = .vec id ∨ o = .array array :=
    spares_of_memory_eq rfl rfl (size_vecs_setHolding ..).ge (fun _ hb => hexchange.foreign hb)
      (fun j hj => vec_setHolding_of_ne _ id _ fun heq => hj (Or.inl (by rw [heq])))
      fun j hj => getElem?_setArray_of_ne _ array a fun heq => hj (Or.inr (by rw [heq]))
  exact ((hr.spares he q).mono fun _ ho => Or.inl ho).trans hsecond

theorem Represents.exchange (h : w.Represents s) (he : w.Exclusive) {a : Growable} {m : Memory}
    {array : Nat} (hst : w.Stores id (s.vec id) (s.vec id).items m a) (q : Array Promotion)
    (hid : id < w.vecs.size) (harray : array < w.arrays.size)
    (hk : (w.vec id).kind = (w.array array).kind) :
    ((w.withOwned id a m q).withExchanged id array a).Represents
      ((s.changeVec id ((s.vec id).own (s.array array).items)).setArray array
        { s.array array with items := (s.vec id).items }) := by
  have hsame : (w.array array).toList m = (s.array array).items := by
    rw [← (h.array array).items]
    exact toList_congr ((hst.renews.spares he q).buffer (.array array) _ (by simp)
      (storage?_array harray))
  refine h.of_spares he (spares_withExchanged he hst.renews q hid harray hk) ?_ (fun j hj => ?_)
    (fun j hj => ?_) ?_ (fun j hj => ?_) (fun j hj => ?_) rfl rfl (fun j => (h.walk j).disturb id)
    fun j vec position hrun => ?_
  · exact (size_vecs_setHolding ..).trans ((size_vecs_withOwned ..).trans h.vecCount)
  · rcases hj with hj | hj
    · cases hj
      change IsVec _ (((w.withOwned id a m q).setHolding id _).vec id)
        (Function.update s.vec id ((s.vec id).own (s.array array).items) id)
      rw [vec_setHolding_self _ _ (by simpa using hid), Function.update_self]
      exact isVec_owned rfl ((kind_vec_withOwned ..).trans (h.vec id).kind)
        ((checked_vec_withOwned ..).trans (h.vec id).checked) rfl hsame
    · cases hj
  · exact Function.update_of_ne (fun heq => hj (Or.inl (by rw [heq]))) ..
  · exact (size_arrays_setArray ..).trans h.arrayCount
  · rcases hj with hj | hj
    · cases hj
    · cases hj
      have hnow : ((w.withOwned id a m q).withExchanged id array a).array array = a :=
        array_setArray_self ((w.withOwned id a m q).setHolding id _) a harray
      rw [hnow]
      change IsArray _ a
        (Function.update s.array array { s.array array with items := (s.vec id).items } array)
      rw [Function.update_self]
      refine ⟨?_, hst.items⟩
      rw [hst.kind, ← (h.vec id).kind, hk]
      exact (h.array array).kind
  · exact Function.update_of_ne (fun heq => hj (Or.inr (by rw [heq]))) ..
  · simpa using vec_ne_of_disturb hrun

theorem refines_swap (h : w.Represents s) (he : w.Exclusive) (hi : w.InBounds)
    (hid : id < w.vecs.size) {array : Nat} (harray : array < w.arrays.size) :
    w.Refines s (.vec id (.swap array)) := by
  have hc : (Command.vec id (.swap array)).run w =
      (swapWith id array >>= fun _ => pure Reply.done) w := rfl
  have hstep : s.vecStep id w.memory.elements true (.swap array) =
      if (s.vec id).kind ≠ (s.array array).kind then
        (.error (.kindsDiffer (s.vec id).kind (s.array array).kind), s)
      else (.ok .done,
        (s.changeVec id ((s.vec id).own (s.array array).items)).setArray array
          { s.array array with items := (s.vec id).items }) := rfl
  rw [← (h.vec id).kind, ← (h.array array).kind] at hstep
  by_cases hk : (w.vec id).kind = (w.array array).kind
  · rw [if_neg fun hne => hne hk] at hstep
    obtain ⟨a, m, q, hown, hst⟩ := (h.vec id).own_ok hi
    exact refines_ok (perform_ok hc (swapWith_ok hk hown)) hstep
      (h.exchange he hst q hid harray hk)
  · rw [if_pos hk] at hstep
    exact refines_error (perform_error hc (swapWith_of_ne hk)) (by simp) hstep h

theorem refines_iterate (h : w.Represents s) (he : w.Exclusive) :
    w.Refines s (.vec id .iterate) := by
  have hc : (Command.vec id .iterate).run w =
      (iterate id >>= fun i => pure (Reply.made i)) w := rfl
  have hstep : s.vecStep id w.memory.elements true .iterate =
      (.ok (.made w.iterations.size), s.addWalk (.fresh id)) := by
    rw [h.walkCount]
    rfl
  exact refines_ok (perform_ok hc rfl) hstep (h.addWalk he rfl)

end LeaseVec.World
