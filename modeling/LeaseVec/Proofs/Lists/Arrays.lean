import LeaseVec.Proofs.Lists.Steps

/-!
# What arrays, new vectors and walks do is what lists do

The commands that are not given to a vector. An array is changed where it is, so a request that is refused
leaves its list alone. A walk delivers the elements of the list from front to back.
-/

namespace LeaseVec.World

open Number

variable {w w' : World} {s : Plain} {id : Nat} {m : Memory}
  {a : Growable} {items : List Scalar}

/-- A step of an array changes its list and no other. -/
theorem Represents.withArray (h : w.Represents s) (he : w.Exclusive) (hid : id < w.arrays.size)
    (hu : Growable.Updates w.memory (w.array id) m a) (hitems : a.toList m = items) :
    ({ w with memory := m }.setArray id a).Represents
      (s.setArray id { s.array id with items := items }) := by
  have hspares : w.Spares ({ w with memory := m }.setArray id a) (· = .array id) :=
    (renews_array hid hu).places_array.spares he rfl le_rfl (fun _ _ => rfl) fun j hj =>
      getElem?_setArray_of_ne _ id a fun heq => hj (by rw [heq])
  refine h.setArray he hspares rfl (size_arrays_setArray ..) rfl ?_
  rw [array_setArray_self { w with memory := m } a hid]
  exact ⟨hu.kind_eq.trans (h.array id).kind, hitems⟩

/-- An array that has got room for its new elements. -/
theorem refines_granted (h : w.Represents s) (he : w.Exclusive) (hid : id < w.arrays.size)
    {c : ArrayCommand} {reply : Reply}
    (hp : w.perform (.array id c) = (.ok reply, { w with memory := m }.setArray id a))
    (hseen : reply.seen m = .done) (hu : Growable.Updates w.memory (w.array id) m a)
    (hitems : a.toList m = items)
    (hs : s.arrayStep id true c = s.growArray id true items) : w.Refines s (.array id c) := by
  have hr := h.withArray he hid hu hitems
  refine refines_ok hp (hs.trans ?_) hr
  change _ = (Except.ok (reply.seen m), _)
  rw [hseen]
  rfl

theorem refines_denied (h : w.Represents s) {c : ArrayCommand}
    (hp : w.perform (.array id c) = (.error .allocationRefused, w)) (hl : s.Large w.memory.limit (.array id c))
    (hs : s.arrayStep id false c = s.growArray id false items) : w.Refines s (.array id c) :=
  refines_refused hp hl hs h

theorem refines_reserve (h : w.Represents s) (he : w.Exclusive) (hi : w.InBounds)
    (hm : w.memory.Addressable) (hid : id < w.arrays.size) (extra : Binary64) :
    w.Refines s (.array id (.reserve extra)) := by
  have hc : (Command.array id (.reserve extra)).run w =
      (reserve id extra >>= fun b => pure (Reply.truth b)) w := rfl
  have hfits := hi.fits _ _ (storage?_array hid)
  have hlt := he.stored _ _ (storage?_array hid)
  cases hr : (w.array id).reserve w.memory extra with
  | ok r =>
    obtain ⟨moved, a, m⟩ := r
    exact refines_granted h he hid (perform_ok hc (reserveArray_ok hr)) rfl (Growable.updates_reserve hr)
      ((Growable.toList_reserve hfits hlt hr).trans (h.array id).items) rfl
  | error e =>
    obtain rfl := Growable.reserve_error hr
    refine refines_denied h (perform_error hc (reserveArray_error hr)) (fun n hn => ?_) rfl
    rw [← (h.array id).items, hfits.length_toList]
    exact Growable.large_of_reserve_error hm hfits hr hn

theorem refines_pushArray (h : w.Represents s) (he : w.Exclusive) (hi : w.InBounds)
    (hm : w.memory.Addressable) (hid : id < w.arrays.size) {value : Scalar}
    (hv : (w.array id).kind.admits value = true) : w.Refines s (.array id (.push value)) := by
  have hc : (Command.array id (.push value)).run w =
      (changeArray id (fun m a => a.push m value) >>= fun _ => pure Reply.done) w :=
    Action.bind_congr _ ((pushArray_eq w id value).trans (if_pos hv))
  have hfits := hi.fits _ _ (storage?_array hid)
  have hlt := he.stored _ _ (storage?_array hid)
  cases hr : (w.array id).push w.memory value with
  | ok r =>
    refine refines_granted h he hid (perform_ok hc (changeArray_ok hr)) rfl
      (Growable.updates_push hr) (Growable.toList_push hm hfits hlt hr) ?_
    rw [(h.array id).items, (h.array id).kind]
    rfl
  | error e =>
    obtain ⟨rfl, hlarge⟩ := Growable.push_error hm hfits hr
    refine refines_denied h (perform_error hc (changeArray_error hr)) ?_ rfl
    rwa [← hfits.length_toList, (h.array id).items] at hlarge

theorem refines_resizeArray (h : w.Represents s) (he : w.Exclusive) (hi : w.InBounds)
    (hm : w.memory.Addressable) (hid : id < w.arrays.size) (length : Binary64) {fill : Scalar}
    (hv : (w.array id).kind.admits fill = true) : w.Refines s (.array id (.resize length fill)) := by
  have hrun := (resizeArray_eq w id length fill).trans (if_pos (by rw [hv]; rfl))
  have hc : (Command.array id (.resize length fill)).run w =
      (changeArray id (fun m a => a.resize m length fill) >>= fun _ => pure Reply.done) w :=
    Action.bind_congr _ hrun
  have hstep : ∀ granted n, length.toNat? = some n → s.arrayStep id granted (.resize length fill) =
      s.growArray id granted (extendTo (s.array id).items n ((s.array id).kind.held fill)) := by
    intro granted n hn
    simp only [Plain.arrayStep, hn]
  have hfits := hi.fits _ _ (storage?_array hid)
  have hlt := he.stored _ _ (storage?_array hid)
  cases hr : (w.array id).resize w.memory length fill with
  | ok r =>
    obtain ⟨n, hn, -⟩ := Growable.resize_ok hr
    refine refines_granted h he hid (perform_ok hc (changeArray_ok hr)) rfl
      (Growable.updates_resize hr) ?_ (hstep true n hn.toNat?)
    rw [Growable.toList_resize hm hfits hlt hn hr, ← hfits.length_toList, (h.array id).items,
      (h.array id).kind]
    rfl
  | error e =>
    have hp := perform_error hc (changeArray_error hr)
    rcases Growable.resize_error hm hfits hr with ⟨hn, rfl⟩ | ⟨rfl, n, hn, hlarge⟩
    · have hfail : s.arrayStep id true (.resize length fill) = (.error (.invalidLength length), s) := by
        simp only [Plain.arrayStep, hn]
      exact refines_error hp (by simp) hfail h
    · exact refines_denied h hp ⟨n, hn, hlarge⟩ (hstep false n hn)

theorem refines_popArray (h : w.Represents s) (he : w.Exclusive) (hi : w.InBounds)
    (hid : id < w.arrays.size) : w.Refines s (.array id .pop) := by
  have hc : (Command.array id .pop).run w =
      (popArray id >>= fun x => pure (Reply.element (w.array id).kind x)) w := rfl
  obtain ⟨hlast, hrest⟩ := Growable.pop_spec (hi.fits _ _ (storage?_array hid))
  rw [(h.array id).items] at hlast hrest
  have hr := h.withArray he hid (Growable.updates_pop w.memory (w.array id)) hrest
  refine refines_ok (perform_ok hc rfl) ?_ hr
  change (Except.ok (Reply.element (s.array id).kind (s.array id).items.getLast?), _) =
    (Except.ok (Reply.element (w.array id).kind ((w.array id).pop w.memory).1), _)
  rw [hlast, (h.array id).kind]

theorem refines_clearArray (h : w.Represents s) (he : w.Exclusive) (hid : id < w.arrays.size) :
    w.Refines s (.array id .clear) := by
  have hc : (Command.array id .clear).run w =
      (clearArray id >>= fun _ => pure Reply.done) w := rfl
  have hr := h.withArray he hid (Growable.updates_clear w.memory (w.array id))
    (Growable.toList_clear ..)
  exact refines_ok (perform_ok hc (changeArray_ok rfl)) rfl hr

theorem refines_release (h : w.Represents s) (he : w.Exclusive) (hid : id < w.arrays.size) :
    w.Refines s (.array id .release) := by
  have hc : (Command.array id .release).run w =
      (releaseArray id >>= fun _ => pure Reply.done) w := rfl
  have hr := h.withArray he hid (Growable.updates_release w.memory (w.array id))
    (Growable.toList_release ..)
  exact refines_ok (perform_ok hc (changeArray_ok rfl)) rfl hr

theorem refines_shareArray (h : w.Represents s) (he : w.Exclusive) :
    w.Refines s (.array id .share) := by
  have hc : (Command.array id .share).run w =
      (shareArray id >>= fun v => pure (Reply.view v)) w := rfl
  have hr := h.of_memory he (grows_countView w.memory) fun _ _ _ => rfl
  refine refines_ok (perform_ok hc rfl) ?_ hr
  have hview : (countView w.memory).elements ((w.array id).data w.memory.views) =
      (s.array id).items := by
    rw [← (h.array id).items]
    exact congrArg (List.map _) (Memory.words_eq_of_range rfl rfl rfl rfl)
  change (Except.ok (Reply.elements (s.array id).kind (s.array id).items), s) =
    (.ok (.elements (w.array id).kind
      ((countView w.memory).elements ((w.array id).data w.memory.views))), s)
  rw [hview, (h.array id).kind]

/-- Two arrays that exchange their storage exchange their lists. -/
theorem Represents.exchangeArrays (h : w.Represents s) (he : w.Exclusive)
    (hid : id < w.arrays.size) {other : Nat} (hother : other < w.arrays.size)
    (hk : (w.array id).kind = (w.array other).kind)
    (hforeign : ∀ b, w.Foreign b →
      ((w.setArray id (w.array other)).setArray other (w.array id)).Foreign b) :
    ((w.setArray id (w.array other)).setArray other (w.array id)).Represents
      ((s.setArray id { s.array id with items := (s.array other).items }).setArray other
        { s.array other with items := (s.array id).items }) := by
  have hspares : w.Spares ((w.setArray id (w.array other)).setArray other (w.array id))
      fun o => o = .array id ∨ o = .array other := by
    refine spares_of_memory_eq rfl rfl le_rfl hforeign (fun _ _ => rfl) fun j hj => ?_
    rw [getElem?_setArray_of_ne _ other _ fun heq => hj (Or.inr (by rw [heq])),
      getElem?_setArray_of_ne _ id _ fun heq => hj (Or.inl (by rw [heq]))]
  have hsecond : ((w.setArray id (w.array other)).setArray other (w.array id)).array other =
      w.array id := array_setArray_self (w.setArray id _) _ (by simpa using hother)
  refine h.of_spares he hspares h.vecCount (fun j hj => ?_) (fun _ _ => rfl) ?_ (fun j hj => ?_)
    (fun j hj => ?_) rfl rfl h.walk fun j vec position hrun => by simp
  · rcases hj with hj | hj <;> cases hj
  · exact (size_arrays_setArray ..).trans ((size_arrays_setArray ..).trans h.arrayCount)
  · change IsArray _ _ (Function.update (Function.update s.array id
      { s.array id with items := (s.array other).items }) other
      { s.array other with items := (s.array id).items } j)
    by_cases hj' : j = other
    · rw [hj', hsecond, Function.update_self]
      exact ⟨hk.trans (h.array other).kind, (h.array id).items⟩
    · have hfirst : j = id := by
        rcases hj with hj | hj
        · cases hj
          rfl
        · cases hj
          exact absurd rfl hj'
      rw [Function.update_of_ne hj', array_setArray_of_ne _ _ _ hj', hfirst, Function.update_self,
        array_setArray_self w _ hid]
      exact ⟨hk.symm.trans (h.array id).kind, (h.array other).items⟩
  · change Function.update (Function.update s.array id _) other _ j = _
    rw [Function.update_of_ne fun heq => hj (Or.inr (by rw [heq])),
      Function.update_of_ne fun heq => hj (Or.inl (by rw [heq]))]

theorem refines_swapArrays (h : w.Represents s) (he : w.Exclusive) (hid : id < w.arrays.size)
    {other : Nat} (hother : other < w.arrays.size) :
    w.Refines s (.array id (.swap other)) := by
  have hc : (Command.array id (.swap other)).run w =
      (swapArrays id other >>= fun _ => pure Reply.done) w := rfl
  have hrun : swapArrays id other w = (Action.ofExcept ((w.array id).swap (w.array other)) >>=
      fun r => (set ((w.setArray id r.1).setArray other r.2) : Action Unit)) w := rfl
  have hstep : s.arrayStep id true (.swap other) =
      if (s.array id).kind = (s.array other).kind then
        (.ok .done, (s.setArray id { s.array id with items := (s.array other).items }).setArray
          other { s.array other with items := (s.array id).items })
      else (.error (.kindsDiffer (s.array id).kind (s.array other).kind), s) := rfl
  rw [← (h.array id).kind, ← (h.array other).kind] at hstep
  unfold Growable.swap at hrun
  by_cases hk : (w.array id).kind = (w.array other).kind
  · rw [if_pos hk] at hrun hstep
    have hadv : w.Advances ((swapArrays id other).after w) := advances_swapArrays hid hother
    rw [Action.after_ok hrun] at hadv
    exact refines_ok (perform_ok hc hrun) hstep
      (h.exchangeArrays he hid hother hk hadv.foreign)
  · rw [if_neg hk] at hrun hstep
    exact refines_error (perform_error hc hrun) (by simp) hstep h

theorem refines_addVec (h : w.Represents s) (he : w.Exclusive) {c : Command} {kind : Kind}
    {checked : Bool} (hfresh : Growable.Fresh w.memory m a) (hk : a.kind = kind)
    (hitems : a.toList m = items)
    (hc : c.run w = (addVec a m checked >>= fun i => pure (Reply.made i)) w)
    (hs : s.step w.memory.elements true c =
      (.ok (.made s.vecCount), s.addVec ⟨kind, checked, .owned, items⟩)) :
    w.Refines s c := by
  have hvec : ∀ j, ((addVec a m checked).after w).vec j =
      if j = w.vecs.size then ⟨a.kind, checked, .owned a⟩ else w.vec j := fun j => w.vec_push _ j
  have hsize : ((addVec a m checked).after w).vecs.size = w.vecs.size + 1 := Array.size_push ..
  have hspares := (places_addVec checked hfresh).spares he rfl (by omega)
    (fun j hj => by rw [hvec, if_neg fun heq => hj (by rw [heq])]) fun _ _ => rfl
  have hr := h.addVec he hspares hsize rfl rfl (p := ⟨kind, checked, .owned, items⟩) (by
    rw [hvec, if_pos rfl]
    exact isVec_owned rfl hk rfl rfl hitems)
  refine refines_ok (perform_ok hc rfl) (hs.trans ?_) hr
  rw [← h.vecCount]
  rfl

theorem refines_vecOfList (h : w.Represents s) (he : w.Exclusive) {kind : Kind} {values : List Scalar}
    (hv : values.all kind.admits = true) (checked : Bool) :
    w.Refines s (.vecOfList kind values checked) := by
  refine refines_addVec h he (Growable.fresh_ofWords ..) rfl (Growable.toList_ofList ..)
    (Action.bind_congr (x := vecOfList kind values checked) _ ?_) rfl
  unfold vecOfList
  rw [hv]
  rfl

theorem refines_vecOfView (h : w.Represents s) (he : w.Exclusive) {kind : Kind} {view : View}
    (hv : view.kind.sameSort kind = true) (checked : Bool) :
    w.Refines s (.vecOfView kind view checked) := by
  refine refines_addVec h he (Growable.fresh_ofWords ..) rfl (Growable.toList_ofView ..)
    (Action.bind_congr (x := vecOfView kind view checked) _ ?_) rfl
  unfold vecOfView
  rw [hv]
  rfl

theorem refines_newVec (h : w.Represents s) (he : w.Exclusive) (kind : Kind) (checked : Bool) :
    w.Refines s (.newVec kind checked) := by
  have hc : (Command.newVec kind checked).run w =
      (newVec kind checked >>= fun i => pure (Reply.made i)) w := rfl
  have hvec : ∀ j, ((newVec kind checked).after w).vec j =
      if j = w.vecs.size then .new kind checked else w.vec j := fun j => w.vec_push _ j
  have hsize : ((newVec kind checked).after w).vecs.size = w.vecs.size + 1 := Array.size_push ..
  have hadv : w.Advances ((newVec kind checked).after w) := advances_newVec kind checked
  have hspares : w.Spares ((newVec kind checked).after w) (· = .vec w.vecs.size) :=
    spares_of_memory_eq rfl rfl (by omega) hadv.foreign
      (fun j hj => by rw [hvec, if_neg fun heq => hj (by rw [heq])]) fun _ _ => rfl
  have hr := h.addVec he hspares hsize rfl rfl (p := ⟨kind, checked, .empty, []⟩) (by
    rw [hvec, if_pos rfl]
    exact ⟨rfl, rfl, rfl, elements_eq_of_empty rfl, fun _ _ hh => by cases hh⟩)
  refine refines_ok (perform_ok hc rfl) ?_ hr
  change (Except.ok (Reply.made s.vecCount), _) = (Except.ok (Reply.made w.vecs.size), _)
  rw [h.vecCount]

/-- A walk delivers the value at its position, and is finished when there is none. -/
theorem deliver_spec (h : w.Represents s) (he : w.Exclusive) (hid : id < s.walkCount) {vec : Nat}
    {view : View} {position : Nat} (hvec : vec < w.vecs.size)
    (hshow : w.memory.elements view = (s.vec vec).items) (hsettled : w.Settled vec view) :
    ∃ w', deliver id vec view position w = .ok (s.deliver id vec position).1 w' ∧
      w'.Represents (s.deliver id vec position).2 := by
  have hat : w.memory.elementAt? view position = (s.vec vec).items[position]? := by
    rw [Memory.elementAt?_eq, hshow]
  unfold Plain.deliver
  cases hx : (s.vec vec).items[position]? with
  | some x =>
    exact ⟨_, deliver_of_some (hat.trans hx), h.setWalk he hid ⟨rfl, rfl, hvec, hshow, hsettled⟩⟩
  | none => exact ⟨_, deliver_of_none (hat.trans hx), h.setWalk he hid rfl⟩

theorem settled_viewOf (he : w.Exclusive) {vec : Nat} {view : View}
    (hv : w.viewOf (w.vec vec) = .ok view) : w.Settled vec view := by
  cases viewing_of_viewOf hv with
  | empty => exact Or.inl rfl
  | owned hh => exact Or.inr (Or.inr ⟨_, storage?_vec_of_owned hh, rfl⟩)
  | borrowed hh => exact Or.inr (Or.inl (he.lent _ (.borrowed vec view _ hh)))

/-- What a walk delivers is what the walk over the list delivers. -/
theorem next_ok (h : w.Represents s) (he : w.Exclusive) (hi : w.InBounds)
    (hid : id < s.walkCount) (hvec : (s.walk id).vec < s.vecCount)
    (hstale : ∀ vec, s.walk id ≠ .stale vec) :
    ∃ w', next id w = .ok (s.next id).1 w' ∧ w'.Represents (s.next id).2 := by
  have hwalk := h.walk id
  unfold Plain.next
  cases hp : s.walk id with
  | stale vec => exact absurd hp (hstale vec)
  | finished vec =>
    rw [hp] at hwalk
    cases hit : w.iteration id with
    | fresh vec' => rw [hit] at hwalk; exact hwalk.elim
    | running vec' view position => rw [hit] at hwalk; exact hwalk.elim
    | finished vec' => exact ⟨w, next_of_finished hit, h⟩
  | running vec position =>
    rw [hp] at hwalk
    cases hit : w.iteration id with
    | fresh vec' => rw [hit] at hwalk; exact hwalk.elim
    | finished vec' => rw [hit] at hwalk; exact hwalk.elim
    | running vec' view position' =>
      rw [hit] at hwalk
      obtain ⟨rfl, rfl, hlt, hshow, hsettled⟩ := hwalk
      rw [next_of_running hit]
      exact deliver_spec h he hid hlt hshow hsettled
  | fresh vec =>
    rw [hp] at hwalk hvec
    cases hit : w.iteration id with
    | running vec' view position => rw [hit] at hwalk; exact hwalk.elim
    | finished vec' => rw [hit] at hwalk; exact hwalk.elim
    | fresh vec' =>
      rw [hit] at hwalk
      obtain rfl : vec' = vec := hwalk
      obtain ⟨view, hv, hshow, -, -, -⟩ := (h.vec vec').viewOf hi
      rw [next_of_fresh hit hv]
      exact deliver_spec h he hid (by rw [h.vecCount]; exact hvec) hshow (settled_viewOf he hv)

theorem refines_next (h : w.Represents s) (he : w.Exclusive) (hi : w.InBounds)
    (hid : id < s.walkCount) (hvec : (s.walk id).vec < s.vecCount)
    (hstale : ∀ vec, s.walk id ≠ .stale vec) : w.Refines s (.next id) := by
  have hc : (Command.next id).run w =
      (next id >>= fun x => pure (Reply.element (w.iteratedKind id) x)) w := rfl
  have hkind : w.iteratedKind id = (s.vec (s.walk id).vec).kind := by
    unfold iteratedKind
    rw [(h.walk id).vec_eq]
    exact (h.vec _).kind
  obtain ⟨w', hnext, hr⟩ := next_ok h he hi hid hvec hstale
  refine refines_ok (perform_ok hc hnext) ?_ hr
  rw [hkind]
  rfl

end LeaseVec.World
