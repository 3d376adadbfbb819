import LeaseVec.Proofs.Growable.Updates
import LeaseVec.Proofs.Lifetime.Regions
import LeaseVec.Proofs.Outcome
import LeaseVec.Proofs.World.Span

/-!
# When a borrow has ended

A call that looks at the elements of a vector stops when these are borrowed and their region is closed. Then
nothing at all has happened: no vector, array or writer has changed and no promotion has been reported. No
other call of a vector stops for that reason. The calls are made of a few parts, so the property is stated
for actions and put together along their binds.
-/

namespace LeaseVec

open Number Number.Binary64

namespace Growable

/-- Growable arrays know nothing of regions. -/
theorem push_ne_borrowEnded {m : Memory} {a : Growable} {value : Scalar} {label : Text} :
    a.push m value ≠ .error (.borrowEnded label) := by
  intro h
  cases reserve_error (reserve_of_push_error h)

theorem resize_ne_borrowEnded {m : Memory} {a : Growable} {length : Binary64} {fill : Scalar}
    {label : Text} : a.resize m length fill ≠ .error (.borrowEnded label) := by
  intro h
  cases hn : length.toNat? with
  | none =>
    unfold resize lengthOf? at h
    rw [hn] at h
    cases h
  | some n => cases reserve_error (reserve_of_resize_error hn h).2

end Growable

theorem acceptIndex_ok {index : Binary64} {size i : Nat} :
    acceptIndex index size = .ok i ↔ Whole index i ∧ i < size := by
  unfold acceptIndex
  constructor
  · intro h
    cases hn : index.toNat? with
    | none =>
      rw [hn] at h
      cases h
    | some n =>
      rw [hn] at h
      simp only at h
      split_ifs at h with hlt
      cases h
      exact ⟨whole_of_toNat? hn, hlt⟩
  · rintro ⟨hi, hlt⟩
    rw [hi.toNat?]
    exact if_pos hlt

theorem acceptIndex_ne_borrowEnded {index : Binary64} {size : Nat} {label : Text} :
    acceptIndex index size ≠ .error (.borrowEnded label) := by
  intro h
  unfold acceptIndex at h
  split at h
  · split_ifs at h
    cases h
  · cases h

namespace World

variable {α β : Type} {w w' : World} {P Q : Text → Prop}

/-- The action stops for the end of a borrow from the regions labelled so, and only then, and when it does
nothing has happened. -/
def StopsFor (P : Text → Prop) (x : Action α) (w : World) : Prop :=
  ∀ label w', x w = .error (.borrowEnded label) w' ↔ w' = w ∧ P label

/-- The action never stops for the end of a borrow. -/
abbrev GoesOn (x : Action α) (w : World) : Prop := StopsFor (fun _ => False) x w

theorem StopsFor.congr {x : Action α} (h : StopsFor P x w) (hP : ∀ label, P label ↔ Q label) :
    StopsFor Q x w := by
  intro label w'
  rw [h label w', hP]

theorem goesOn_iff {x : Action α} : GoesOn x w ↔ ∀ label w', x w ≠ .error (.borrowEnded label) w' := by
  constructor
  · intro h label w' hx
    exact ((h label w').1 hx).2
  · intro h label w'
    exact ⟨fun hx => (h label w' hx).elim, fun hf => hf.2.elim⟩

/-- What comes after the only part that can stop does not matter. -/
theorem StopsFor.bind {x : Action α} {f : α → Action β} (hx : StopsFor P x w)
    (hf : ∀ a w', GoesOn (f a) w') : StopsFor P (x >>= f) w := by
  intro label w'
  cases h : x w with
  | ok a w₁ =>
    have hnot : ¬ P label := by
      intro hP
      have hstop := (hx label w).2 ⟨rfl, hP⟩
      rw [h] at hstop
      cases hstop
    rw [Action.bind_ok h]
    constructor
    · intro hrest
      exact ((hf a w₁ label w').1 hrest).2.elim
    · rintro ⟨-, hP⟩
      exact (hnot hP).elim
  | error e w₁ =>
    rw [Action.bind_error h, ← hx label w', h]
    constructor
    · intro he
      cases he
      rfl
    · intro he
      cases he
      rfl

theorem StopsFor.map {x : Action α} {f : α → β} (h : StopsFor P x w) :
    StopsFor P (x >>= fun a => pure (f a)) w :=
  h.bind fun _ _ => goesOn_iff.2 fun _ _ hf => by cases hf

theorem StopsFor.get_bind {f : World → Action β} (h : StopsFor P (f w) w) :
    StopsFor P (get >>= f) w := h

theorem goesOn_pure (a : α) : GoesOn (pure a) w := goesOn_iff.2 fun _ _ h => by cases h

theorem goesOn_set (w' : World) : GoesOn (set w' : Action PUnit) w :=
  goesOn_iff.2 fun _ _ h => by cases h

theorem goesOn_throw {e : Fault} (he : ∀ label, e ≠ .borrowEnded label) :
    GoesOn (throw e : Action α) w := by
  rw [goesOn_iff]
  intro label w' h
  cases h
  exact he label rfl

theorem goesOn_nextSerial : GoesOn nextSerial w := goesOn_iff.2 fun _ _ h => by cases h

/-- A result that is known stops when it is the end of a borrow. -/
theorem stopsFor_ofExcept (x : Except Fault α) :
    StopsFor (fun label => x = .error (.borrowEnded label)) (Action.ofExcept x) w := by
  intro label w'
  cases x with
  | ok a =>
    constructor
    · intro h
      cases h
    · rintro ⟨-, h⟩
      cases h
  | error e =>
    constructor
    · intro h
      cases h
      exact ⟨rfl, rfl⟩
    · rintro ⟨rfl, h⟩
      cases h
      rfl

/-- After a check of another kind has been passed. -/
theorem StopsFor.check_bind {x : Except Fault α} {f : α → Action β}
    (hx : ∀ label, x ≠ .error (.borrowEnded label)) (hf : ∀ a, x = .ok a → StopsFor P (f a) w) :
    StopsFor (fun label => (∃ a, x = .ok a) ∧ P label) (Action.ofExcept x >>= f) w := by
  cases x with
  | ok a => exact (hf a rfl).congr fun label => ⟨fun h => ⟨⟨a, rfl⟩, h⟩, fun h => h.2⟩
  | error e =>
    refine (goesOn_throw fun label he => hx label (by rw [he])).congr fun label => ?_
    constructor
    · exact False.elim
    · rintro ⟨⟨a, ha⟩, -⟩
      cases ha

/-- The elements of a vector are borrowed from a region of that label, and the region is closed. -/
def Stale (w : World) (v : Vec) (label : Text) : Prop :=
  ∃ region, v.lender? = some region ∧ w.isOpen region = false ∧ label = (w.region region).label

theorem not_stale_of_mode {v : Vec} (h : v.mode ≠ .borrowed) {label : Text} : ¬ w.Stale v label := by
  rintro ⟨region, hlender, -⟩
  obtain ⟨kind, checked, holding⟩ := v
  cases holding with
  | empty => cases hlender
  | owned a => cases hlender
  | borrowed view region => exact h rfl

theorem lender?_of_borrowed {v : Vec} {view : View} {region : Nat} (h : v.holding = .borrowed view region) :
    v.lender? = some region := by
  unfold Vec.lender?
  rw [h]

theorem stale_iff {v : Vec} {region : Nat} (h : v.lender? = some region) {label : Text} :
    w.Stale v label ↔ w.isOpen region = false ∧ label = (w.region region).label := by
  constructor
  · rintro ⟨lender, hlender, hended, hlabel⟩
    rw [h] at hlender
    cases hlender
    exact ⟨hended, hlabel⟩
  · rintro ⟨hended, hlabel⟩
    exact ⟨region, h, hended, hlabel⟩

theorem viewOf_eq_borrowEnded {v : Vec} {label : Text} :
    w.viewOf v = .error (.borrowEnded label) ↔ w.Stale v label := by
  obtain ⟨kind, checked, holding⟩ := v
  cases holding with
  | empty =>
    constructor
    · intro h
      cases h
    · intro h
      exact (not_stale_of_mode Mode.noConfusion h).elim
  | owned a =>
    constructor
    · intro h
      cases h
    · intro h
      exact (not_stale_of_mode Mode.noConfusion h).elim
  | borrowed view region =>
    unfold viewOf
    simp only
    constructor
    · intro h
      split_ifs at h with ho
      cases h
      exact ⟨region, rfl, Bool.eq_false_iff.2 ho, rfl⟩
    · rintro ⟨lender, hlender, ho, rfl⟩
      cases hlender
      rw [ho]
      rfl

/-- What is asked of the view of a vector stops as the view does. -/
theorem viewOf_bind {v : Vec} {f : View → Except Fault α} {label : Text}
    (hf : ∀ view, f view ≠ .error (.borrowEnded label)) :
    w.viewOf v >>= f = .error (.borrowEnded label) ↔ w.Stale v label :=
  (Outcome.bind_error_iff hf).trans viewOf_eq_borrowEnded

theorem viewOf_map {v : Vec} {f : View → α} {label : Text} :
    (w.viewOf v).map f = .error (.borrowEnded label) ↔ w.Stale v label :=
  Outcome.map_error_iff.trans viewOf_eq_borrowEnded

theorem at?_eq_borrowEnded {v : Vec} {index : Binary64} {label : Text} :
    w.at? v index = .error (.borrowEnded label) ↔ w.Stale v label := by
  refine viewOf_bind fun view h => ?_
  cases hi : acceptIndex index view.length with
  | ok i =>
    rw [hi] at h
    cases h
  | error e =>
    rw [hi] at h
    cases h
    exact acceptIndex_ne_borrowEnded hi

theorem get?_eq_borrowEnded {v : Vec} {index : Binary64} {label : Text} :
    w.get? v index = .error (.borrowEnded label) ↔ w.Stale v label := by
  refine viewOf_bind fun view h => ?_
  cases hc : v.checked with
  | false =>
    rw [hc] at h
    cases h
  | true =>
    rw [hc] at h
    cases hi : acceptIndex index view.length with
    | ok i =>
      rw [hi] at h
      cases h
    | error e =>
      rw [hi] at h
      cases h
      exact acceptIndex_ne_borrowEnded hi

/-- A question about a vector stops as its answer does. -/
theorem stopsFor_ask {question : World → Except Fault α}
    (h : ∀ label, question w = .error (.borrowEnded label) ↔ P label) :
    StopsFor P (Action.ask question) w :=
  StopsFor.get_bind ((stopsFor_ofExcept (question w)).congr h)

theorem stopsFor_shareView (id : Nat) : StopsFor (w.Stale (w.vec id)) (shareView id) w := by
  have hserial : ∀ view u, GoesOn (nextSerial >>= fun _ => (pure view : Action View)) u :=
    fun view u => goesOn_nextSerial.bind fun _ _ => goesOn_pure view
  have hview : StopsFor (w.Stale (w.vec id)) (Action.ofExcept (w.viewOf (w.vec id))) w :=
    (stopsFor_ofExcept _).congr fun _ => viewOf_eq_borrowEnded
  refine StopsFor.get_bind (hview.bind fun view u => ?_)
  by_cases hm : (w.vec id).mode = .empty
  · rw [if_pos hm]
    have halloc : GoesOn (alloc []) u := goesOn_iff.2 fun _ _ h => by cases h
    exact halloc.bind fun _ u₁ => hserial view u₁
  · rw [if_neg hm]
    exact hserial view u

theorem stopsFor_own (id : Nat) : StopsFor (w.Stale (w.vec id)) (own id) w := by
  intro label w'
  have howning := owning_own w id
  generalize own id w = outcome at howning ⊢
  cases howning with
  | owned hh =>
    constructor
    · intro h
      cases h
    · rintro ⟨-, region, hlender, -⟩
      unfold Vec.lender? at hlender
      rw [hh] at hlender
      cases hlender
  | empty hh =>
    constructor
    · intro h
      cases h
    · rintro ⟨-, region, hlender, -⟩
      unfold Vec.lender? at hlender
      rw [hh] at hlender
      cases hlender
  | promoted p hh ho =>
    constructor
    · intro h
      cases h
    · rintro ⟨-, hstale⟩
      obtain ⟨hended, -⟩ := (stale_iff (lender?_of_borrowed hh)).1 hstale
      rw [ho] at hended
      cases hended
  | otherSort hh ho =>
    constructor
    · intro h
      cases h
    · rintro ⟨-, hstale⟩
      obtain ⟨hended, -⟩ := (stale_iff (lender?_of_borrowed hh)).1 hstale
      rw [ho] at hended
      cases hended
  | ended hh ho =>
    constructor
    · intro h
      cases h
      exact ⟨rfl, (stale_iff (lender?_of_borrowed hh)).2 ⟨ho, rfl⟩⟩
    · rintro ⟨rfl, hstale⟩
      rw [((stale_iff (lender?_of_borrowed hh)).1 hstale).2]
      rfl

theorem stopsFor_changeOwned (id : Nat)
    (change : Memory → Growable → Except Fault (Growable × Memory))
    (hc : ∀ m a label, change m a ≠ .error (.borrowEnded label)) :
    StopsFor (w.Stale (w.vec id)) (changeOwned id change) w := by
  refine (stopsFor_own id).bind fun a w₁ => StopsFor.get_bind ?_
  have hchange : GoesOn (Action.ofExcept (change w₁.memory a)) w₁ :=
    (stopsFor_ofExcept _).congr fun label => iff_false_intro (hc _ _ label)
  exact hchange.bind fun r _ => goesOn_set _

/-- A value of the wrong sort is refused only behind the end of a borrow. -/
theorem goesOn_refused : GoesOn (throw .sortRefused : Action α) w := goesOn_throw fun _ h => nomatch h

theorem stopsFor_refuse (id : Nat) (extra : Growable → Binary64) :
    StopsFor (w.Stale (w.vec id)) (refuse id extra) w := by
  rw [refuse_eq]
  refine (stopsFor_changeOwned id _ fun m a label h => ?_).bind fun _ _ => goesOn_refused
  cases Growable.reserve_error (Outcome.map_error_iff.1 h)

theorem stopsFor_push (id : Nat) (value : Scalar) : StopsFor (w.Stale (w.vec id)) (push id value) w := by
  refine StopsFor.get_bind ?_
  split_ifs
  · exact stopsFor_changeOwned id _ fun _ _ _ => Growable.push_ne_borrowEnded
  · exact stopsFor_refuse id _

theorem stopsFor_setAt (id : Nat) (index : Binary64) (value : Scalar) :
    StopsFor (fun label => (∃ i, Whole index i ∧ i < (w.vec id).size) ∧
      w.Stale (w.vec id) label) (setAt id index value) w := by
  refine StopsFor.get_bind (StopsFor.congr (StopsFor.check_bind (P := w.Stale (w.vec id))
    (fun _ => acceptIndex_ne_borrowEnded) fun i _ => ?_) fun label => ?_)
  · split_ifs
    · exact stopsFor_changeOwned id (fun m a => .ok (a, m.writeWords a.slots i [a.kind.store value]))
        fun _ _ _ h => nomatch h
    · exact (stopsFor_own id).bind fun _ _ => goesOn_refused
  · simp only [acceptIndex_ok]

theorem stopsFor_writableView (id : Nat) :
    StopsFor (w.Stale (w.vec id)) (writableView id) w := by
  refine (stopsFor_own id).bind fun a w₁ => ?_
  exact goesOn_nextSerial.bind fun _ _ => goesOn_pure _

theorem stopsFor_pop (id : Nat) : StopsFor (w.Stale (w.vec id)) (pop id) w := by
  refine (stopsFor_own id).bind fun a w₁ => StopsFor.get_bind ?_
  exact (goesOn_set _).bind fun _ _ => goesOn_pure _

theorem stopsFor_resize (id : Nat) (length : Binary64) (fill : Option Scalar) :
    StopsFor (fun label => (∃ n, Whole length n) ∧ w.Stale (w.vec id) label)
      (resize id length fill) w := by
  unfold resize lengthOf?
  cases hn : length.toNat? with
  | none =>
    have hthrow : GoesOn (throw (.invalidSize length) : Action Unit) w :=
      goesOn_throw fun _ h => by cases h
    refine hthrow.congr fun label => ?_
    constructor
    · exact False.elim
    · rintro ⟨⟨n, hwhole⟩, -⟩
      rw [hwhole.toNat?] at hn
      cases hn
  | some n =>
    refine StopsFor.congr (P := w.Stale (w.vec id)) (StopsFor.get_bind ?_)
      fun label => ⟨fun h => ⟨⟨n, whole_of_toNat? hn⟩, h⟩, fun h => h.2⟩
    simp only
    split_ifs
    · exact stopsFor_changeOwned id (fun m a => a.resize m length (fill.getD a.kind.zero))
        fun _ _ _ => Growable.resize_ne_borrowEnded
    · exact stopsFor_refuse id _

theorem stopsFor_swapWith (id array : Nat) :
    StopsFor (fun label => (w.vec id).kind = (w.array array).kind ∧ w.Stale (w.vec id) label)
      (swapWith id array) w := by
  intro label w'
  by_cases hk : (w.vec id).kind = (w.array array).kind
  · have hmodify : ∀ a u, GoesOn (modify fun w => w.withExchanged id array a : Action Unit) u :=
      fun a u => goesOn_iff.2 fun _ _ h => by cases h
    rw [swapWith_eq hk, (stopsFor_own id).bind hmodify label w']
    constructor
    · rintro ⟨hw, hstale⟩
      exact ⟨hw, hk, hstale⟩
    · rintro ⟨hw, -, hstale⟩
      exact ⟨hw, hstale⟩
  · rw [swapWith_of_ne hk]
    constructor
    · intro h
      cases h
    · rintro ⟨-, hkind, -⟩
      exact (hk hkind).elim

/-- Attaching stops when the region is closed and the vector would have let go of what it has. -/
theorem stopsFor_attach (id : Nat) (view : View) (region : Nat) :
    StopsFor (fun label => (w.vec id).mode ≠ .owned ∧ w.isOpen region = false ∧
      label = (w.region region).label) (attach id view region) w := by
  intro label w'
  rw [attach_eq]
  by_cases hm : (w.vec id).mode = .owned
  · rw [if_pos hm]
    constructor
    · intro h
      cases h
    · rintro ⟨-, hmode, -⟩
      exact (hmode hm).elim
  · rw [if_neg hm]
    cases ho : w.isOpen region with
    | true =>
      rw [if_pos rfl]
      constructor
      · intro h
        cases h
      · rintro ⟨-, -, hended, -⟩
        cases hended
    | false =>
      rw [if_neg Bool.false_ne_true]
      constructor
      · intro h
        cases h
        exact ⟨rfl, hm, rfl, rfl⟩
      · rintro ⟨rfl, -, -, rfl⟩
        rfl

end World

/-- The calls of a vector that need its elements: every read and every change whose own checks are passed. -/
def VecCommand.Needs (w : World) (id : Nat) : VecCommand → Prop
  | item _ | unchecked _ | front | back | toList | share | isView _ | writable | push _ | pop => True
  | set index _ => ∃ i, Whole index i ∧ i < (w.vec id).size
  | resize length _ => ∃ n, Whole length n
  | swap array => (w.vec id).kind = (w.array array).kind
  | attach _ _ | clear | iterate => False

/-- A command is a call of a vector. Attaching is left out, as it asks for the region that it is given. -/
def Command.Calls (id : Nat) : Command → Prop
  | vec _ (.attach _ _) => False
  | vec other _ => other = id
  | writer _ (.field other _) => other = id
  | _ => False

/-- The calls of a vector that need its elements. A writer needs them for whole groups. -/
def Command.Needs (w : World) (id : Nat) : Command → Prop
  | vec _ c => c.Needs w id
  | writer _ (.field _ stride) => ∃ s, Whole stride s ∧ 1 ≤ s ∧ s ∣ (w.vec id).size
  | _ => False

namespace World

variable {w w' : World}

theorem stopsFor_vecCommand (id : Nat) {c : VecCommand} (hc : ∀ view region, c ≠ .attach view region) :
    StopsFor (fun label => c.Needs w id ∧ w.Stale (w.vec id) label) (c.run id) w := by
  have halways : ∀ {x : Action Reply}, StopsFor (w.Stale (w.vec id)) x w →
      StopsFor (fun label => True ∧ w.Stale (w.vec id) label) x w :=
    fun h => h.congr fun _ => ⟨fun hs => ⟨trivial, hs⟩, fun hs => hs.2⟩
  have hnever : ∀ {x : Action Reply}, GoesOn x w →
      StopsFor (fun label => False ∧ w.Stale (w.vec id) label) x w :=
    fun h => h.congr fun _ => ⟨False.elim, fun hs => hs.1⟩
  refine StopsFor.get_bind ?_
  cases c with
  | attach view region => exact (hc view region rfl).elim
  | item index => exact halways (stopsFor_ask fun _ => at?_eq_borrowEnded).map
  | unchecked index => exact halways (stopsFor_ask fun _ => get?_eq_borrowEnded).map
  | front => exact halways (stopsFor_ask fun _ => at?_eq_borrowEnded).map
  | back => exact halways (stopsFor_ask fun _ => at?_eq_borrowEnded).map
  | toList => exact halways (stopsFor_ask fun _ => viewOf_map).map
  | share => exact halways (stopsFor_shareView id).map
  | isView view => exact halways (stopsFor_ask fun _ => viewOf_map).map
  | writable => exact halways (stopsFor_writableView id).map
  | set index value => exact (stopsFor_setAt id index value).map
  | push value => exact halways (stopsFor_push id value).map
  | pop => exact halways (stopsFor_pop id).map
  | resize length fill => exact (stopsFor_resize id length fill).map
  | swap array => exact (stopsFor_swapWith id array).map
  | clear => exact hnever (goesOn_iff.2 fun _ _ h => by cases h)
  | iterate => exact hnever (goesOn_iff.2 fun _ _ h => by cases h)

theorem writeField_eq_borrowEnded {v : Vec} {stride : Binary64} {writer : Writer} {label : Text} :
    w.writeField v stride writer = .error (.borrowEnded label) ↔
      (∃ s, Whole stride s ∧ 1 ≤ s ∧ s ∣ v.size) ∧ w.Stale v label := by
  cases hs : acceptStride stride with
  | error e =>
    obtain ⟨rfl, hbad⟩ := acceptStride_error hs
    rw [writeField_of_badStride hs]
    constructor
    · intro h
      cases h
    · rintro ⟨⟨s, hwhole, hpos, -⟩, -⟩
      rw [hbad s hwhole] at hpos
      omega
  | ok s =>
    obtain ⟨hwhole, hpos⟩ := acceptStride_ok.1 hs
    by_cases hdvd : s ∣ v.size
    · rw [writeField_of_even hs hdvd, viewOf_map]
      constructor
      · intro hstale
        exact ⟨⟨s, hwhole, hpos, hdvd⟩, hstale⟩
      · rintro ⟨-, hstale⟩
        exact hstale
    · rw [writeField_of_uneven hs hdvd]
      constructor
      · intro h
        cases h
      · rintro ⟨⟨t, ht, -, hgroups⟩, -⟩
        rw [ht.unique hwhole] at hgroups
        exact (hdvd hgroups).elim

theorem stopsFor_writeField (writer id : Nat) (stride : Binary64) :
    StopsFor (fun label => (∃ s, Whole stride s ∧ 1 ≤ s ∧ s ∣ (w.vec id).size) ∧
      w.Stale (w.vec id) label)
      (changeWriter writer fun w x => w.writeField (w.vec id) stride x) w := by
  refine StopsFor.get_bind (StopsFor.bind ?_ fun x u => goesOn_set _)
  exact (stopsFor_ofExcept _).congr fun _ => writeField_eq_borrowEnded

/-- What a command answers and leaves when its action stops. -/
theorem perform_eq_error {c : Command} {e : Fault} :
    w.perform c = (.error e, w') ↔ c.run w = .error e w' := by
  unfold perform
  cases c.run w with
  | ok reply w₁ =>
    constructor
    · intro h
      cases h
    · intro h
      cases h
  | error e₁ w₁ =>
    constructor
    · intro h
      cases h
      rfl
    · intro h
      cases h
      rfl

/-- A call of a vector stops for the end of a borrow exactly when it needs the elements and these are
stale. -/
theorem perform_calls {id : Nat} {c : Command} (hc : c.Calls id) {label : Text} :
    w.perform c = (.error (.borrowEnded label), w') ↔
      w' = w ∧ c.Needs w id ∧ w.Stale (w.vec id) label := by
  rw [perform_eq_error]
  cases c with
  | vec other c =>
    have hattach : ∀ view region, c ≠ .attach view region := by
      rintro view region rfl
      exact hc.elim
    have hid : other = id := by
      cases c with
      | attach view region => exact hc.elim
      | _ => exact hc
    subst hid
    exact stopsFor_vecCommand other hattach label w'
  | writer writer c =>
    cases c with
    | field other stride =>
      have hid : other = id := hc
      subst hid
      exact (stopsFor_writeField writer other stride).map label w'
    | _ => exact hc.elim
  | _ => exact hc.elim

theorem perform_attach {id : Nat} {view : View} {region : Nat} {label : Text} :
    w.perform (.vec id (.attach view region)) = (.error (.borrowEnded label), w') ↔
      w' = w ∧ (w.vec id).mode ≠ .owned ∧ w.isOpen region = false ∧
        label = (w.region region).label := by
  rw [perform_eq_error]
  exact (stopsFor_attach id view region).map label w'

end World

end LeaseVec
