import LeaseVec.Proofs.World.Tables

/-!
# Changing a vector step by step

Every change of a vector first takes it to owned storage and then changes that storage. The equations
here say in which world each part ends; nothing is said about what the storage holds.
-/

namespace LeaseVec

open Number

/-- The world after a step, whether the step failed or not. -/
def Action.after {α : Type} (x : Action α) (w : World) : World :=
  match x w with
  | .ok _ w' => w'
  | .error _ w' => w'

theorem Action.after_ok {α : Type} {x : Action α} {w w' : World} {a : α} (h : x w = .ok a w') :
    x.after w = w' := by
  unfold Action.after
  rw [h]

theorem Action.after_error {α : Type} {x : Action α} {w w' : World} {e : Fault}
    (h : x w = .error e w') : x.after w = w' := by
  unfold Action.after
  rw [h]

/-- What a run that has succeeded has answered. -/
def answer? {α : Type} (x : EStateM.Result Fault World α) : Option α :=
  match x with
  | .ok a _ => some a
  | .error _ _ => none

theorem exists_of_answer? {α : Type} {x : EStateM.Result Fault World α} {a : α}
    (h : answer? x = some a) : ∃ w, x = .ok a w := by
  cases x with
  | ok b w =>
    cases h
    exact ⟨w, rfl⟩
  | error e w => cases h

theorem Action.bind_ok {α β : Type} {x : Action α} {f : α → Action β} {w w' : World} {a : α}
    (h : x w = .ok a w') : (x >>= f) w = f a w' := by
  change EStateM.bind x f w = _
  unfold EStateM.bind
  rw [h]

theorem Action.bind_error {α β : Type} {x : Action α} {f : α → Action β} {w w' : World} {e : Fault}
    (h : x w = .error e w') : (x >>= f) w = .error e w' := by
  change EStateM.bind x f w = _
  unfold EStateM.bind
  rw [h]

/-- Steps that end alike go on alike. -/
theorem Action.bind_congr {α β : Type} {x y : Action α} {w w' : World} (f : α → Action β)
    (h : x w = y w') : (x >>= f) w = (y >>= f) w' := by
  change EStateM.bind x f w = EStateM.bind y f w'
  unfold EStateM.bind
  rw [h]

theorem Action.bind_ok_iff {α β : Type} {x : Action α} {f : α → Action β} {w w' : World} {b : β} :
    (x >>= f) w = .ok b w' ↔ ∃ a w₁, x w = .ok a w₁ ∧ f a w₁ = .ok b w' := by
  constructor
  · intro h
    cases hx : x w with
    | ok a w₁ =>
      rw [Action.bind_ok hx] at h
      exact ⟨a, w₁, rfl, h⟩
    | error e w₁ =>
      rw [Action.bind_error hx] at h
      cases h
  · rintro ⟨a, w₁, hx, hf⟩
    rw [Action.bind_ok hx, hf]

/-- What stands behind a result that is known is reached when the result is a success. -/
theorem Action.ofExcept_bind_ok_iff {α β : Type} {x : Except Fault α} {f : α → Action β} {w w' : World}
    {b : β} : (Action.ofExcept x >>= f) w = .ok b w' ↔ ∃ a, x = .ok a ∧ f a w = .ok b w' := by
  cases x with
  | ok a =>
    constructor
    · intro h
      exact ⟨a, rfl, h⟩
    · rintro ⟨a', ha, h⟩
      cases ha
      exact h
  | error e =>
    constructor
    · intro h
      cases h
    · rintro ⟨a, ha, -⟩
      cases ha

theorem Action.demand_true : Action.demand true = pure () := rfl

theorem Action.demand_false : Action.demand false = throw .sortRefused := rfl

/-- What stands behind a demand is reached when the demand is met. -/
theorem Action.demand_bind_ok_iff {α : Type} {admitted : Bool} {f : Unit → Action α} {w w' : World} {a : α} :
    (Action.demand admitted >>= f) w = .ok a w' ↔ admitted = true ∧ f () w = .ok a w' := by
  cases admitted with
  | true => exact (and_iff_right rfl).symm
  | false => exact ⟨fun h => (nomatch h), fun h => (nomatch h.1)⟩

/-- Answering differently changes nothing else. -/
theorem Action.after_map {α β : Type} (x : Action α) (f : α → β) (w : World) :
    Action.after (x >>= fun a => pure (f a)) w = x.after w := by
  cases h : x w with
  | ok a w' =>
    rw [Action.after_ok h]
    exact Action.after_ok (Action.bind_ok h)
  | error e w' => rw [Action.after_error h, Action.after_error (Action.bind_error h)]

theorem Action.after_done (x : Action Unit) (w : World) : x.done.after w = x.after w :=
  Action.after_map x (fun _ => Reply.done) w

/-- Failing in the end changes nothing either. -/
theorem Action.after_bind_throw {α β : Type} (x : Action α) (e : Fault) (w : World) :
    Action.after (x >>= fun _ => (throw e : Action β)) w = x.after w := by
  cases h : x w with
  | ok a w' =>
    rw [Action.after_ok h]
    exact Action.after_error (Action.bind_ok h)
  | error e' w' => rw [Action.after_error h, Action.after_error (Action.bind_error h)]

/-- A question leaves the world alone. -/
theorem Action.after_ask {α : Type} (question : World → Except Fault α) (w : World) :
    (Action.ask question).after w = w := by
  have hrun : Action.ask question w = Action.ofExcept (question w) w := rfl
  unfold Action.after
  rw [hrun]
  cases question w with
  | ok a => rfl
  | error e => rfl

/-- Storage that lies over a range. -/
def Growable.over (kind : Kind) (r : ByteRange) : Growable :=
  ⟨kind, r.buffer, r.offset, r.length / kind.width, r.length / kind.width, false⟩

namespace Vec

variable {v : Vec}

theorem mode_eq_owned : v.mode = .owned ↔ ∃ a, v.holding = .owned a := by
  unfold mode
  cases v.holding <;> simp

theorem mode_eq_borrowed : v.mode = .borrowed ↔ ∃ view region, v.holding = .borrowed view region := by
  unfold mode
  cases v.holding <;> simp

theorem mode_eq_empty : v.mode = .empty ↔ v.holding = .empty := by
  unfold mode
  cases v.holding <;> simp

end Vec

namespace World

/-- The world in which a vector has got owned storage. -/
def withOwned (w : World) (id : Nat) (a : Growable) (m : Memory) (promotions : Array Promotion) :
    World :=
  { w with memory := m, promotions := promotions }.setHolding id (.owned a)

variable {w w' : World} {id : Nat}

theorem vec_withOwned_self (a : Growable) (m : Memory) (p : Array Promotion)
    (hid : id < w.vecs.size) :
    (w.withOwned id a m p).vec id = { w.vec id with holding := .owned a } :=
  vec_setHolding_self _ _ hid

theorem vec_withOwned_of_ne (a : Growable) (m : Memory) (p : Array Promotion) {j : Nat}
    (hj : j ≠ id) : (w.withOwned id a m p).vec j = w.vec j :=
  vec_setHolding_of_ne _ _ _ hj

@[simp] theorem size_vecs_withOwned (a : Growable) (m : Memory) (p : Array Promotion) :
    (w.withOwned id a m p).vecs.size = w.vecs.size := Array.size_setIfInBounds

@[simp] theorem kind_vec_withOwned (a : Growable) (m : Memory) (p : Array Promotion) (j : Nat) :
    ((w.withOwned id a m p).vec j).kind = (w.vec j).kind := kind_vec_setHolding ..

@[simp] theorem checked_vec_withOwned (a : Growable) (m : Memory) (p : Array Promotion) (j : Nat) :
    ((w.withOwned id a m p).vec j).checked = (w.vec j).checked := checked_vec_setHolding ..

/-- The last storage is the one that stays. -/
theorem withOwned_withOwned (a b : Growable) (m n : Memory) (p q : Array Promotion) :
    (w.withOwned id a m p).withOwned id b n q = w.withOwned id b n q :=
  setHolding_setHolding { w with memory := n, promotions := q } id (.owned a) (.owned b)

/-- Storage that is there already. -/
theorem withOwned_self {a : Growable} (h : (w.vec id).holding = .owned a) :
    w.withOwned id a w.memory w.promotions = w := by
  have hv : { w.vec id with holding := .owned a } = w.vec id := by rw [← h]
  have hset : w.vecs.setIfInBounds id (w.vec id) = w.vecs := by
    apply Array.ext_getElem?
    intro j
    rw [Array.getElem?_setIfInBounds]
    split_ifs with hj hlt
    · subst hj
      unfold vec
      rw [Array.getD_eq_getD_getElem?, Array.getElem?_eq_getElem hlt, Option.getD_some]
    · rw [Array.getElem?_eq_none (by omega)]
    · rfl
  change { w with vecs := w.vecs.setIfInBounds id { w.vec id with holding := .owned a } } = w
  rw [hv, hset]

theorem perform_snd (w : World) (c : Command) : (w.perform c).2 = c.run.after w := by
  unfold perform Action.after
  cases c.run w with
  | ok reply w' => rfl
  | error e w' => rfl

theorem perform_ok {α : Type} {c : Command} {x : Action α} {f : α → Reply} {a : α}
    (hc : c.run w = (x >>= fun a => pure (f a)) w) (hx : x w = .ok a w') :
    w.perform c = (.ok (f a), w') := by
  unfold perform
  rw [hc, Action.bind_ok hx]
  rfl

theorem perform_error {α : Type} {c : Command} {x : Action α} {f : α → Reply} {e : Fault}
    (hc : c.run w = (x >>= fun a => pure (f a)) w) (hx : x w = .error e w') :
    w.perform c = (.error e, w') := by
  unfold perform
  rw [hc, Action.bind_error hx]

/-- A command that succeeds answers with what its step gives. -/
theorem reply_of_ok {α : Type} {c : Command} {x : Action α} {f : α → Reply} {reply : Reply}
    (hc : c.run w = (x >>= fun a => pure (f a)) w) (h : w.perform c = (.ok reply, w')) :
    ∃ a, x w = .ok a w' ∧ reply = f a := by
  cases hx : x w with
  | ok a w₁ =>
    rw [perform_ok hc hx] at h
    cases h
    exact ⟨a, rfl, rfl⟩
  | error e w₁ =>
    rw [perform_error hc hx] at h
    cases h

theorem ask_ok {α : Type} {question : World → Except Fault α} {a : α} (h : question w = .ok a) :
    Action.ask question w = .ok a w := by
  change Action.ofExcept (question w) w = _
  rw [h]
  rfl

theorem ask_error {α : Type} {question : World → Except Fault α} {e : Fault}
    (h : question w = .error e) : Action.ask question w = .error e w := by
  change Action.ofExcept (question w) w = _
  rw [h]
  rfl

section Views

variable {v : Vec} {view : View} {region : Nat}

theorem viewOf_of_owned {a : Growable} (h : v.holding = .owned a) :
    w.viewOf v = .ok (a.data w.memory.views) := by
  unfold viewOf
  rw [h]

theorem viewOf_of_empty (h : v.holding = .empty) :
    w.viewOf v = .ok ⟨v.kind, w.memory.buffers.size, 0, 0, w.memory.views⟩ := by
  unfold viewOf
  rw [h]

theorem viewOf_of_borrowed (h : v.holding = .borrowed view region) :
    w.viewOf v = if w.isOpen region then .ok view else .error (w.ended region) := by
  unfold viewOf
  rw [h]

/-- What the view of a vector can be. -/
inductive Viewing (w : World) (v : Vec) : View → Prop where
  | owned {a : Growable} (holding : v.holding = .owned a) : Viewing w v (a.data w.memory.views)
  | empty (holding : v.holding = .empty) :
    Viewing w v ⟨v.kind, w.memory.buffers.size, 0, 0, w.memory.views⟩
  | borrowed {view : View} {region : Nat} (holding : v.holding = .borrowed view region)
      (live : w.isOpen region = true) : Viewing w v view

theorem viewing_of_viewOf (h : w.viewOf v = .ok view) : w.Viewing v view := by
  cases hh : v.holding with
  | owned a =>
    rw [viewOf_of_owned hh] at h
    cases h
    exact .owned hh
  | empty =>
    rw [viewOf_of_empty hh] at h
    cases h
    exact .empty hh
  | borrowed view region =>
    rw [viewOf_of_borrowed hh] at h
    split_ifs at h with ho
    cases h
    exact .borrowed hh ho

/-- There is a view of a vector unless it borrows from a region that is closed. -/
theorem viewOf_cases (w : World) (v : Vec) : (∃ view, w.viewOf v = .ok view) ∨
    ∃ view region, v.holding = .borrowed view region ∧ w.isOpen region = false ∧
      w.viewOf v = .error (.borrowEnded (w.region region).label) := by
  cases hh : v.holding with
  | empty => exact Or.inl ⟨_, viewOf_of_empty hh⟩
  | owned a => exact Or.inl ⟨_, viewOf_of_owned hh⟩
  | borrowed view region =>
    have hview := viewOf_of_borrowed (w := w) hh
    cases ho : w.isOpen region with
    | true =>
      rw [ho, if_pos rfl] at hview
      exact Or.inl ⟨view, hview⟩
    | false =>
      rw [ho, if_neg Bool.false_ne_true] at hview
      exact Or.inr ⟨view, region, rfl, ho, hview⟩

/-- A view of a vector's elements shows all of them. -/
theorem length_of_viewOf (h : w.viewOf v = .ok view) : view.length = v.size := by
  unfold Vec.size
  cases viewing_of_viewOf h with
  | owned hh =>
    rw [hh]
    rfl
  | empty hh => rw [hh]
  | borrowed hh => rw [hh]

end Views

theorem attach_eq (id : Nat) (view : View) (region : Nat) :
    attach id view region w =
      if (w.vec id).mode = .owned then .error .alreadyOwned w
      else if w.isOpen region = true then .ok () (w.setHolding id (.borrowed view region))
      else .error (w.ended region) w := by
  change (if (w.vec id).mode = .owned then throw Fault.alreadyOwned else
    if w.isOpen region then set (w.setHolding id (.borrowed view region))
    else throw (w.ended region) : Action Unit) w = _
  split_ifs <;> rfl

theorem attach_ok {id region : Nat} {view : View} (hm : (w.vec id).mode ≠ .owned)
    (ho : w.isOpen region = true) :
    attach id view region w = .ok () (w.setHolding id (.borrowed view region)) := by
  rw [attach_eq, if_neg hm, if_pos ho]

theorem own_of_owned {a : Growable} (h : (w.vec id).holding = .owned a) : own id w = .ok a w := by
  unfold own
  rw [Action.bind_ok (x := get) rfl, h]
  rfl

theorem own_of_empty (h : (w.vec id).holding = .empty) :
    own id w = .ok (Growable.ofWords w.memory (w.vec id).kind []).1
      (w.withOwned id (Growable.ofWords w.memory (w.vec id).kind []).1
        (Growable.ofWords w.memory (w.vec id).kind []).2 w.promotions) := by
  unfold own
  rw [Action.bind_ok (x := get) rfl, h]
  rfl

section Borrowing

variable {view : View} {region : Nat}

/-- The elements of a view whose region is open are copied, and that is reported. -/
theorem own_of_live (h : (w.vec id).holding = .borrowed view region) (ho : w.isOpen region = true)
    (hs : view.kind.sameSort (w.vec id).kind = true) :
    own id w = .ok (Growable.ofView w.memory (w.vec id).kind view).1
      (w.withOwned id (Growable.ofView w.memory (w.vec id).kind view).1
        (Growable.ofView w.memory (w.vec id).kind view).2
        (w.promotions.push ⟨(w.vec id).kind,
          (Growable.ofView w.memory (w.vec id).kind view).1.length, (w.region region).label⟩)) := by
  unfold own
  rw [Action.bind_ok (x := get) rfl, h]
  simp only [ho, if_true, hs, Action.demand_true]
  rfl

theorem own_of_borrowed (h : (w.vec id).holding = .borrowed view region) (ho : w.isOpen region = true)
    (hs : view.kind.sameSort (w.vec id).kind = true) :
    ∃ p, own id w = .ok (Growable.ofView w.memory (w.vec id).kind view).1
      (w.withOwned id (Growable.ofView w.memory (w.vec id).kind view).1
        (Growable.ofView w.memory (w.vec id).kind view).2 p) := ⟨_, own_of_live h ho hs⟩

/-- Numbers are not converted to exact integers, nor the other way round. -/
theorem own_of_other_sort (h : (w.vec id).holding = .borrowed view region) (ho : w.isOpen region = true)
    (hs : view.kind.sameSort (w.vec id).kind = false) : own id w = .error .sortRefused w := by
  unfold own
  rw [Action.bind_ok (x := get) rfl, h]
  simp only [ho, if_true, hs, Action.demand_false]
  rfl

theorem own_of_ended (h : (w.vec id).holding = .borrowed view region) (ho : w.isOpen region = false) :
    own id w = .error (w.ended region) w := by
  unfold own
  rw [Action.bind_ok (x := get) rfl, h]
  simp only [ho]
  rfl

end Borrowing

/-- How taking a vector to owned storage can end. -/
inductive Owning (w : World) (id : Nat) : EStateM.Result Fault World Growable → Prop where
  | owned {a : Growable} (holding : (w.vec id).holding = .owned a) : Owning w id (.ok a w)
  | empty (holding : (w.vec id).holding = .empty) :
    Owning w id (.ok (Growable.ofWords w.memory (w.vec id).kind []).1
      (w.withOwned id (Growable.ofWords w.memory (w.vec id).kind []).1
        (Growable.ofWords w.memory (w.vec id).kind []).2 w.promotions))
  | promoted {view : View} {region : Nat} (p : Array Promotion)
      (holding : (w.vec id).holding = .borrowed view region) (live : w.isOpen region = true)
      (sort : view.kind.sameSort (w.vec id).kind = true) :
    Owning w id (.ok (Growable.ofView w.memory (w.vec id).kind view).1
      (w.withOwned id (Growable.ofView w.memory (w.vec id).kind view).1
        (Growable.ofView w.memory (w.vec id).kind view).2 p))
  | ended {view : View} {region : Nat} (holding : (w.vec id).holding = .borrowed view region)
      (closed : w.isOpen region = false) : Owning w id (.error (w.ended region) w)
  | otherSort {view : View} {region : Nat} (holding : (w.vec id).holding = .borrowed view region)
      (live : w.isOpen region = true) (sort : view.kind.sameSort (w.vec id).kind = false) :
    Owning w id (.error .sortRefused w)

theorem owning_own (w : World) (id : Nat) : w.Owning id (own id w) := by
  cases hh : (w.vec id).holding with
  | owned a =>
    rw [own_of_owned hh]
    exact .owned hh
  | empty =>
    rw [own_of_empty hh]
    exact .empty hh
  | borrowed view region =>
    cases ho : w.isOpen region with
    | false =>
      rw [own_of_ended hh ho]
      exact .ended hh ho
    | true =>
      cases hs : view.kind.sameSort (w.vec id).kind with
      | true =>
        obtain ⟨p, hp⟩ := own_of_borrowed hh ho hs
        rw [hp]
        exact .promoted p hh ho hs
      | false =>
        rw [own_of_other_sort hh ho hs]
        exact .otherSort hh ho hs

theorem changeOwned_ok {change : Memory → Growable → Except Fault (Growable × Memory)} {w' : World}
    {a a' : Growable} {m : Memory} (h : own id w = .ok a w') (hc : change w'.memory a = .ok (a', m)) :
    changeOwned id change w = .ok () (w'.withOwned id a' m w'.promotions) := by
  unfold changeOwned
  rw [Action.bind_ok h]
  change ((Action.ofExcept (change w'.memory a)) >>= _) w' = _
  rw [hc]
  rfl

theorem changeOwned_error {change : Memory → Growable → Except Fault (Growable × Memory)}
    {w' : World} {a : Growable} {e : Fault} (h : own id w = .ok a w')
    (hc : change w'.memory a = .error e) : changeOwned id change w = .error e w' := by
  unfold changeOwned
  rw [Action.bind_ok h]
  change ((Action.ofExcept (change w'.memory a)) >>= _) w' = _
  rw [hc]
  rfl

theorem changeOwned_of_error {change : Memory → Growable → Except Fault (Growable × Memory)}
    {w' : World} {e : Fault} (h : own id w = .error e w') :
    changeOwned id change w = .error e w' := Action.bind_error h

/-- Making room as a change of an array. -/
def makeRoom (extra : Growable → Binary64) (m : Memory) (a : Growable) :
    Except Fault (Growable × Memory) := (a.reserve m (extra a)).map (·.2)

theorem refuse_eq (id : Nat) (extra : Growable → Binary64) :
    refuse id extra = (changeOwned id (makeRoom extra) >>= fun _ => throw .sortRefused) := rfl

theorem push_eq (w : World) (id : Nat) (x : Scalar) : push id x w =
    if (w.vec id).kind.admits x = true then changeOwned id (fun m a => a.push m x) w
    else refuse id (fun _ => 1) w := by
  unfold push
  rw [Action.bind_ok (x := get) rfl]
  split_ifs <;> rfl

theorem setAt_eq (w : World) (id : Nat) (index : Binary64) (x : Scalar) : setAt id index x w =
    (Action.ofExcept (acceptIndex index (w.vec id).size) >>= fun i =>
      if (w.vec id).kind.admits x = true then
        changeOwned id fun m a => .ok (a, m.writeWords a.slots i [a.kind.store x])
      else own id >>= fun _ => throw .sortRefused) w := rfl

/-- A change of length looks at the fill value only where something is filled. -/
theorem resize_eq (w : World) (id : Nat) (length : Binary64) (fill : Option Scalar) :
    resize id length fill w =
      if (lengthOf? length).isNone = true then .error (.invalidSize length) w
      else if ((w.vec id).kind.admits (fill.getD (w.vec id).kind.zero) || !fills (w.vec id).size length) = true
        then changeOwned id (fun m a => a.resize m length (fill.getD a.kind.zero)) w
      else refuse id (fun a => length - a.size) w := by
  unfold resize
  split_ifs with hnone hfill
  · rfl
  · exact congrFun (if_pos hfill) w
  · exact congrFun (if_neg hfill) w

theorem pushArray_eq (w : World) (id : Nat) (x : Scalar) : pushArray id x w =
    if (w.array id).kind.admits x = true then changeArray id (fun m a => a.push m x) w
    else (reserve id 1 >>= fun _ => (throw .sortRefused : Action Unit)) w := by
  unfold pushArray
  rw [Action.bind_ok (x := get) rfl]
  split_ifs <;> rfl

theorem resizeArray_eq (w : World) (id : Nat) (length : Binary64) (fill : Scalar) :
    resizeArray id length fill w =
      if ((w.array id).kind.admits fill || !fills (w.array id).length length) = true then
        changeArray id (fun m a => a.resize m length fill) w
      else (reserve id (length - (w.array id).size) >>= fun _ => (throw .sortRefused : Action Unit)) w := by
  unfold resizeArray
  rw [Action.bind_ok (x := get) rfl]
  split_ifs <;> rfl

theorem setElement_eq (w : World) (v : View) (index : Binary64) (x : Scalar) : setElement v index x w =
    if v.kind.admits x = true then .ok () { w with memory := w.memory.setElement v index x }
    else .error .sortRefused w := by
  unfold setElement
  cases v.kind.admits x <;> rfl

/-- A write through a view changes memory, or nothing when the sort is wrong. -/
theorem after_setElement (w : World) (v : View) (index : Binary64) (x : Scalar) :
    (setElement v index x).after w = { w with memory := w.memory.setElement v index x } ∨
      (setElement v index x).after w = w := by
  unfold Action.after
  rw [setElement_eq]
  split_ifs
  · exact Or.inl rfl
  · exact Or.inr rfl

theorem pop_ok {w' : World} {a : Growable} (h : own id w = .ok a w') :
    pop id w = .ok (a.pop w'.memory).1
      (w'.withOwned id (a.pop w'.memory).2 w'.memory w'.promotions) := Action.bind_ok h

theorem pop_of_error {w' : World} {e : Fault} (h : own id w = .error e w') :
    pop id w = .error e w' := Action.bind_error h

/-- Memory in which one more view has been given out. -/
def countView (m : Memory) : Memory := { m with views := m.views + 1 }

theorem view?_ok {m m' : Memory} {kind : Kind} {buffer : Nat} {offset : Binary64}
    {length : Option Binary64} {v : View} (h : m.view? kind buffer offset length = .ok (v, m')) :
    v.kind = kind ∧ v.buffer = buffer ∧ v.offset + v.byteLength ≤ (m.buffer buffer).length ∧
      m' = countView m := by
  unfold Memory.view? at h
  simp only at h
  split at h
  · split_ifs at h with hc
    cases h
    simp only [Bool.and_eq_true, decide_eq_true_eq] at hc
    exact ⟨rfl, rfl, hc.2, rfl⟩
  · cases h

theorem writableView_ok {w' : World} {a : Growable} (h : own id w = .ok a w') :
    writableView id w =
      .ok (a.data w'.memory.views) { w' with memory := countView w'.memory } := Action.bind_ok h

theorem writableView_of_error {w' : World} {e : Fault} (h : own id w = .error e w') :
    writableView id w = .error e w' := Action.bind_error h

section Iterations

variable {it position : Nat} {view : View}

theorem deliver_of_some {x : Scalar} (h : w.memory.elementAt? view position = some x) :
    deliver it id view position w =
      .ok (some x) (w.setIteration it (.running id view (position + 1))) := by
  unfold deliver
  rw [Action.bind_ok (x := get) rfl, h]
  rfl

theorem deliver_of_none (h : w.memory.elementAt? view position = none) :
    deliver it id view position w = .ok none (w.setIteration it (.finished id)) := by
  unfold deliver
  rw [Action.bind_ok (x := get) rfl, h]
  rfl

theorem next_of_finished (h : w.iteration it = .finished id) : next it w = .ok none w := by
  unfold next
  rw [Action.bind_ok (x := get) rfl, h]
  rfl

theorem next_of_running (h : w.iteration it = .running id view position) :
    next it w = deliver it id view position w := by
  unfold next
  rw [Action.bind_ok (x := get) rfl, h]

theorem next_of_fresh (h : w.iteration it = .fresh id) (hv : w.viewOf (w.vec id) = .ok view) :
    next it w = deliver it id view 0 w := by
  unfold next
  rw [Action.bind_ok (x := get) rfl, h]
  simp only [hv]

theorem next_of_fresh_error {e : Fault} (h : w.iteration it = .fresh id)
    (hv : w.viewOf (w.vec id) = .error e) :
    next it w = .error e (w.setIteration it (.finished id)) := by
  unfold next
  rw [Action.bind_ok (x := get) rfl, h]
  simp only [hv]
  rfl

end Iterations

theorem scan_ok {α : Type} {reader : Nat} {s : Scan α} {a : α} {offset : Nat}
    (h : s (w.bytes (w.reader reader).source) (w.reader reader).offset = .ok a offset) :
    scan reader s w = .ok a (w.setReader reader { w.reader reader with offset := offset }) := by
  unfold scan
  simp only [h]

theorem scan_error {α : Type} {reader : Nat} {s : Scan α} {e : Fault} {offset : Nat}
    (h : s (w.bytes (w.reader reader).source) (w.reader reader).offset = .error e offset) :
    scan reader s w = .error e (w.setReader reader { w.reader reader with offset := offset }) := by
  unfold scan
  simp only [h]

/-- A scan that has succeeded has moved its reader and nothing else. -/
theorem scan_ok_iff {α : Type} {reader : Nat} {s : Scan α} {a : α} {w' : World} :
    scan reader s w = .ok a w' ↔
      ∃ offset, s (w.bytes (w.reader reader).source) (w.reader reader).offset = .ok a offset ∧
        w' = w.setReader reader { w.reader reader with offset := offset } := by
  constructor
  · intro h
    cases hs : s (w.bytes (w.reader reader).source) (w.reader reader).offset with
    | ok b offset =>
      rw [scan_ok hs] at h
      cases h
      exact ⟨offset, rfl, rfl⟩
    | error e offset =>
      rw [scan_error hs] at h
      cases h
  · rintro ⟨offset, hs, rfl⟩
    exact scan_ok hs

/-- A slice of plain bytes is a copy, and a slice of bytes that share is the bytes themselves. -/
theorem slice_cases (w : World) (r : ByteRange) :
    (r.shares = true ∧ slice r w = .ok r w) ∨
    (r.shares = false ∧ slice r w = .ok (w.memory.alloc (w.bytes r)).1
      { w with memory := (w.memory.alloc (w.bytes r)).2 }) := by
  unfold slice
  cases hr : r.shares with
  | true => exact Or.inl ⟨rfl, if_pos rfl⟩
  | false => exact Or.inr ⟨rfl, if_neg Bool.false_ne_true⟩

theorem slice_of_plain {r : ByteRange} (h : r.shares = false) :
    slice r w = .ok (w.memory.alloc (w.bytes r)).1 { w with memory := (w.memory.alloc (w.bytes r)).2 } := by
  unfold slice
  rw [h]
  rfl

theorem slice_of_shares {r : ByteRange} (h : r.shares = true) : slice r w = .ok r w := if_pos h

/-- The elements of plain bytes are adopted as a copy at the start of a new buffer. -/
theorem adoptCopy_of_plain (vec : Nat) {r : ByteRange} (h : r.shares = false) :
    adoptCopy vec r w = .ok () (w.withOwned vec
      (.over (w.vec vec).kind ⟨w.memory.buffers.size, 0, r.length, false⟩)
      (w.memory.alloc (w.bytes r)).2 w.promotions) := by
  have haligned : (w.vec vec).kind.isAligned 0 = true := by simp [Kind.isAligned]
  unfold adoptCopy
  rw [Action.bind_ok (x := get) rfl, Action.bind_ok (slice_of_plain h)]
  exact congrFun (if_neg (by simp [Memory.alloc, haligned])) _

/-- The elements of bytes that share are adopted where they are, if they are aligned there. -/
theorem adoptCopy_of_shares (vec : Nat) {r : ByteRange} (h : r.shares = true) :
    adoptCopy vec r w =
      if (w.vec vec).kind.isAligned r.offset = true then
        .ok () (w.withOwned vec (.over (w.vec vec).kind r) w.memory w.promotions)
      else .error .viewRefused w := by
  unfold adoptCopy
  rw [Action.bind_ok (x := get) rfl, Action.bind_ok (slice_of_shares h)]
  cases (w.vec vec).kind.isAligned r.offset <;> rfl

/-- How adopting a range can end. -/
inductive Adopting (w : World) (vec : Nat) (r : ByteRange) : EStateM.Result Fault World Unit → Prop where
  | copied (plain : r.shares = false) : Adopting w vec r (.ok () (w.withOwned vec
      (.over (w.vec vec).kind ⟨w.memory.buffers.size, 0, r.length, false⟩)
      (w.memory.alloc (w.bytes r)).2 w.promotions))
  | shared (shares : r.shares = true) (aligned : (w.vec vec).kind.isAligned r.offset = true) :
    Adopting w vec r (.ok () (w.withOwned vec (.over (w.vec vec).kind r) w.memory w.promotions))
  | refused (shares : r.shares = true) (misaligned : (w.vec vec).kind.isAligned r.offset = false) :
    Adopting w vec r (.error .viewRefused w)

theorem adopting_adoptCopy (w : World) (vec : Nat) (r : ByteRange) :
    w.Adopting vec r (adoptCopy vec r w) := by
  cases hr : r.shares with
  | false =>
    rw [adoptCopy_of_plain vec hr]
    exact .copied hr
  | true =>
    rw [adoptCopy_of_shares vec hr]
    cases ha : (w.vec vec).kind.isAligned r.offset with
    | true => exact .shared hr ha
    | false => exact .refused hr ha

/-- A new region is open over the bytes themselves when they start on the boundary or share, and over a copy
otherwise. -/
theorem lend_cases (w : World) (r : ByteRange) (label : Text) :
    ((r.offset % boundary = 0 ∨ r.shares = true) ∧ lend r label w = .ok w.regions.size
      { w with regions := w.regions.push ⟨label, r.length, some r⟩ }) ∨
    ((r.offset % boundary ≠ 0 ∧ r.shares = false) ∧ lend r label w = .ok w.regions.size
      { w with
        memory := (w.memory.alloc (w.bytes r)).2
        regions := w.regions.push ⟨label, r.length, some (w.memory.alloc (w.bytes r)).1⟩ }) := by
  by_cases hb : r.offset % boundary = 0
  · have hheld : onBoundary r w = .ok r w := if_pos hb
    exact Or.inl ⟨Or.inl hb, Action.bind_ok hheld⟩
  · have hslice : onBoundary r w = slice r w := if_neg hb
    rcases slice_cases w r with ⟨hr, h⟩ | ⟨hr, h⟩
    · exact Or.inl ⟨Or.inr hr, Action.bind_ok (hslice.trans h)⟩
    · exact Or.inr ⟨⟨hb, hr⟩, Action.bind_ok (hslice.trans h)⟩

theorem lentBytes_push (w : World) (label : Text) (n : Nat) (held : ByteRange) :
    ({ w with regions := w.regions.push ⟨label, n, some held⟩ } : World).lentBytes w.regions.size =
      .ok held := by
  unfold lentBytes
  rw [region_push, if_pos rfl]

theorem newBorrower_ok {region : Nat} {held : ByteRange} (hopen : w.lentBytes region = .ok held) :
    newBorrower region w =
      .ok w.readers.size { w with readers := w.readers.push ⟨held, 0, some region⟩ } := by
  unfold newBorrower
  rw [Action.bind_ok (x := get) rfl, hopen]
  rfl

/-- The world in which a vector has the storage of an array, and the array has the storage given. -/
def withExchanged (w : World) (id array : Nat) (a : Growable) : World :=
  (w.setHolding id (.owned (w.array array))).setArray array a

theorem swapWith_of_ne {array : Nat} (hk : (w.vec id).kind ≠ (w.array array).kind) :
    swapWith id array w = .error (.kindsDiffer (w.vec id).kind (w.array array).kind) w := by
  change (if (w.vec id).kind ≠ (w.array array).kind then
      (throw (.kindsDiffer (w.vec id).kind (w.array array).kind) : Action Unit) else _) w = _
  rw [if_pos hk]
  rfl

theorem swapWith_eq {array : Nat} (hk : (w.vec id).kind = (w.array array).kind) :
    swapWith id array w = (own id >>= fun a =>
      (modify fun w => w.withExchanged id array a : Action Unit)) w := by
  change (if (w.vec id).kind ≠ (w.array array).kind then
      (throw (.kindsDiffer (w.vec id).kind (w.array array).kind) : Action Unit) else _) w = _
  rw [if_neg fun hne => hne hk]
  rfl

theorem swapWith_ok {array : Nat} {w' : World} {a : Growable}
    (hk : (w.vec id).kind = (w.array array).kind) (h : own id w = .ok a w') :
    swapWith id array w = .ok () (w'.withExchanged id array a) := by
  rw [swapWith_eq hk, Action.bind_ok h]
  rfl

theorem swapWith_of_error {array : Nat} {w' : World} {e : Fault}
    (hk : (w.vec id).kind = (w.array array).kind) (h : own id w = .error e w') :
    swapWith id array w = .error e w' := by
  rw [swapWith_eq hk, Action.bind_error h]

end World

end LeaseVec
