import LeaseVec.Proofs.Bundle.Atomic
import LeaseVec.Proofs.Ownership.Quiet

/-!
# Every promotion is reported once

A promotion is the step in which a change finds a vector borrowed from an open region and takes it to owned
storage. Over any history the reports are the promotions, one each and in order. A vector that has been
promoted borrows nothing until it is attached anew, so between two attaches it is promoted at most once.
-/

namespace LeaseVec

open Number

namespace World

variable {w w' w₁ : World} {id : Nat}

/-- The promotion that a command makes: its vector and what is to be reported. -/
def promotion? (w : World) : Command → Option (Nat × Promotion)
  | .vec id c =>
    match (w.vec id).lender? with
    | some region =>
      if c.mutates ∧ w.isOpen region ∧ ((w.perform (.vec id c)).2.vec id).mode = .owned then
        some (id, ⟨(w.vec id).kind, (w.vec id).size, (w.region region).label⟩)
      else none
    | none => none
  | _ => none

/-- The promotions of a history, in order. -/
def promotionsOf (w : World) : List Command → List (Nat × Promotion)
  | [] => []
  | c :: rest => (w.promotion? c).toList ++ (w.perform c).2.promotionsOf rest

/-- A command attaches a vector to elements that a region lends. -/
def Attaches (w : World) (id : Nat) (c : Command) : Prop :=
  (∃ view region reply, c = .vec id (.attach view region) ∧ (w.perform c).1 = .ok reply) ∨
    ∃ reader stride policy, c = .reader reader (.field id stride policy) ∧
      (w.perform c).1 = .ok (.mode .borrowed)

/-- No command of a history attaches a vector. -/
def Unattached (w : World) (id : Nat) : List Command → Prop
  | [] => True
  | c :: rest => ¬ w.Attaches id c ∧ (w.perform c).2.Unattached id rest

/-- A vector has been taken to owned storage, and then at most that storage was changed. -/
structure Taken (w : World) (id : Nat) (w' : World) : Prop where
  own : ∃ a w₁, World.own id w = .ok a w₁ ∧ w'.promotions = w₁.promotions
  size_eq : w'.vecs.size = w.vecs.size
  others : ∀ j, j ≠ id → w'.vec j = w.vec j
  mode_eq : id < w.vecs.size → (w'.vec id).mode = .owned

theorem mode_withOwned (hid : id < w.vecs.size) (a : Growable) (m : Memory) (p : Array Promotion) :
    ((w.withOwned id a m p).vec id).mode = .owned := by
  rw [vec_withOwned_self a m p hid]
  rfl

theorem taken_of_own {a : Growable} (h : World.own id w = .ok a w₁) : w.Taken id w₁ := by
  refine ⟨⟨a, w₁, h, rfl⟩, ?_, ?_, ?_⟩
  all_goals
    have howning := owning_own w id
    rw [h] at howning
  · cases howning with
    | owned hh => rfl
    | empty hh => exact size_vecs_setHolding ..
    | promoted p hh ho => exact size_vecs_setHolding ..
  · intro j hj
    cases howning with
    | owned hh => rfl
    | empty hh => exact vec_withOwned_of_ne _ _ _ hj
    | promoted p hh ho => exact vec_withOwned_of_ne _ _ _ hj
  · intro hid
    cases howning with
    | owned hh => exact Vec.mode_eq_owned.2 ⟨a, hh⟩
    | empty hh => exact mode_withOwned hid ..
    | promoted p hh ho => exact mode_withOwned hid ..

/-- A change of the storage that a vector has been given. -/
theorem Taken.withOwned (h : w.Taken id w₁) (a : Growable) (m : Memory) :
    w.Taken id (w₁.withOwned id a m w₁.promotions) where
  own := h.own
  size_eq := (size_vecs_setHolding ..).trans h.size_eq
  others := fun j hj => (vec_withOwned_of_ne _ _ _ hj).trans (h.others j hj)
  mode_eq := fun hid => mode_withOwned (h.size_eq ▸ hid) ..

/-- Either a change has done nothing, or it has taken its vector to owned storage. -/
abbrev LeftOrTaken (w : World) (id : Nat) (w' : World) : Prop := w' = w ∨ w.Taken id w'

/-- What is done with the storage does not matter. -/
theorem leftOrTaken_of_own {α : Type} {x : Action α}
    (hok : ∀ a w₁, World.own id w = .ok a w₁ → w.Taken id w₁ → w.Taken id (x.after w))
    (herror : ∀ e w₁, World.own id w = .error e w₁ → x w = .error e w₁) :
    w.LeftOrTaken id (x.after w) := by
  cases h : World.own id w with
  | ok a w₁ => exact Or.inr (hok a w₁ h (taken_of_own h))
  | error e w₁ =>
    rw [Action.after_error (herror e w₁ h)]
    exact Or.inl (own_error h)

theorem leftOrTaken_changeOwned (change : Memory → Growable → Except Fault (Growable × Memory)) :
    w.LeftOrTaken id ((changeOwned id change).after w) := by
  refine leftOrTaken_of_own (fun a w₁ h ht => ?_) fun e w₁ h => changeOwned_of_error h
  cases hstep : change w₁.memory a with
  | ok r =>
    rw [Action.after_ok (changeOwned_ok h hstep)]
    exact ht.withOwned r.1 r.2
  | error e =>
    rw [Action.after_error (changeOwned_error h hstep)]
    exact ht

/-- A change that is refused because of its value has taken the vector to owned storage before. -/
theorem leftOrTaken_refuse (extra : Growable → Binary64) :
    w.LeftOrTaken id ((refuse id extra).after w) := by
  rw [refuse_eq, Action.after_bind_throw]
  exact leftOrTaken_changeOwned (makeRoom extra)

theorem leftOrTaken_setAt (index : Binary64) (value : Scalar) :
    w.LeftOrTaken id ((setAt id index value).after w) := by
  unfold Action.after
  rw [setAt_eq]
  cases acceptIndex index (w.vec id).size with
  | error e => exact Or.inl rfl
  | ok i =>
    rw [Action.bind_ok (x := Action.ofExcept (.ok i)) rfl]
    split_ifs
    · exact leftOrTaken_changeOwned fun m a => .ok (a, m.writeWords a.slots i [a.kind.store value])
    · change w.LeftOrTaken id (Action.after (own id >>= fun _ => throw .sortRefused) w)
      rw [Action.after_bind_throw]
      exact leftOrTaken_of_own (fun _ _ h ht => Action.after_ok h ▸ ht) fun _ _ h => h

theorem leftOrTaken_push (value : Scalar) : w.LeftOrTaken id ((push id value).after w) := by
  unfold Action.after
  rw [push_eq]
  split_ifs
  · exact leftOrTaken_changeOwned fun m a => a.push m value
  · exact leftOrTaken_refuse fun _ => 1

theorem leftOrTaken_resize (length : Binary64) (fill : Option Scalar) :
    w.LeftOrTaken id ((resize id length fill).after w) := by
  unfold Action.after
  rw [resize_eq]
  split_ifs
  · exact Or.inl rfl
  · exact leftOrTaken_changeOwned fun m a => a.resize m length (fill.getD a.kind.zero)
  · exact leftOrTaken_refuse fun a => length - a.size

theorem leftOrTaken_pop : w.LeftOrTaken id ((pop id).after w) := by
  refine leftOrTaken_of_own (fun a w₁ h ht => ?_) fun e w₁ h => pop_of_error h
  rw [Action.after_ok (pop_ok h)]
  exact ht.withOwned _ _

theorem leftOrTaken_writableView : w.LeftOrTaken id ((writableView id).after w) := by
  refine leftOrTaken_of_own (fun a w₁ h ht => ?_) fun e w₁ h => writableView_of_error h
  rw [Action.after_ok (writableView_ok h)]
  exact ⟨ht.own, ht.size_eq, ht.others, ht.mode_eq⟩

theorem leftOrTaken_swapWith (array : Nat) : w.LeftOrTaken id ((swapWith id array).after w) := by
  by_cases hk : (w.vec id).kind = (w.array array).kind
  · refine leftOrTaken_of_own (fun a w₁ h ht => ?_) fun e w₁ h => swapWith_of_error hk h
    rw [Action.after_ok (swapWith_ok hk h)]
    have hheld := ht.withOwned (w₁.array array) w₁.memory
    exact ⟨hheld.own, hheld.size_eq, hheld.others, hheld.mode_eq⟩
  · rw [Action.after_error (swapWith_of_ne hk)]
    exact Or.inl rfl

/-- Every change of a vector does nothing or takes the vector to owned storage. -/
theorem leftOrTaken_perform (w : World) (id : Nat) {c : VecCommand} (hc : c.mutates = true) :
    w.LeftOrTaken id (w.perform (.vec id c)).2 := by
  rw [perform_snd]
  cases c with
  | writable =>
    have hrun : (Command.vec id .writable).run.after w = (writableView id).after w :=
      Action.after_map (writableView id) Reply.view w
    rw [hrun]
    exact leftOrTaken_writableView
  | set index value =>
    have hrun : (Command.vec id (.set index value)).run.after w = (setAt id index value).after w :=
      Action.after_done _ w
    rw [hrun]
    exact leftOrTaken_setAt index value
  | push value =>
    have hrun : (Command.vec id (.push value)).run.after w = (push id value).after w :=
      Action.after_done _ w
    rw [hrun]
    exact leftOrTaken_push value
  | pop =>
    have hrun : (Command.vec id .pop).run.after w = (pop id).after w :=
      Action.after_map (pop id) (Reply.element (w.vec id).kind) w
    rw [hrun]
    exact leftOrTaken_pop
  | resize length fill =>
    have hrun : (Command.vec id (.resize length fill)).run.after w = (resize id length fill).after w :=
      Action.after_done _ w
    rw [hrun]
    exact leftOrTaken_resize length fill
  | swap array =>
    have hrun : (Command.vec id (.swap array)).run.after w = (swapWith id array).after w :=
      Action.after_done _ w
    rw [hrun]
    exact leftOrTaken_swapWith array
  | _ => cases hc

/-- Taking a vector to owned storage reports what was borrowed, and otherwise nothing. -/
theorem promotions_of_own {a : Growable} (h : World.own id w = .ok a w₁) :
    (∃ region, (w.vec id).lender? = some region ∧ w.isOpen region = true ∧ w₁.promotions =
        w.promotions.push ⟨(w.vec id).kind, (w.vec id).size, (w.region region).label⟩) ∨
      (w.vec id).lender? = none ∧ w₁.promotions = w.promotions := by
  have hlength := length_of_own h
  unfold Vec.lender?
  cases hh : (w.vec id).holding with
  | owned b =>
    rw [own_of_owned hh] at h
    cases h
    exact Or.inr ⟨rfl, rfl⟩
  | empty =>
    rw [own_of_empty hh] at h
    cases h
    exact Or.inr ⟨rfl, rfl⟩
  | borrowed view region =>
    cases ho : w.isOpen region with
    | true =>
      cases hs : view.kind.sameSort (w.vec id).kind with
      | true =>
        rw [own_of_live hh ho hs] at h
        cases h
        refine Or.inl ⟨region, rfl, ho, ?_⟩
        rw [← hlength]
        rfl
      | false =>
        rw [own_of_other_sort hh ho hs] at h
        cases h
    | false =>
      rw [own_of_ended hh ho] at h
      cases h

theorem lt_of_lender {region : Nat} (h : (w.vec id).lender? = some region) : id < w.vecs.size := by
  by_contra hge
  rw [vec_of_size_le w (by omega)] at h
  cases h

theorem mode_of_lender {v : Vec} {region : Nat} (h : v.lender? = some region) : v.mode = .borrowed := by
  unfold Vec.lender? at h
  split at h
  · next view _ hh => exact Vec.mode_eq_borrowed.2 ⟨view, _, hh⟩
  · cases h

theorem promotion?_of_none (h : (w.vec id).lender? = none) (c : VecCommand) :
    w.promotion? (.vec id c) = none := by
  unfold promotion?
  simp only [h]

theorem promotion?_of_some {region : Nat} (h : (w.vec id).lender? = some region) (c : VecCommand) :
    w.promotion? (.vec id c) =
      if c.mutates ∧ w.isOpen region ∧ ((w.perform (.vec id c)).2.vec id).mode = .owned then
        some (id, ⟨(w.vec id).kind, (w.vec id).size, (w.region region).label⟩)
      else none := by
  unfold promotion?
  simp only [h]

/-- Only a change of a vector that borrows, and owns its elements afterwards, is a promotion. -/
theorem promotion?_eq_some {c : Command} {event : Nat × Promotion} (h : w.promotion? c = some event) :
    ∃ d region, c = .vec event.1 d ∧ d.mutates = true ∧ (w.vec event.1).lender? = some region ∧
      w.isOpen region = true ∧ ((w.perform c).2.vec event.1).mode = .owned ∧
      event.2 = ⟨(w.vec event.1).kind, (w.vec event.1).size, (w.region region).label⟩ := by
  cases c with
  | vec id d =>
    cases hl : (w.vec id).lender? with
    | none =>
      rw [promotion?_of_none hl] at h
      cases h
    | some region =>
      rw [promotion?_of_some hl] at h
      split_ifs at h with hpromotes
      cases h
      exact ⟨d, region, rfl, hpromotes.1, hl, hpromotes.2.1, hpromotes.2.2, rfl⟩
  | _ => cases h

/-- A command adds its promotion to what has been reported, and nothing else. -/
theorem promotions_perform (w : World) (c : Command) :
    (w.perform c).2.promotions.toList = w.promotions.toList ++ (w.promotion? c).toList.map Prod.snd := by
  cases hc : c.mutates with
  | false =>
    have hnone : w.promotion? c = none := by
      cases hpromotion : w.promotion? c with
      | none => rfl
      | some event =>
        obtain ⟨d, region, rfl, hd, -⟩ := promotion?_eq_some hpromotion
        rw [Command.mutates, hd] at hc
        cases hc
    rw [hnone, (w.quiet_perform hc).promotions]
    simp
  | true =>
    cases c with
    | vec id c =>
      rcases w.leftOrTaken_perform id (c := c) hc with hleft | htaken
      · cases hl : (w.vec id).lender? with
        | none => simp [promotion?_of_none hl, hleft]
        | some region => simp [promotion?_of_some hl, hleft, mode_of_lender hl]
      · obtain ⟨a, w₁, hown, hpromotions⟩ := htaken.own
        rcases promotions_of_own hown with ⟨region, hl, ho, heq⟩ | ⟨hl, heq⟩
        · have hmode := htaken.mode_eq (lt_of_lender hl)
          have hmutates : c.mutates = true := hc
          simp [promotion?_of_some hl, hpromotions, heq, ho, hmode, hmutates]
        · simp [promotion?_of_none hl, hpromotions, heq]
    | _ => cases hc

/-- Over a whole history the reports are the promotions, in order. -/
theorem promotions_performAll (w : World) (history : List Command) :
    (w.performAll history).2.promotions.toList =
      w.promotions.toList ++ (w.promotionsOf history).map Prod.snd := by
  induction history generalizing w with
  | nil => simp [performAll, promotionsOf]
  | cons c rest ih =>
    change ((w.perform c).2.performAll rest).2.promotions.toList = _
    rw [ih, promotions_perform, promotionsOf]
    simp

/-- A vector that is attached comes to borrow, and has owned nothing. -/
theorem mode_attach (w : World) {id : Nat} (hid : id < w.vecs.size) (view : View) (region : Nat) :
    (∃ e, attach id view region w = .error e w) ∨
      ∃ w', attach id view region w = .ok () w' ∧ (w'.vec id).mode = .borrowed ∧ (w.vec id).mode ≠ .owned := by
  rw [attach_eq]
  by_cases hm : (w.vec id).mode = .owned
  · exact Or.inl ⟨_, if_pos hm⟩
  · by_cases ho : w.isOpen region = true
    · rw [if_neg hm, if_pos ho]
      refine Or.inr ⟨_, rfl, ?_, hm⟩
      rw [vec_setHolding_self w _ hid]
      rfl
    · rw [if_neg hm, if_neg ho]
      exact Or.inl ⟨_, rfl⟩

theorem mode_takeElements (w : World) {id : Nat} (hid : id < w.vecs.size) (r : ByteRange) (lender : Option Nat)
    (inPlace : Bool) :
    (∃ e w', takeElements id r lender inPlace w = .error e w' ∧ w'.vecs = w.vecs) ∨
      ∃ w', takeElements id r lender inPlace w = .ok () w' ∧
        ((w'.vec id).mode = .owned ∨ (w'.vec id).mode = .borrowed ∧ (w.vec id).mode ≠ .owned) := by
  have hadopt : (∃ e w', adoptCopy id r w = .error e w' ∧ w'.vecs = w.vecs) ∨
      ∃ w', adoptCopy id r w = .ok () w' ∧
        ((w'.vec id).mode = .owned ∨ (w'.vec id).mode = .borrowed ∧ (w.vec id).mode ≠ .owned) := by
    have hadopting := w.adopting_adoptCopy id r
    revert hadopting
    generalize adoptCopy id r w = x
    rintro (hp | ⟨hs, ha⟩ | ⟨hs, hm⟩)
    · exact Or.inr ⟨_, rfl, Or.inl (mode_withOwned hid _ _ _)⟩
    · exact Or.inr ⟨_, rfl, Or.inl (mode_withOwned hid _ _ _)⟩
    · exact Or.inl ⟨_, w, rfl, rfl⟩
  unfold takeElements
  rw [Action.bind_ok (x := get) rfl]
  cases lender with
  | none => exact hadopt
  | some region =>
    simp only
    split_ifs
    · rcases view_cases w (w.vec id).kind r.buffer (Binary64.ofNat r.offset)
          (some (Binary64.ofNat (r.length / (w.vec id).kind.width))) with ⟨v, m, hview⟩ | ⟨e, hview⟩
      · rw [Action.bind_ok hview]
        rcases mode_attach { w with memory := m } hid v region with ⟨e, hattach⟩ | hattach
        · exact Or.inl ⟨e, _, hattach, rfl⟩
        · obtain ⟨w', hattach, hborrowed, hm⟩ := hattach
          exact Or.inr ⟨w', hattach, Or.inr ⟨hborrowed, hm⟩⟩
      · rw [Action.bind_error hview]
        exact Or.inl ⟨e, w, rfl, rfl⟩
    · exact hadopt

/-- A vector that is read comes to own its elements, or to borrow them when it has owned none. -/
theorem mode_readField (w : World) {id : Nat} (hid : id < w.vecs.size) (reader : Nat) (stride : Binary64)
    (policy : ReadPolicy) :
    (∃ e w', readField reader id stride policy w = .error e w' ∧ w'.vecs = w.vecs) ∨
      ∃ w', readField reader id stride policy w = .ok (w'.vec id).mode w' ∧
        ((w'.vec id).mode = .owned ∨ (w'.vec id).mode = .borrowed ∧ (w.vec id).mode ≠ .owned) := by
  cases hs : acceptStride stride with
  | error e => exact Or.inl ⟨e, w, readField_of_badStride hs, rfl⟩
  | ok s =>
    cases hfield : Scan.field (w.vec id).kind stride policy.bound (w.bytes (w.reader reader).source)
        (w.reader reader).offset with
    | error e offset => exact Or.inl ⟨e, _, readField_of_noField hs hfield, rfl⟩
    | ok found offset =>
      rw [readField_of_field hs hfield]
      rcases mode_takeElements (w.movedTo reader offset) hid ((w.reader reader).source.sub found.1 found.2)
        (w.reader reader).lender policy.inPlace with ⟨e, w', htake, hvecs⟩ | ⟨w', htake, hmode⟩
      · exact Or.inl ⟨e, w', Action.bind_error htake, hvecs⟩
      · exact Or.inr ⟨w', Action.bind_ok htake, hmode⟩

theorem subject?_of_mutates {c : VecCommand} (hc : c.mutates = true) (id : Nat) :
    (Command.vec id c).subject? = some id := by
  cases c with
  | writable => rfl
  | set index value => rfl
  | push value => rfl
  | pop => rfl
  | resize length fill => rfl
  | swap array => rfl
  | _ => cases hc

/-- A call of a vector concerns it when it changes, attaches or clears it. -/
theorem cases_of_subject? {j : Nat} {c : VecCommand} (h : (Command.vec j c).subject? = some id) :
    j = id ∧ (c.mutates = true ∨ (∃ view region, c = .attach view region) ∨ c = .clear) := by
  cases c <;> simp_all [Command.subject?, VecCommand.mutates]

/-- Vectors are never taken away. -/
theorem size_vecs_perform (w : World) (c : Command) : w.vecs.size ≤ (w.perform c).2.vecs.size := by
  cases hc : c.mutates with
  | false => exact (w.quiet_perform hc).size_le
  | true =>
    cases c with
    | vec id c =>
      rcases w.leftOrTaken_perform id (c := c) hc with hleft | htaken
      · rw [hleft]
      · rw [htaken.size_eq]
    | _ => cases hc

/-- A command that does not name a vector leaves it as it is. -/
theorem vec_perform_of_ne {c : Command} (hid : id < w.vecs.size) (hc : c.subject? ≠ some id) :
    (w.perform c).2.vec id = w.vec id := by
  cases hm : c.mutates with
  | false => exact (w.quiet_perform hm).vec id ⟨hid, hc⟩
  | true =>
    cases c with
    | vec j c =>
      have hne : id ≠ j := by
        rintro rfl
        exact hc (subject?_of_mutates hm id)
      rcases w.leftOrTaken_perform j (c := c) hm with hleft | htaken
      · rw [hleft]
      · exact htaken.others id hne
    | _ => cases hm

theorem borrows_attach (hid : id < w.vecs.size) (view : View) (region : Nat) :
    (w.perform (.vec id (.attach view region))).2.vec id = w.vec id ∨
      (w.vec id).mode ≠ .owned ∧ w.Attaches id (.vec id (.attach view region)) := by
  have hrun : (Command.vec id (.attach view region)).run w =
      (attach id view region >>= fun _ => pure Reply.done) w := rfl
  rcases mode_attach w hid view region with ⟨e, hattach⟩ | ⟨w', hattach, -, hm⟩
  · rw [perform_error hrun hattach]
    exact Or.inl rfl
  · have hok := perform_ok hrun hattach
    exact Or.inr ⟨hm, Or.inl ⟨view, region, .done, rfl, congrArg Prod.fst hok⟩⟩

theorem borrows_field (hid : id < w.vecs.size) (reader : Nat) (stride : Binary64) (policy : ReadPolicy)
    (h : ((w.perform (.reader reader (.field id stride policy))).2.vec id).mode = .borrowed) :
    (w.perform (.reader reader (.field id stride policy))).2.vec id = w.vec id ∨
      (w.vec id).mode ≠ .owned ∧ w.Attaches id (.reader reader (.field id stride policy)) := by
  have hrun : (Command.reader reader (.field id stride policy)).run w =
      (readField reader id stride policy >>= fun mode => pure (Reply.mode mode)) w := rfl
  rcases mode_readField w hid reader stride policy with ⟨e, w', hread, hvecs⟩ | ⟨w', hread, hmode⟩
  · rw [perform_error hrun hread]
    refine Or.inl ?_
    unfold World.vec
    rw [hvecs]
  · have hok := perform_ok hrun hread
    rw [hok] at h
    rcases hmode with howned | ⟨hborrowed, hm⟩
    · rw [howned] at h
      cases h
    · refine Or.inr ⟨hm, Or.inr ⟨reader, stride, policy, rfl, ?_⟩⟩
      rw [hok, hborrowed]

/-- A vector that borrows after a command has been left alone, or the command has attached it, and then the vector
owned nothing. -/
theorem borrows_perform {c : Command} (hid : id < w.vecs.size)
    (h : ((w.perform c).2.vec id).mode = .borrowed) :
    (w.perform c).2.vec id = w.vec id ∨ (w.vec id).mode ≠ .owned ∧ w.Attaches id c := by
  by_cases hsubject : c.subject? = some id
  · cases c with
    | vec j c =>
      obtain ⟨rfl, hm | ⟨view, region, rfl⟩ | rfl⟩ := cases_of_subject? hsubject
      · rcases w.leftOrTaken_perform j hm with hleft | htaken
        · rw [hleft]
          exact Or.inl rfl
        · rw [htaken.mode_eq hid] at h
          cases h
      · exact borrows_attach hid view region
      · have hcleared : ((w.setHolding j .empty).vec j).mode = .empty := by
          rw [vec_setHolding_self w _ hid]
          rfl
        have hafter : (w.perform (.vec j .clear)).2 = w.setHolding j .empty := rfl
        rw [hafter, hcleared] at h
        cases h
    | reader reader c =>
      cases c with
      | field vec stride policy =>
        cases hsubject
        exact borrows_field hid reader stride policy h
      | _ => cases hsubject
    | _ => cases hsubject
  · exact Or.inl (vec_perform_of_ne hid hsubject)

/-- The promotions of one vector. -/
abbrev promotionsOfVec (w : World) (id : Nat) (history : List Command) : List (Nat × Promotion) :=
  (w.promotionsOf history).filter fun event => event.1 = id

/-- A vector that borrows nothing is not promoted before it is attached. -/
theorem promotionsOfVec_eq_nil {history : List Command} (hid : id < w.vecs.size)
    (hm : (w.vec id).mode ≠ .borrowed) (hu : w.Unattached id history) : w.promotionsOfVec id history = [] := by
  induction history generalizing w with
  | nil => rfl
  | cons c rest ih =>
    have hhead : ((w.promotion? c).toList.filter fun event => event.1 = id) = [] := by
      cases hevent : w.promotion? c with
      | none => rfl
      | some event =>
        obtain ⟨d, region, -, -, hl, -⟩ := promotion?_eq_some hevent
        have hne : event.1 ≠ id := by
          rintro rfl
          exact hm (mode_of_lender hl)
        simp [hne]
    have hmode : ((w.perform c).2.vec id).mode ≠ .borrowed := by
      intro hborrowed
      rcases borrows_perform hid hborrowed with hsame | ⟨-, hattaches⟩
      · rw [hsame] at hborrowed
        exact hm hborrowed
      · exact hu.1 hattaches
    have hrest := ih (hid.trans_le (w.size_vecs_perform c)) hmode hu.2
    rw [promotionsOfVec, promotionsOf, List.filter_append, hhead, List.nil_append]
    exact hrest

/-- Between two attaches a vector is promoted at most once. -/
theorem length_promotionsOfVec_le {history : List Command} (hid : id < w.vecs.size)
    (hu : w.Unattached id history) : (w.promotionsOfVec id history).length ≤ 1 := by
  induction history generalizing w with
  | nil => exact Nat.zero_le 1
  | cons c rest ih =>
    have hsize := hid.trans_le (w.size_vecs_perform c)
    rw [promotionsOfVec, promotionsOf, List.filter_append]
    by_cases hhead : ∃ event, w.promotion? c = some event ∧ event.1 = id
    · obtain ⟨event, hevent, rfl⟩ := hhead
      obtain ⟨d, region, -, -, -, -, howned, -⟩ := promotion?_eq_some hevent
      have hmode : ((w.perform c).2.vec event.1).mode ≠ .borrowed := by
        rw [howned]
        exact Mode.noConfusion
      have hrest := promotionsOfVec_eq_nil hsize hmode hu.2
      rw [promotionsOfVec] at hrest
      simp [hevent, hrest]
    · have hnone : ((w.promotion? c).toList.filter fun event => event.1 = id) = [] := by
        cases hevent : w.promotion? c with
        | none => rfl
        | some event =>
          have hne : event.1 ≠ id := fun he => hhead ⟨event, hevent, he⟩
          simp [hne]
      rw [hnone, List.nil_append]
      exact ih hsize hu.2

/-- Storage that a vector has just been given has no room for more elements than it has. -/
theorem capacity_of_writable (hid : id < w.vecs.size) (hm : (w.vec id).mode ≠ .owned) {reply : Reply}
    (h : w.perform (.vec id .writable) = (.ok reply, w')) :
    (w'.vec id).capacity = (w.vec id).size ∧ (w'.vec id).size = (w.vec id).size := by
  have hrun : (Command.vec id .writable).run w =
      (writableView id >>= fun view => pure (Reply.view view)) w := rfl
  cases hown : World.own id w with
  | error e w₁ =>
    rw [perform_error hrun (writableView_of_error hown)] at h
    cases h
  | ok a w₁ =>
    rw [perform_ok hrun (writableView_ok hown)] at h
    cases h
    change (w₁.vec id).capacity = _ ∧ (w₁.vec id).size = _
    rw [← length_of_own hown]
    have howning := owning_own w id
    rw [hown] at howning
    cases howning with
    | owned hh => exact (hm (Vec.mode_eq_owned.2 ⟨a, hh⟩)).elim
    | empty hh =>
      rw [vec_withOwned_self _ _ _ hid]
      exact ⟨rfl, rfl⟩
    | promoted p hh ho =>
      rw [vec_withOwned_self _ _ _ hid]
      exact ⟨rfl, rfl⟩

/-- The reports of a world and of every history that goes on from it. -/
structure ReportsOnce (w : World) : Prop where
  /-- A step reports its promotion, if it is one. -/
  step : ∀ c, (w.perform c).2.promotions.toList =
    w.promotions.toList ++ (w.promotion? c).toList.map Prod.snd
  history : ∀ history, (w.performAll history).2.promotions.toList =
    w.promotions.toList ++ (w.promotionsOf history).map Prod.snd
  once : ∀ id history, id < w.vecs.size → w.Unattached id history →
    (w.promotionsOfVec id history).length ≤ 1
  /-- A vector comes to borrow only when it is attached, and has owned nothing before. -/
  borrows : ∀ id c, id < w.vecs.size → ((w.perform c).2.vec id).mode = .borrowed →
    (w.perform c).2.vec id = w.vec id ∨ (w.vec id).mode ≠ .owned ∧ w.Attaches id c
  capacity : ∀ id reply w', id < w.vecs.size → (w.vec id).mode ≠ .owned →
    w.perform (.vec id .writable) = (.ok reply, w') →
      (w'.vec id).capacity = (w.vec id).size ∧ (w'.vec id).size = (w.vec id).size

/-- Whatever the world is, every promotion is reported once and nothing else is. -/
theorem reportsOnce (w : World) : w.ReportsOnce where
  step := w.promotions_perform
  history := w.promotions_performAll
  once := fun _ _ hid hu => length_promotionsOfVec_le hid hu
  borrows := fun _ _ hid h => borrows_perform hid h
  capacity := fun _ _ _ hid hm h => capacity_of_writable hid hm h

end World

end LeaseVec
