import LeaseVec.Proofs.Lifetime.Leases

/-!
# Iterations and the end of a borrow

An iteration looks at its vector when it is asked for the first time, and from then on only at the view that
it found there. So closing the region that lends the elements ends an iteration that has not delivered one
yet: asked again it fails, and after that it is at its end. An iteration that waits between two elements goes
on as if the region were open. Here iterations are asked and regions are closed in any order, any number of
times, and it is told exactly which iterations end with the region.
-/

namespace LeaseVec

/-- What happens in turn: an iteration is asked for its next element, or a region is closed. -/
inductive Turn where
  | ask (iteration : Nat)
  | close (region : Nat)
  deriving DecidableEq

def Turn.command : Turn → Command
  | ask iteration => .next iteration
  | close region => .close region

namespace World

open Number

variable {w w' w₁ : World} {it id region position : Nat} {view : View} {turns : List Turn}

/-- The world after some turns. -/
def afterTurns (w : World) (turns : List Turn) : World := (w.performAll (turns.map Turn.command)).2

theorem afterTurns_append (w : World) (before after : List Turn) :
    w.afterTurns (before ++ after) = (w.afterTurns before).afterTurns after := by
  induction before generalizing w with
  | nil => rfl
  | cons turn rest ih => exact ih (w.perform turn.command).2

/-- Asked for its next element, an iteration delivers one. -/
def Delivers (w : World) (it : Nat) : Prop :=
  ∃ kind x, (w.perform (.next it)).1 = .ok (.element kind (some x))

theorem deliver_of_lt (w : World) (it id : Nat) (h : position < view.length) :
    ∃ x, deliver it id view position w =
      .ok (some x) (w.setIteration it (.running id view (position + 1))) := by
  refine ⟨view.kind.load (Word.decode (w.memory.read
    ⟨view.buffer, view.offset + position * view.kind.width, view.kind.width, false⟩)), ?_⟩
  exact deliver_of_some (if_pos h)

theorem deliver_of_le (h : view.length ≤ position) :
    deliver it id view position w = .ok none (w.setIteration it (.finished id)) :=
  deliver_of_none (if_neg (by omega))

theorem perform_next_ok {x : Option Scalar} (h : next it w = .ok x w') :
    w.perform (.next it) = (.ok (.element (w.iteratedKind it) x), w') :=
  perform_ok (f := fun x => Reply.element (w.iteratedKind it) x) rfl h

theorem perform_next_error {e : Fault} (h : next it w = .error e w') :
    w.perform (.next it) = (.error e, w') :=
  perform_error (f := fun x => Reply.element (w.iteratedKind it) x) rfl h

theorem not_delivers_of_none (h : next it w = .ok none w') : ¬ w.Delivers it := by
  rintro ⟨kind, x, hd⟩
  rw [perform_next_ok h] at hd
  cases hd

/-- What comes of asking an iteration. -/
inductive Answers (w : World) (it : Nat) : EStateM.Result Fault World (Option Scalar) → Prop where
  | delivered {id : Nat} {view : View} {position : Nat} {x : Scalar} (h : position < view.length) :
      Answers w it (.ok (some x) (w.setIteration it (.running id view (position + 1))))
  | ended (id : Nat) : Answers w it (.ok none (w.setIteration it (.finished id)))
  | finished {id : Nat} (h : w.iteration it = .finished id) : Answers w it (.ok none w)
  | failed (id : Nat) (e : Fault) : Answers w it (.error e (w.setIteration it (.finished id)))

theorem answers_deliver (w : World) (it id : Nat) (view : View) (position : Nat) :
    w.Answers it (deliver it id view position w) := by
  rcases Nat.lt_or_ge position view.length with hlt | hge
  · obtain ⟨x, hx⟩ := deliver_of_lt w it id hlt
    rw [hx]
    exact .delivered hlt
  · rw [deliver_of_le hge]
    exact .ended id

theorem answers_next (w : World) (it : Nat) : w.Answers it (next it w) := by
  cases hi : w.iteration it with
  | finished id =>
    rw [next_of_finished hi]
    exact .finished hi
  | running id view position =>
    rw [next_of_running hi]
    exact answers_deliver w it id view position
  | fresh id =>
    cases hv : w.viewOf (w.vec id) with
    | ok view =>
      rw [next_of_fresh hi hv]
      exact answers_deliver w it id view 0
    | error e =>
      rw [next_of_fresh_error hi hv]
      exact .failed id e

/-- Only the iteration that is asked can be different afterwards. -/
theorem next_cases (w : World) (it : Nat) :
    (next it).after w = w ∨ ∃ i, (next it).after w = w.setIteration it i := by
  have h := answers_next w it
  unfold Action.after
  cases hn : next it w with
  | error e w' =>
    rw [hn] at h
    cases h with
    | failed id e => exact Or.inr ⟨_, rfl⟩
  | ok x w' =>
    rw [hn] at h
    cases h with
    | delivered h => exact Or.inr ⟨_, rfl⟩
    | ended id => exact Or.inr ⟨_, rfl⟩
    | finished h => exact Or.inl rfl

theorem perform_next_snd (w : World) (it : Nat) : (w.perform (.next it)).2 = (next it).after w := by
  rw [perform_snd]
  exact Action.after_map (next it) (fun x => Reply.element (w.iteratedKind it) x) w

/-- After some turns vectors are as they were, the regions that were named are closed, and the iterations
that were not named are where they were. -/
structure Turned (w : World) (turns : List Turn) (w' : World) : Prop where
  vec_eq : ∀ id, w'.vec id = w.vec id
  size_eq : w'.iterations.size = w.iterations.size
  label_eq : ∀ region, (w'.region region).label = (w.region region).label
  isOpen_iff : ∀ region, w'.isOpen region = true ↔ w.isOpen region = true ∧ .close region ∉ turns
  iteration_eq : ∀ it, .ask it ∉ turns → w'.iteration it = w.iteration it

theorem Turned.trans {before after : List Turn} (h : w.Turned before w₁) (h' : w₁.Turned after w') :
    w.Turned (before ++ after) w' where
  vec_eq id := (h'.vec_eq id).trans (h.vec_eq id)
  size_eq := h'.size_eq.trans h.size_eq
  label_eq region := (h'.label_eq region).trans (h.label_eq region)
  isOpen_iff region := by
    rw [h'.isOpen_iff, h.isOpen_iff, List.mem_append, not_or, and_assoc]
  iteration_eq it hit := by
    rw [List.mem_append, not_or] at hit
    exact (h'.iteration_eq it hit.2).trans (h.iteration_eq it hit.1)

theorem turned_ask (w : World) (it : Nat) : w.Turned [.ask it] (w.perform (.next it)).2 := by
  rw [perform_next_snd]
  rcases next_cases w it with h | ⟨i, h⟩
  · rw [h]
    exact ⟨fun _ => rfl, rfl, fun _ => rfl, fun _ => by simp, fun _ _ => rfl⟩
  · rw [h]
    refine ⟨fun _ => rfl, size_iterations_setIteration w it i, fun _ => rfl, fun region => ?_,
      fun other hother => ?_⟩
    · show w.isOpen region = true ↔ _
      simp
    · apply iteration_setIteration_of_ne
      simpa using hother

theorem turned_close (w : World) (region : Nat) :
    w.Turned [.close region] (w.perform (.close region)).2 := by
  have h := onlyCloses w [region]
  refine ⟨h.vec_eq, ?_, h.label_eq, fun other => ?_, fun it _ => ?_⟩
  · rw [perform_close]
    rfl
  · refine (h.isOpen_iff other).trans ?_
    simp
  · rw [perform_close]
    rfl

theorem turned_afterTurns (w : World) (turns : List Turn) : w.Turned turns (w.afterTurns turns) := by
  induction turns generalizing w with
  | nil => exact ⟨fun _ => rfl, rfl, fun _ => rfl, fun _ => by simp [afterTurns, performAll], fun _ _ => rfl⟩
  | cons turn rest ih =>
    have hone : w.Turned [turn] (w.perform turn.command).2 := by
      cases turn with
      | ask it => exact turned_ask w it
      | close region => exact turned_close w region
    exact hone.trans (ih (w.perform turn.command).2)

theorem lt_afterTurns (hit : it < w.iterations.size) (turns : List Turn) :
    it < (w.afterTurns turns).iterations.size := by
  rwa [(turned_afterTurns w turns).size_eq]

/-- The iteration has nothing more to deliver. -/
def Spent (w : World) (it : Nat) : Prop :=
  match w.iteration it with
  | .fresh _ => False
  | .running _ view position => view.length ≤ position
  | .finished _ => True

theorem spent_of_finished (h : w.iteration it = .finished id) : w.Spent it := by
  unfold Spent
  rw [h]
  trivial

theorem Spent.next_eq (h : w.Spent it) : ∃ w', next it w = .ok none w' ∧
    (it < w.iterations.size → w'.Spent it) := by
  unfold Spent at h
  cases hi : w.iteration it with
  | fresh id =>
    rw [hi] at h
    exact h.elim
  | finished id => exact ⟨w, next_of_finished hi, fun _ => spent_of_finished hi⟩
  | running id view position =>
    rw [hi] at h
    refine ⟨_, (next_of_running hi).trans (deliver_of_le h), fun hit => ?_⟩
    exact spent_of_finished (iteration_setIteration_self w _ hit)

theorem Spent.not_delivers (h : w.Spent it) : ¬ w.Delivers it := by
  obtain ⟨w', hnext, -⟩ := h.next_eq
  exact not_delivers_of_none hnext

theorem Spent.turn (h : w.Spent it) (hit : it < w.iterations.size) (turn : Turn) :
    (w.perform turn.command).2.Spent it := by
  by_cases hturn : turn = .ask it
  · subst hturn
    obtain ⟨w', hnext, hspent⟩ := h.next_eq
    show (w.perform (.next it)).2.Spent it
    rw [perform_next_ok hnext]
    exact hspent hit
  · have hkept : (w.perform turn.command).2.iteration it = w.iteration it := by
      apply (turned_afterTurns w [turn]).iteration_eq
      simpa using fun heq => hturn heq.symm
    unfold Spent at h ⊢
    rwa [hkept]

/-- An iteration that has nothing more to deliver stays so. -/
theorem Spent.afterTurns (h : w.Spent it) (hit : it < w.iterations.size) (turns : List Turn) :
    (w.afterTurns turns).Spent it := by
  induction turns generalizing w with
  | nil => exact h
  | cons turn rest ih =>
    apply ih (h.turn hit turn)
    exact lt_afterTurns hit [turn]

/-- An iteration that is asked and delivers nothing has nothing more to deliver. -/
theorem spent_of_not_delivers (hit : it < w.iterations.size) (h : ¬ w.Delivers it) :
    (w.perform (.next it)).2.Spent it := by
  have hfinished : ∀ id, (w.setIteration it (.finished id)).Spent it := fun id =>
    spent_of_finished (iteration_setIteration_self w _ hit)
  have hanswers := answers_next w it
  cases hn : next it w with
  | error e w' =>
    rw [perform_next_error hn]
    rw [hn] at hanswers
    cases hanswers with
    | failed id e => exact hfinished id
  | ok x w' =>
    rw [perform_next_ok hn]
    rw [hn] at hanswers
    cases hanswers with
    | delivered hlt => exact (h ⟨_, _, by rw [perform_next_ok hn]⟩).elim
    | ended id => exact hfinished id
    | finished hi => exact spent_of_finished hi

/-- The iteration has been asked before. -/
def Begun (w : World) (it : Nat) : Prop := ∀ id, w.iteration it ≠ .fresh id

theorem begun_of_eq {i : Iteration} (h : w.iteration it = i) (hi : ∀ id, i ≠ .fresh id) : w.Begun it := by
  unfold Begun
  rwa [h]

theorem begun_ask (hit : it < w.iterations.size) : (w.perform (.next it)).2.Begun it := by
  have hanswers := answers_next w it
  cases hn : next it w with
  | error e w' =>
    rw [perform_next_error hn]
    rw [hn] at hanswers
    cases hanswers with
    | failed id e => exact begun_of_eq (iteration_setIteration_self w _ hit) (by simp)
  | ok x w' =>
    rw [perform_next_ok hn]
    rw [hn] at hanswers
    cases hanswers with
    | delivered hlt => exact begun_of_eq (iteration_setIteration_self w _ hit) (by simp)
    | ended id => exact begun_of_eq (iteration_setIteration_self w _ hit) (by simp)
    | finished hi => exact begun_of_eq hi (by simp)

/-- An iteration that has been asked is never at its beginning again. -/
theorem Begun.afterTurns (h : w.Begun it) (hit : it < w.iterations.size) (turns : List Turn) :
    (w.afterTurns turns).Begun it := by
  induction turns generalizing w with
  | nil => exact h
  | cons turn rest ih =>
    refine ih (w := (w.perform turn.command).2) ?_ (lt_afterTurns hit [turn])
    by_cases hturn : turn = .ask it
    · subst hturn
      exact begun_ask hit
    · have hkept := (turned_afterTurns w [turn]).iteration_eq it (by simpa using Ne.symm hturn)
      exact begun_of_eq hkept h

theorem begun_of_mem (hit : it < w.iterations.size) (h : .ask it ∈ turns) :
    (w.afterTurns turns).Begun it := by
  obtain ⟨earlier, later, rfl⟩ := List.append_of_mem h
  have hasked := begun_ask (lt_afterTurns hit earlier)
  rw [afterTurns_append]
  exact hasked.afterTurns (lt_afterTurns (lt_afterTurns hit earlier) [.ask it]) later

theorem spent_of_begun (hb : w.Begun it) (hd : ¬ w.Delivers it) : w.Spent it := by
  cases hi : w.iteration it with
  | fresh id => exact (hb id hi).elim
  | finished id => exact spent_of_finished hi
  | running id view position =>
    rcases Nat.lt_or_ge position view.length with hlt | hge
    · obtain ⟨x, hx⟩ := deliver_of_lt w it id hlt
      exact (hd ⟨_, x, by rw [perform_next_ok ((next_of_running hi).trans hx)]⟩).elim
    · unfold Spent
      rwa [hi]

/-- The iteration ends with a region that is closed after some turns. -/
structure EndsWithRegion (w : World) (it region : Nat) (before : List Turn) : Prop where
  /-- However things go on, it delivers nothing any more. -/
  silent : ∀ after, ¬ (w.afterTurns (before ++ .close region :: after)).Delivers it
  /-- Asked for the first time after that, it fails where it would have delivered an element. -/
  fails : (w.afterTurns before).Delivers it → ∀ after, .ask it ∉ after →
    ((w.afterTurns (before ++ .close region :: after)).perform (.next it)).1 =
      .error (.borrowEnded (w.region region).label)

/-- What happens when an iteration over closed bytes is asked for its first element. -/
theorem perform_next_of_closed (h : w.iteration it = .fresh id)
    (hv : (w.vec id).holding = .borrowed view region) (hclosed : w.isOpen region = false) :
    w.perform (.next it) = (.error (w.ended region), w.setIteration it (.finished id)) := by
  apply perform_next_error
  apply next_of_fresh_error h
  rw [viewOf_of_borrowed hv]
  simp [hclosed]

/-- The iteration is still at its beginning when the region is closed. -/
theorem endsWithRegion_of_fresh {before : List Turn}
    (hv : (w.vec id).holding = .borrowed view region) (hit : it < w.iterations.size)
    (h : (w.afterTurns before).iteration it = .fresh id) : w.EndsWithRegion it region before := by
  -- as long as the iteration is not asked, it waits in front of a region that is closed
  have hwaits : ∀ after, .ask it ∉ after →
      ((w.afterTurns (before ++ .close region :: after)).perform (.next it)).1 =
        .error (.borrowEnded (w.region region).label) := by
    intro after hafter
    have hall := turned_afterTurns w (before ++ .close region :: after)
    have hlast := turned_afterTurns (w.afterTurns before) (.close region :: after)
    rw [← afterTurns_append] at hlast
    have hfresh : (w.afterTurns (before ++ .close region :: after)).iteration it = .fresh id := by
      rw [hlast.iteration_eq it (by simpa using hafter), h]
    have hborrowed : ((w.afterTurns (before ++ .close region :: after)).vec id).holding =
        .borrowed view region := by rw [hall.vec_eq, hv]
    have hclosed : (w.afterTurns (before ++ .close region :: after)).isOpen region = false := by
      rw [← Bool.not_eq_true, hall.isOpen_iff]
      simp
    rw [perform_next_of_closed hfresh hborrowed hclosed]
    show Except.error (Fault.borrowEnded _) = _
    rw [hall.label_eq]
  refine ⟨fun after => ?_, fun _ => hwaits⟩
  by_cases hmem : .ask it ∈ after
  · obtain ⟨first, rest, rfl, hfirst⟩ := List.eq_append_cons_of_mem hmem
    have hstart : before ++ .close region :: (first ++ .ask it :: rest) =
        (before ++ .close region :: first) ++ .ask it :: rest := by simp
    have hfailed : ¬ (w.afterTurns (before ++ .close region :: first)).Delivers it := by
      rintro ⟨kind, x, hd⟩
      rw [hwaits first hfirst] at hd
      cases hd
    rw [hstart, afterTurns_append]
    apply Spent.not_delivers
    have hlt := lt_afterTurns hit (before ++ .close region :: first)
    exact (spent_of_not_delivers hlt hfailed).afterTurns (lt_afterTurns hlt [.ask it]) rest
  · rintro ⟨kind, x, hd⟩
    rw [hwaits after hmem] at hd
    cases hd

/-- The iteration has nothing more to deliver when the region is closed. -/
theorem endsWithRegion_of_spent {before : List Turn} (hit : it < w.iterations.size)
    (h : (w.afterTurns before).Spent it) : w.EndsWithRegion it region before := by
  refine ⟨fun after => ?_, fun hd => (h.not_delivers hd).elim⟩
  rw [afterTurns_append]
  exact (h.afterTurns (lt_afterTurns hit before) _).not_delivers

/-- An iteration that has begun and has more to deliver does so when the region is closed. -/
theorem delivers_close (hd : w.Delivers it) (hb : w.Begun it) :
    (w.perform (.close region)).2.Delivers it := by
  have hkept := (turned_close w region).iteration_eq it (by simp)
  cases hi : w.iteration it with
  | fresh id => exact (hb id hi).elim
  | finished id => exact (not_delivers_of_none (next_of_finished hi) hd).elim
  | running id view position =>
    rcases Nat.lt_or_ge position view.length with hlt | hge
    · rw [hi] at hkept
      obtain ⟨x, hx⟩ := deliver_of_lt (w.perform (.close region)).2 it id hlt
      exact ⟨_, x, by rw [perform_next_ok ((next_of_running hkept).trans hx)]⟩
    · exact (not_delivers_of_none ((next_of_running hi).trans (deliver_of_le hge)) hd).elim

/-- An iteration over borrowed elements ends with the region that lends them exactly if it has not delivered
an element before the region is closed, or has none left to deliver. -/
theorem endsWithRegion_iff (hv : (w.vec id).holding = .borrowed view region)
    (hit : it < w.iterations.size) (hfresh : w.iteration it = .fresh id) (before : List Turn) :
    w.EndsWithRegion it region before ↔
      (∀ earlier later, before = earlier ++ .ask it :: later → ¬ (w.afterTurns earlier).Delivers it) ∨
        ¬ (w.afterTurns before).Delivers it := by
  constructor
  · intro hends
    by_contra hnot
    simp only [not_or, not_forall, not_not] at hnot
    obtain ⟨⟨earlier, later, rfl, -⟩, hd⟩ := hnot
    -- asked before and not at its end, the iteration waits in front of an element
    have hbegun : (w.afterTurns (earlier ++ .ask it :: later)).Begun it := begun_of_mem hit (by simp)
    apply hends.silent []
    rw [afterTurns_append]
    exact delivers_close hd hbegun
  · intro h
    by_cases hmem : .ask it ∈ before
    · apply endsWithRegion_of_spent hit
      rcases h with hnever | hnot
      · obtain ⟨earlier, later, rfl⟩ := List.append_of_mem hmem
        have hlt := lt_afterTurns hit earlier
        have hspent := spent_of_not_delivers hlt (hnever earlier later rfl)
        rw [afterTurns_append]
        exact hspent.afterTurns (lt_afterTurns hlt [.ask it]) later
      · exact spent_of_begun (begun_of_mem hit hmem) hnot
    · apply endsWithRegion_of_fresh hv hit
      rw [(turned_afterTurns w before).iteration_eq it hmem, hfresh]

/-- A vector borrows the two bytes that a region lends, and an iteration over it has not been asked yet. -/
def lentWalk : World :=
  (empty.performAll [.alloc [1, 2], .lend ⟨0, 0, 2, false⟩ [76], .newVec .u8 false,
    .vec 0 (.attach ⟨.u8, 0, 0, 2, 0⟩ 0), .vec 0 .iterate]).2

theorem endsWithRegion_at_once :
    (lentWalk.vec 0).holding = .borrowed ⟨.u8, 0, 0, 2, 0⟩ 0 ∧ 0 < lentWalk.iterations.size ∧
      lentWalk.iteration 0 = .fresh 0 ∧ lentWalk.EndsWithRegion 0 0 [] := by
  have hborrowed : (lentWalk.vec 0).holding = .borrowed ⟨.u8, 0, 0, 2, 0⟩ 0 := rfl
  refine ⟨hborrowed, by decide, rfl, ?_⟩
  apply (endsWithRegion_iff hborrowed (by decide) rfl []).2
  left
  intro earlier later h
  simp at h

/-- An iteration that waits between two elements delivers the second from a region that is closed. -/
theorem waiting_iteration_goes_on :
    (lentWalk.vec 0).holding = .borrowed ⟨.u8, 0, 0, 2, 0⟩ 0 ∧ 0 < lentWalk.iterations.size ∧
      lentWalk.iteration 0 = .fresh 0 ∧
      (lentWalk.afterTurns [.ask 0, .close 0]).isOpen 0 = false ∧
      ((lentWalk.afterTurns [.ask 0, .close 0]).perform (.next 0)).1 = .ok (.element .u8 (some (.number (.ofNat 2)))) ∧
      ¬ lentWalk.EndsWithRegion 0 0 [.ask 0] := by
  have hsecond : ((lentWalk.afterTurns [.ask 0, .close 0]).perform (.next 0)).1 =
      .ok (.element .u8 (some (.number (.ofNat 2)))) := rfl
  refine ⟨rfl, by decide, rfl, rfl, hsecond, fun h => ?_⟩
  exact h.silent [] ⟨_, _, hsecond⟩

end World

end LeaseVec
