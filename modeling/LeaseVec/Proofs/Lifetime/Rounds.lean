import LeaseVec.Proofs.Ownership.Bystanders

/-!
# Iterations are bounded and steady

From its first element on, an iteration goes along the view that it found, one position each time it is asked.
Nothing else moves it, so it delivers as many elements as its vector had then, and a loop over it ends whatever
the loop does. What it delivers is read when it is asked: as long as nobody writes the bytes of the view, these
are the elements that the vector had. The bytes of a borrowed vector are nobody's storage, so no change of a
vector writes them.
-/

namespace LeaseVec

open Number

/-- A command asks an iteration for its next element. -/
def Command.asks (it : Nat) : Command → Bool
  | next i => i = it
  | _ => false

theorem Command.asks_next (it : Nat) : (next it).asks it = true := by simp [asks]

/-- A command writes bytes where its caller says. -/
def Command.writesAt : Command → Bool
  | poke .. | setElement .. => true
  | _ => false

/-- The element in a reply, if there is one. -/
def Reply.element? : Reply → Option Scalar
  | element _ x => x
  | _ => none

namespace World

variable {w w' w'' : World} {it id p : Nat} {view : View} {r : ByteRange} {c : Command} {history : List Command}

/-- What comes of asking an iteration: an element, or none, or a fault. -/
def answerOf (w : World) (it : Nat) : Except Fault (Option Scalar) :=
  (w.perform (.next it)).1.map Reply.element?

/-- What an iteration answers in a history, each time that it is asked. -/
def answersOf (w : World) (it : Nat) : List Command → List (Except Fault (Option Scalar))
  | [] => []
  | c :: rest =>
    if c.asks it then w.answerOf it :: answersOf (w.perform c).2 it rest
    else answersOf (w.perform c).2 it rest

/-- The rounds of an iteration in a history, counted from zero. -/
def rounds (it : Nat) (history : List Command) : List Nat := List.range (history.countP (Command.asks it))

/-- Every command of a history is carried out in a world that suits it. -/
def Throughout (suits : World → Command → Prop) (w : World) : List Command → Prop
  | [] => True
  | c :: rest => suits w c ∧ (w.perform c).2.Throughout suits rest

/-- A command does not write to the bytes of a range on its caller's account, nor give them to a vector. -/
def Leaves (r : ByteRange) (w : World) (c : Command) : Prop :=
  if c.writesAt then (w.perform c).2.bytes r = w.bytes r else c.Spares w (· = r.buffer)

/-- A loop over an iteration: as long as it is given an element, it carries out commands that may depend on
the element and on everything else. The number is that of its rounds. -/
inductive Loops (it : Nat) (body : World → Scalar → List Command) : World → Nat → World → Prop where
  | done {w : World} (h : w.answerOf it = .ok none) : Loops it body w 0 (w.perform (.next it)).2
  | round {w w' : World} {x : Scalar} {n : Nat} (h : w.answerOf it = .ok (some x))
      (rest : Loops it body ((w.perform (.next it)).2.performAll (body (w.perform (.next it)).2 x)).2 n w') :
    Loops it body w (n + 1) w'

/-- An iteration over a vector is asked for the first time, and the vector's elements are seen through a view:
how the iteration goes on, whatever else happens. -/
structure Steady (w : World) (it id : Nat) (view : View) : Prop where
  viewed : w.viewOf (w.vec id) = .ok view
  /-- What the vector has at that time, as a list. -/
  listed : (w.perform (.vec id .toList)).1 = .ok (.elements (w.vec id).kind (w.memory.elements view))
  /-- It delivers as often as the vector has elements, and from then on it is at its end. -/
  bounded : ∀ history, (w.answersOf it (.next it :: history)).map (Except.map Option.isSome) =
    (rounds it (.next it :: history)).map fun k => .ok (decide (k < (w.vec id).size))
  /-- A loop over it ends, after one round for each element, unless the loop itself asks it for more. -/
  ends : ∀ body : World → Scalar → List Command, (∀ u x, ∀ c ∈ body u x, c.asks it = false) →
    ∃ w', ∀ n u, w.Loops it body n u ↔ n = (w.vec id).size ∧ u = w'
  /-- As long as the bytes of the elements are the same when it is asked, it delivers the elements that the
  vector had. -/
  stable : ∀ history, w.Throughout (fun u _ => u.bytes view.range = w.bytes view.range) (.next it :: history) →
    w.answersOf it (.next it :: history) =
      (rounds it (.next it :: history)).map fun k => .ok (w.memory.elements view)[k]?
  /-- Borrowed bytes that are nobody's storage stay the same unless they are written where a caller says, so it
  makes no difference what is done to the vector, or to the region. -/
  borrowed : ∀ region, (w.vec id).holding = .borrowed view region → w.Foreign view.buffer →
    ∀ history, w.Throughout (Leaves view.range) (.next it :: history) →
      w.answersOf it (.next it :: history) =
        (rounds it (.next it :: history)).map fun k => .ok (w.memory.elements view)[k]?
  /-- With nothing done in between, it delivers the elements one after the other, and then it is at its end. -/
  alone : w.answersOf it (List.replicate ((w.vec id).size + 1) (.next it)) =
    (w.memory.elements view).map (fun x => .ok (some x)) ++ [.ok none]

/-- The iteration is to deliver the element at a position of a view next. -/
inductive Due (w : World) (it : Nat) (view : View) : Nat → Prop where
  | first {id : Nat} (h : w.iteration it = .fresh id) (hv : w.viewOf (w.vec id) = .ok view) : Due w it view 0
  | running {id p : Nat} (h : w.iteration it = .running id view p) : Due w it view p
  | finished {id p : Nat} (h : w.iteration it = .finished id) (hp : view.length ≤ p) : Due w it view p

/-- The iteration is on its way along a view. -/
structure OnWay (w : World) (it : Nat) (view : View) (p : Nat) : Prop where
  lt : it < w.iterations.size
  begun : w.Begun it
  due : w.Due it view p

theorem answerOf_of_ok {x : Option Scalar} (h : next it w = .ok x w') : w.answerOf it = .ok x := by
  unfold answerOf
  rw [perform_next_ok h]
  rfl

theorem next_of_due (hit : it < w.iterations.size) (h : w.Due it view p) :
    ∃ w', next it w = .ok (w.memory.elementAt? view p) w' ∧ w'.memory = w.memory ∧ w'.Due it view (p + 1) := by
  -- along the view, at an element or behind the last
  have hdeliver : ∀ id, ∃ w', deliver it id view p w = .ok (w.memory.elementAt? view p) w' ∧
      w'.memory = w.memory ∧ w'.Due it view (p + 1) := by
    intro id
    cases hx : w.memory.elementAt? view p with
    | some x => exact ⟨_, deliver_of_some hx, rfl, .running (iteration_setIteration_self w _ hit)⟩
    | none =>
      have hend : view.length ≤ p := by
        by_contra hlt
        simp [Memory.elementAt?, not_le.1 hlt] at hx
      exact ⟨_, deliver_of_none hx, rfl, .finished (iteration_setIteration_self w _ hit) (by omega)⟩
  cases h with
  | @first id h hv =>
    rw [next_of_fresh h hv]
    exact hdeliver id
  | @running id p h =>
    rw [next_of_running h]
    exact hdeliver id
  | @finished id p h hp =>
    have hnone : w.memory.elementAt? view p = none := if_neg (by omega)
    refine ⟨w, ?_, rfl, .finished h (by omega)⟩
    rw [next_of_finished h, hnone]

/-- Asked for what is due, an iteration delivers it, and then the next position is due. -/
theorem Due.ask (h : w.Due it view p) (hit : it < w.iterations.size) :
    w.answerOf it = .ok (w.memory.elementAt? view p) ∧ (w.perform (.next it)).2.memory = w.memory ∧
      (w.perform (.next it)).2.OnWay it view (p + 1) := by
  have hbegun := begun_ask hit
  have hlt := lt_afterTurns hit [.ask it]
  obtain ⟨w', hnext, hm, hdue⟩ := next_of_due hit h
  refine ⟨answerOf_of_ok hnext, ?_, hlt, hbegun, ?_⟩
  · rw [perform_next_ok hnext]
    exact hm
  · rw [perform_next_ok hnext]
    exact hdue

/-- What is not asked of an iteration does not move it. -/
theorem OnWay.other (h : w.OnWay it view p) (hc : c.asks it = false) : (w.perform c).2.OnWay it view p := by
  have hsolitary : c.solitary? ≠ some (.iteration it) := by
    cases c with
    | next i =>
      intro he
      cases he
      exact absurd hc (by simp [Command.asks])
    | _ => intro he; cases he
  have hkept := (passesBy_perform w hsolitary c.spares_nothing).solitary _ (solitary_iteration h.lt)
  obtain ⟨hlt, hsame⟩ := iteration_of_solitary hkept
  refine ⟨hlt, begun_of_eq hsame h.begun, ?_⟩
  cases h.due with
  | @first id hi => exact absurd hi (h.begun id)
  | running hi => exact .running (hsame.trans hi)
  | finished hi hp => exact .finished (hsame.trans hi) hp

theorem OnWay.others (h : w.OnWay it view p) (hc : ∀ c ∈ history, c.asks it = false) :
    (w.performAll history).2.OnWay it view p := by
  induction history generalizing w with
  | nil => exact h
  | cons c rest ih =>
    exact ih (h.other (hc c List.mem_cons_self)) fun c' hc' => hc c' (List.mem_cons_of_mem c hc')

/-- What the answers have of the elements at their positions, when that is the same each time. -/
theorem OnWay.map_answersOf {γ : Type} {g : Option Scalar → γ} {f : Nat → γ} (h : w.OnWay it view p)
    (hf : w.Throughout (fun u _ => ∀ k, g (u.memory.elementAt? view k) = f k) history) :
    (w.answersOf it history).map (Except.map g) =
      (List.range' p (history.countP (Command.asks it))).map fun k => .ok (f k) := by
  induction history generalizing w p with
  | nil => rfl
  | cons c rest ih =>
    by_cases hc : c.asks it
    · obtain rfl : c = .next it := by
        cases c with
        | next i => rw [of_decide_eq_true hc]
        | _ => exact absurd hc (by simp [Command.asks])
      obtain ⟨hanswer, -, hnext⟩ := h.due.ask h.lt
      have hfirst : (w.answerOf it).map g = .ok (f p) := by
        rw [hanswer]
        exact congrArg Except.ok (hf.1 p)
      rw [answersOf, if_pos hc, List.countP_cons_of_pos hc, List.range'_succ, List.map_cons, List.map_cons,
        hfirst, ih hnext hf.2]
    · rw [answersOf, if_neg hc, List.countP_cons_of_neg hc]
      exact ih (h.other (Bool.eq_false_iff.2 hc)) hf.2

theorem Due.map_answersOf {γ : Type} {g : Option Scalar → γ} {f : Nat → γ} (h : w.Due it view 0)
    (hit : it < w.iterations.size)
    (hf : w.Throughout (fun u _ => ∀ k, g (u.memory.elementAt? view k) = f k) (.next it :: history)) :
    (w.answersOf it (.next it :: history)).map (Except.map g) =
      (rounds it (.next it :: history)).map fun k => .ok (f k) := by
  obtain ⟨hanswer, -, hnext⟩ := h.ask hit
  have hfirst : (w.answerOf it).map g = .ok (f 0) := by
    rw [hanswer]
    exact congrArg Except.ok (hf.1 0)
  rw [answersOf, if_pos (Command.asks_next it), rounds, List.countP_cons_of_pos (Command.asks_next it),
    List.range_eq_range', List.range'_succ, List.map_cons, List.map_cons, hfirst, hnext.map_answersOf hf.2]

theorem Throughout.mono {suits suits' : World → Command → Prop} (h : w.Throughout suits history)
    (hs : ∀ u c, suits u c → suits' u c) : w.Throughout suits' history := by
  induction history generalizing w with
  | nil => trivial
  | cons c rest ih => exact ⟨hs w c h.1, ih h.2⟩

theorem throughout_of_forall {suits : World → Command → Prop} (hs : ∀ u c, suits u c) :
    w.Throughout suits history := by
  induction history generalizing w with
  | nil => trivial
  | cons c rest ih => exact ⟨hs w c, ih⟩

/-- The elements of a view are those of its bytes. -/
theorem elementAt?_of_bytes (h : w'.bytes view.range = w.bytes view.range) (k : Nat) :
    w'.memory.elementAt? view k = (w.memory.elements view)[k]? := by
  have hwords : w'.memory.words view = w.memory.words view :=
    congrArg (Word.split view.kind.width view.length) h
  rw [Memory.elementAt?_eq, Memory.elements, Memory.elements, hwords]

theorem Due.answersOf_eq (h : w.Due it view 0) (hit : it < w.iterations.size)
    (hkept : w.Throughout (fun u _ => u.bytes view.range = w.bytes view.range) (.next it :: history)) :
    w.answersOf it (.next it :: history) =
      (rounds it (.next it :: history)).map fun k => .ok (w.memory.elements view)[k]? := by
  have hmap := h.map_answersOf hit (g := id) (hkept.mono fun u _ hu => elementAt?_of_bytes hu)
  have hid : (Except.map id : Except Fault (Option Scalar) → _) = id := funext fun e => by cases e <;> rfl
  rwa [hid, List.map_id] at hmap

/-- With nothing done in between, bytes stay the same. -/
theorem throughout_replicate_next (h : w.Due it view p) (hit : it < w.iterations.size) (n : Nat) :
    w.Throughout (fun u _ => u.memory = w.memory) (List.replicate n (.next it)) := by
  induction n generalizing w p with
  | zero => trivial
  | succ n ih =>
    obtain ⟨-, hm, hnext⟩ := h.ask hit
    refine ⟨rfl, (ih hnext.due hnext.lt).mono fun u _ hu => hu.trans hm⟩

section Loops

variable {body : World → Scalar → List Command} {m n : Nat}

theorem Loops.unique (h : w.Loops it body n w') (h' : w.Loops it body m w'') : m = n ∧ w'' = w' := by
  induction h generalizing m with
  | done h =>
    cases h' with
    | done => exact ⟨rfl, rfl⟩
    | round h' => exact absurd (h.symm.trans h') (by simp)
  | round h _ ih =>
    cases h' with
    | done h' => exact absurd (h.symm.trans h') (by simp)
    | round h' rest =>
      cases h.symm.trans h'
      obtain ⟨hm, hw⟩ := ih rest
      exact ⟨congrArg (· + 1) hm, hw⟩

/-- A loop has as many rounds as there are positions left. -/
theorem Due.exists_loops (h : w.Due it view p) (hit : it < w.iterations.size)
    (hbody : ∀ u x, ∀ c ∈ body u x, c.asks it = false) : ∃ w', w.Loops it body (view.length - p) w' := by
  induction hleft : view.length - p generalizing w p with
  | zero =>
    obtain ⟨hanswer, -, -⟩ := h.ask hit
    have hnone : w.memory.elementAt? view p = none := if_neg (by omega)
    exact ⟨_, .done (hanswer.trans (congrArg Except.ok hnone))⟩
  | succ left ih =>
    obtain ⟨hanswer, -, hnext⟩ := h.ask hit
    obtain ⟨x, hx⟩ : ∃ x, w.memory.elementAt? view p = some x := ⟨_, if_pos (by omega)⟩
    have hafter := hnext.others (hbody (w.perform (.next it)).2 x)
    obtain ⟨w', hrest⟩ := ih hafter.due hafter.lt (by omega)
    exact ⟨w', .round (hanswer.trans (congrArg Except.ok hx)) hrest⟩

end Loops

/-- Bytes that are nobody's storage are the same after a command that leaves them, and still nobody's storage. -/
theorem leaves_perform (hf : w.Foreign r.buffer) (h : Leaves r w c) :
    (w.perform c).2.Foreign r.buffer ∧ (w.perform c).2.bytes r = w.bytes r := by
  unfold Leaves at h
  split_ifs at h with hc
  · refine ⟨?_, h⟩
    rw [perform_snd]
    cases c with
    | poke range index value => exact (safe_done (advances_setElement ..)).after.foreign _ hf
    | setElement v index value => exact (safe_done (advances_setElement v index value)).after.foreign _ hf
    | _ => cases hc
  · obtain ⟨o, ho⟩ : ∃ o, c.solitary? ≠ some o := by
      by_cases hs : c.solitary? = some (.iteration 0)
      · exact ⟨.writer 0, by rw [hs]; simp⟩
      · exact ⟨_, hs⟩
    obtain ⟨hforeign, hsame⟩ := (passesBy_perform w ho h).shared _ rfl hf
    exact ⟨hforeign, Memory.read_congr hsame⟩

theorem throughout_bytes (hf : w.Foreign r.buffer) (h : w.Throughout (Leaves r) history) :
    w.Throughout (fun u _ => u.bytes r = w.bytes r) history := by
  induction history generalizing w with
  | nil => trivial
  | cons c rest ih =>
    obtain ⟨hforeign, hsame⟩ := leaves_perform hf h.1
    exact ⟨rfl, (ih hforeign h.2).mono fun u _ hu => hu.trans hsame⟩

/-- One position more than there are gives the whole list, and then nothing. -/
theorem map_range_getElem? {γ δ : Type} (items : List γ) (f : Option γ → δ) :
    (List.range (items.length + 1)).map (fun k => f items[k]?) = items.map (fun x => f (some x)) ++ [f none] := by
  rw [List.range_succ, List.map_append]
  congr 1
  · apply List.ext_getElem
    · simp
    · intro k hk _
      simp at hk
      simp [hk]
  · simp

theorem answersOf_replicate (h : w.Due it view 0) (hit : it < w.iterations.size) :
    w.answersOf it (List.replicate (view.length + 1) (.next it)) =
      (w.memory.elements view).map (fun x => .ok (some x)) ++ [.ok none] := by
  have hkept : w.Throughout (fun u _ => u.bytes view.range = w.bytes view.range)
      (List.replicate (view.length + 1) (.next it)) :=
    (throughout_replicate_next h hit _).mono fun u _ hu => congrArg (Memory.read · view.range) hu
  have hrounds : rounds it (List.replicate (view.length + 1) (.next it)) = List.range (view.length + 1) := by
    rw [rounds, List.countP_replicate, if_pos (Command.asks_next it)]
  have hall := h.answersOf_eq hit hkept
  change _ = (rounds it (List.replicate (view.length + 1) (.next it))).map _ at hall
  rw [hrounds, ← Memory.length_elements w.memory view] at hall
  rw [← Memory.length_elements w.memory view]
  exact hall.trans (map_range_getElem? _ _)

theorem perform_toList (hv : w.viewOf (w.vec id) = .ok view) :
    (w.perform (.vec id .toList)).1 = .ok (.elements (w.vec id).kind (w.memory.elements view)) := by
  have hc : (Command.vec id .toList).run w = (Action.ask (fun u => u.elements (w.vec id)) >>=
      fun items => pure (Reply.elements (w.vec id).kind items)) w := rfl
  have helements : w.elements (w.vec id) = .ok (w.memory.elements view) := by
    rw [elements, hv]
    rfl
  rw [perform_ok hc (ask_ok helements)]

theorem steady_of_due (hit : it < w.iterations.size) (hv : w.viewOf (w.vec id) = .ok view)
    (h : w.Due it view 0) : w.Steady it id view where
  viewed := hv
  listed := perform_toList hv
  bounded history := by
    apply h.map_answersOf hit
    refine throughout_of_forall fun u _ k => ?_
    rw [Memory.elementAt?, length_of_viewOf hv]
    split_ifs with hk <;> simp [hk]
  ends body hbody := by
    obtain ⟨w', hloops⟩ := h.exists_loops hit hbody
    rw [Nat.sub_zero, length_of_viewOf hv] at hloops
    refine ⟨w', fun n u => ⟨hloops.unique, ?_⟩⟩
    rintro ⟨rfl, rfl⟩
    exact hloops
  stable history := h.answersOf_eq hit
  borrowed region _ hf history hleaves := h.answersOf_eq hit (throughout_bytes (r := view.range) hf hleaves)
  alone := by
    rw [← length_of_viewOf hv]
    exact answersOf_replicate h hit

/-- An iteration that does not fail when it is asked for the first time goes on steadily: it delivers as many
elements as its vector has at that time, and it delivers these elements as long as nobody writes them. -/
theorem steady_of_first (hit : it < w.iterations.size) (hfresh : w.iteration it = .fresh id)
    {reply : Reply} (hfirst : (w.perform (.next it)).1 = .ok reply) : ∃ view, w.Steady it id view := by
  cases hv : w.viewOf (w.vec id) with
  | error e =>
    rw [perform_next_error (next_of_fresh_error hfresh hv)] at hfirst
    cases hfirst
  | ok view => exact ⟨view, steady_of_due hit hv (.first hfresh hv)⟩

theorem steady_lentWalk :
    0 < lentWalk.iterations.size ∧ lentWalk.iteration 0 = .fresh 0 ∧
      (lentWalk.perform (.next 0)).1 = .ok (.element .u8 (some (.number (.ofNat 1)))) ∧
      ∃ view, lentWalk.Steady 0 0 view := by
  have hfirst : (lentWalk.perform (.next 0)).1 = .ok (.element .u8 (some (.number (.ofNat 1)))) := rfl
  exact ⟨by decide, rfl, hfirst, steady_of_first (by decide) rfl hfirst⟩

/-- Between the two elements the vector is cut and then cleared, and the region is closed. -/
example : lentWalk.answersOf 0 [.next 0, .vec 0 .pop, .vec 0 .clear, .close 0, .next 0, .next 0] =
    [.ok (some (.number (.ofNat 1))), .ok (some (.number (.ofNat 2))), .ok none] := by
  rfl

end World

end LeaseVec
