import LeaseVec.Proofs.Growable.Contents
import LeaseVec.Proofs.Lifetime.Borrows
import LeaseVec.Proofs.Ownership.Histories

/-!
# What a change does to the words of a vector

Every change of a vector first takes it to owned storage. When what the vector holds is of its own kind, the
words of its elements are copied as they are, so all that can be seen of the copy is that the vector owns its
elements afterwards. The words of a vector are followed here through every change, whether it succeeds or is
refused after the copy has been made.
-/

namespace LeaseVec

open Number Number.Binary64

/-- Storage that exists and fits its buffer. -/
structure Growable.Stored (m : Memory) (a : Growable) : Prop where
  lt : a.buffer < m.buffers.size
  fits : a.Fits m

theorem Growable.Stored.of_grows {m m' : Memory} {a : Growable} (h : a.Stored m) (hg : m.Grows m') :
    a.Stored m' := ⟨h.lt.trans_le hg.size_le, h.fits.of_grows hg h.lt⟩

theorem Growable.Stored.update {m m' : Memory} {a a' : Growable} (h : a.Stored m)
    (hu : Growable.Updates m a m' a') (hm : m'.Addressable) : a'.Stored m' :=
  ⟨hu.buffer_lt h.lt, hu.fits (hm.of_grows hu.grows) h.fits⟩

theorem Growable.Fresh.stored {m m' : Memory} {a : Growable} (h : Growable.Fresh m m' a) :
    a.Stored m' := ⟨h.buffer_lt, h.fits⟩

/-- What a vector holds is there, and it is of the vector's kind. -/
def Vec.Sound (m : Memory) (v : Vec) : Prop :=
  match v.holding with
  | .empty => True
  | .borrowed view _ => view.kind = v.kind ∧ m.Covers view.range
  | .owned a => a.kind = v.kind ∧ a.Stored m

theorem Vec.Sound.of_grows {m m' : Memory} {v : Vec} (h : v.Sound m) (hg : m.Grows m') : v.Sound m' := by
  unfold Vec.Sound at h ⊢
  cases hh : v.holding with
  | empty => trivial
  | borrowed view region =>
    rw [hh] at h
    exact ⟨h.1, h.2.of_grows hg⟩
  | owned a =>
    rw [hh] at h
    exact ⟨h.1, h.2.of_grows hg⟩

/-- The changes that take a vector to owned storage and edit it there. -/
def VecCommand.Edits : VecCommand → Prop
  | writable | set _ _ | push _ | pop | resize _ _ => True
  | _ => False

/-- What a change makes of the words of the elements. -/
def VecCommand.rewrite (kind : Kind) (words : List Nat) : VecCommand → List Nat
  | set index value => (index.toNat?.map fun i => words.set i (kind.store value)).getD words
  | push value => words ++ [kind.store value]
  | pop => words.dropLast
  | resize length fill => (length.toNat?.map fun n =>
      words.take n ++ List.replicate (n - words.length) (kind.store (fill.getD kind.zero))).getD words
  | _ => words

/-- The elements that a change is about: the one that is set, the last one that is removed, and those that
are cut off. -/
def VecCommand.Addresses (size : Nat) (c : VecCommand) (i : Nat) : Prop :=
  match c with
  | set index _ => index.toNat? = some i
  | pop => i + 1 = size
  | resize length _ => ∃ n, length.toNat? = some n ∧ n ≤ i
  | _ => False

/-- A change leaves all other elements as they are. -/
theorem VecCommand.rewrite_getElem? (kind : Kind) {words : List Nat} {c : VecCommand} {i : Nat}
    (hi : i < words.length) (hc : ¬ c.Addresses words.length i) :
    (c.rewrite kind words)[i]? = words[i]? := by
  cases c with
  | set index value =>
    cases hn : index.toNat? with
    | none => simp [rewrite, hn]
    | some j =>
      have hne : j ≠ i := fun he => hc (by rw [← he]; exact hn)
      simp [rewrite, hn, hne]
  | push value => simp [rewrite, List.getElem?_append_left hi]
  | pop =>
    have hlt : i < words.length - 1 := by
      have hne : i + 1 ≠ words.length := hc
      omega
    simp [rewrite, List.dropLast_eq_take, List.getElem?_take_of_lt hlt]
  | resize length fill =>
    cases hn : length.toNat? with
    | none => simp [rewrite, hn]
    | some n =>
      have hlt : i < n := by
        by_contra hge
        exact hc ⟨n, hn, by omega⟩
      have htake : i < (words.take n).length := by
        rw [List.length_take]
        omega
      simp [rewrite, hn, List.getElem?_append_left htake, List.getElem?_take_of_lt hlt]
  | _ => rfl

namespace World

variable {w w' : World} {id : Nat}

/-- Storage for a vector in memory that has grown for it: of the vector's kind, and with the words of its
elements. Nothing is written over. -/
structure Promoted (w : World) (id : Nat) (m : Memory) (a : Growable) : Prop where
  grows : w.memory.Grows m
  frame : w.memory.Frame (fun _ => False) m
  kind_eq : a.kind = (w.vec id).kind
  stored : a.Stored m
  words_eq : ∃ view, w.viewOf (w.vec id) = .ok view ∧ a.live m = w.memory.words view

/-- A copy of elements of one kind has the same words. -/
theorem live_ofView (m : Memory) (view : View) :
    (Growable.ofView m view.kind view).1.live (Growable.ofView m view.kind view).2 = m.words view := by
  have hsame : m.wordsAs view view.kind = m.words view := List.map_id'' (Kind.convert_self view.kind) _
  unfold Growable.ofView
  rw [hsame]
  exact Growable.live_ofWords m view.kind fun _ hn => Word.split_lt hn

theorem own_promoted {a : Growable} (hs : (w.vec id).Sound w.memory) (h : own id w = .ok a w') :
    ∃ m p, w' = w.withOwned id a m p ∧ w.Promoted id m a := by
  have howning := owning_own w id
  rw [h] at howning
  unfold Vec.Sound at hs
  cases howning with
  | empty hh =>
    have hf := Growable.fresh_ofWords w.memory (w.vec id).kind []
    exact ⟨_, _, rfl, hf.grows, hf.frame, rfl, hf.stored, _, viewOf_of_empty hh, rfl⟩
  | @promoted view region p hh ho =>
    rw [hh] at hs
    have hf := Growable.fresh_ofWords w.memory (w.vec id).kind (w.memory.wordsAs view (w.vec id).kind)
    refine ⟨_, p, rfl, hf.grows, hf.frame, rfl, hf.stored, view, ?_, ?_⟩
    · exact (viewOf_of_borrowed hh).trans (if_pos ho)
    · rw [← hs.1]
      exact live_ofView w.memory view
  | owned hh =>
    rw [hh] at hs
    have hwords : a.live w.memory = w.memory.words (a.data w.memory.views) :=
      Memory.words_eq_of_range rfl rfl rfl rfl
    exact ⟨_, _, (withOwned_self hh).symm, Memory.Grows.refl _, Memory.Frame.refl _ _, hs.1, hs.2, _,
      viewOf_of_owned hh, hwords⟩

/-- A vector owns storage of its kind with certain words, and nothing else is different. -/
def Owns (w : World) (id : Nat) (words : List Nat) (w' : World) : Prop :=
  ∃ a m p, w' = w.withOwned id a m p ∧ w.memory.Grows m ∧ a.kind = (w.vec id).kind ∧
    (m.Addressable → a.Stored m ∧ a.live m = words)

/-- How a change of a vector ends. -/
inductive Changed (w : World) (id : Nat) (c : VecCommand) : Except Fault Reply × World → Prop where
  /-- It is refused, and nothing has happened. -/
  | refused (e : Fault) : Changed w id c (.error e, w)
  /-- It fails after the vector has been taken to owned storage. -/
  | failed (e : Fault) {view : View} {w' : World} (hv : w.viewOf (w.vec id) = .ok view)
      (h : w.Owns id (w.memory.words view) w') : Changed w id c (.error e, w')
  | done (reply : Reply) {view : View} {w' : World} (hv : w.viewOf (w.vec id) = .ok view)
      (h : w.Owns id (c.rewrite (w.vec id).kind (w.memory.words view)) w') : Changed w id c (.ok reply, w')

/-- A change that is a step of the owned storage. -/
theorem changed_changeOwned (hs : (w.vec id).Sound w.memory) {c : VecCommand}
    (change : Memory → Growable → Except Fault (Growable × Memory))
    (hrun : (Command.vec id c).run w = (changeOwned id change >>= fun _ => pure .done) w)
    (hupdates : ∀ m a a' m', change m a = .ok (a', m') → Growable.Updates m a m' a')
    (hlive : ∀ m a a' m', change m a = .ok (a', m') → w.Promoted id m a → m.Addressable →
      a'.live m' = c.rewrite (w.vec id).kind (a.live m)) :
    w.Changed id c (w.perform (.vec id c)) := by
  cases hown : own id w with
  | error e w₁ =>
    rw [perform_error hrun (changeOwned_of_error hown), own_error hown]
    exact .refused e
  | ok a w₁ =>
    obtain ⟨m, p, rfl, hp⟩ := own_promoted hs hown
    obtain ⟨view, hv, hwords⟩ := hp.words_eq
    cases hstep : change m a with
    | error e =>
      rw [perform_error hrun (changeOwned_error hown hstep)]
      exact .failed e hv ⟨a, m, p, rfl, hp.grows, hp.kind_eq, fun _ => ⟨hp.stored, hwords⟩⟩
    | ok r =>
      obtain ⟨a', m'⟩ := r
      have hu := hupdates m a a' m' hstep
      rw [perform_ok hrun (changeOwned_ok hown hstep), withOwned_withOwned]
      refine .done _ hv ⟨a', m', _, rfl, hp.grows.trans hu.grows, hu.kind_eq.trans hp.kind_eq,
        fun hm => ⟨hp.stored.update hu hm, ?_⟩⟩
      rw [hlive m a a' m' hstep hp (hm.of_grows hu.grows), hwords]

theorem Promoted.length_eq {m : Memory} {a : Growable} (h : w.Promoted id m a) :
    a.length = (w.vec id).size := by
  obtain ⟨view, hv, hwords⟩ := h.words_eq
  have hlength := congrArg List.length hwords
  rw [Growable.length_live, Memory.length_words] at hlength
  rw [hlength, length_of_viewOf hv]

/-- Where there are elements to fill there is a length. -/
theorem exists_of_fills {size : Nat} {x : Binary64} (h : fills size x = true) :
    ∃ n, x.toNat? = some n ∧ size < n := by
  unfold fills lengthOf? at h
  cases hn : x.toNat? with
  | none =>
    rw [hn] at h
    cases h
  | some n =>
    rw [hn] at h
    exact ⟨n, rfl, of_decide_eq_true h⟩

/-- Making room moves the elements and leaves them as they are. -/
theorem live_makeRoom {extra : Growable → Binary64} {m m' : Memory} {a a' : Growable} (ha : a.Stored m)
    (h : makeRoom extra m a = .ok (a', m')) : a'.live m' = a.live m := by
  obtain ⟨moved, hr⟩ := reserve_of_makeRoom h
  exact Growable.live_reserve ha.fits ha.lt hr

/-- A change that makes room and is refused then. -/
theorem changed_refuse (hs : (w.vec id).Sound w.memory) {c : VecCommand} {extra : Growable → Binary64}
    (hrun : (Command.vec id c).run w = (refuse id extra >>= fun _ => pure .done) w) :
    w.Changed id c (w.perform (.vec id c)) := by
  cases hown : own id w with
  | error e w₁ =>
    have hrefuse : refuse id extra w = .error e w₁ := Action.bind_error (changeOwned_of_error hown)
    rw [perform_error hrun hrefuse, own_error hown]
    exact .refused e
  | ok a w₁ =>
    obtain ⟨m, p, rfl, hp⟩ := own_promoted hs hown
    obtain ⟨view, hv, hwords⟩ := hp.words_eq
    cases hstep : makeRoom extra m a with
    | error e =>
      have hrefuse : refuse id extra w = .error e (w.withOwned id a m p) :=
        Action.bind_error (changeOwned_error hown hstep)
      rw [perform_error hrun hrefuse]
      exact .failed e hv ⟨a, m, p, rfl, hp.grows, hp.kind_eq, fun _ => ⟨hp.stored, hwords⟩⟩
    | ok r =>
      obtain ⟨a', m'⟩ := r
      have hu := updates_makeRoom hstep
      have hrefuse : refuse id extra w = .error .sortRefused (w.withOwned id a' m' p) := by
        rw [refuse_eq, Action.bind_ok (changeOwned_ok hown hstep), withOwned_withOwned]
        rfl
      rw [perform_error hrun hrefuse]
      refine .failed _ hv ⟨a', m', p, rfl, hp.grows.trans hu.grows, hu.kind_eq.trans hp.kind_eq,
        fun hm => ⟨hp.stored.update hu hm, ?_⟩⟩
      rw [live_makeRoom hp.stored hstep, hwords]

theorem changed_push (hs : (w.vec id).Sound w.memory) (value : Scalar) :
    w.Changed id (.push value) (w.perform (.vec id (.push value))) := by
  have hpush := push_eq w id value
  by_cases hv : (w.vec id).kind.admits value = true
  · rw [if_pos hv] at hpush
    refine changed_changeOwned hs (fun m a => a.push m value) (Action.bind_congr (x := push id value) _ hpush)
      (fun _ _ _ _ h => Growable.updates_push h) fun m a a' m' h hp hm => ?_
    rw [Growable.live_push hm hp.stored.fits hp.stored.lt h, hp.kind_eq]
    rfl
  · rw [if_neg hv] at hpush
    exact changed_refuse hs (Action.bind_congr (x := push id value) _ hpush)

/-- A scalar of the wrong sort is refused once the vector owns its elements. -/
theorem changed_of_own_throw (hs : (w.vec id).Sound w.memory) {c : VecCommand}
    (hrun : (Command.vec id c).run w =
      ((own id >>= fun _ => (throw .sortRefused : Action Unit)) >>= fun _ => pure .done) w) :
    w.Changed id c (w.perform (.vec id c)) := by
  cases hown : own id w with
  | error e w₁ =>
    rw [perform_error hrun (Action.bind_error hown), own_error hown]
    exact .refused e
  | ok a w₁ =>
    obtain ⟨m, p, rfl, hp⟩ := own_promoted hs hown
    obtain ⟨view, hv, hwords⟩ := hp.words_eq
    have hthrow : (own id >>= fun _ => (throw .sortRefused : Action Unit)) w =
        .error .sortRefused (w.withOwned id a m p) := Action.bind_ok hown
    rw [perform_error hrun hthrow]
    exact .failed _ hv ⟨a, m, p, rfl, hp.grows, hp.kind_eq, fun _ => ⟨hp.stored, hwords⟩⟩

theorem changed_set (hs : (w.vec id).Sound w.memory) (index : Binary64) (value : Scalar) :
    w.Changed id (.set index value) (w.perform (.vec id (.set index value))) := by
  have hset := setAt_eq w id index value
  cases hi : acceptIndex index (w.vec id).size with
  | error e =>
    rw [hi] at hset
    rw [perform_error (f := fun _ => Reply.done) (x := setAt id index value) rfl hset]
    exact .refused e
  | ok i =>
    rw [hi] at hset
    change _ = (if (w.vec id).kind.admits value = true then
      changeOwned id fun m a => .ok (a, m.writeWords a.slots i [a.kind.store value])
      else own id >>= fun _ => throw .sortRefused : Action Unit) w at hset
    obtain ⟨hwhole, hlt⟩ := acceptIndex_ok.1 hi
    have hrun := Action.bind_congr (x := setAt id index value) (fun _ => pure Reply.done) hset
    by_cases hv : (w.vec id).kind.admits value = true
    · rw [if_pos hv] at hrun
      refine changed_changeOwned hs (fun m a => .ok (a, m.writeWords a.slots i [a.kind.store value])) hrun
        (fun m a a' m' h => ?_) fun m a a' m' h hp hm => ?_
      · cases h
        exact (Growable.Updates.refl m a).write i _ fun _ ha => ⟨ha.length_le, ha.signed⟩
      · cases h
        have hlive := Growable.live_set hp.stored.fits hp.stored.lt (hp.length_eq ▸ hlt)
          (Kind.store_lt a.kind value)
        rw [hlive, hp.kind_eq]
        simp [VecCommand.rewrite, hwhole.toNat?]
    · rw [if_neg hv] at hrun
      exact changed_of_own_throw hs hrun

theorem changed_resize (hs : (w.vec id).Sound w.memory) (length : Binary64) (fill : Option Scalar) :
    w.Changed id (.resize length fill) (w.perform (.vec id (.resize length fill))) := by
  cases hn : length.toNat? with
  | none =>
    have hstop : resize id length fill w = .error (.invalidSize length) w := by
      rw [resize_eq, lengthOf?, hn]
      rfl
    rw [perform_error (f := fun _ => Reply.done) (x := resize id length fill) rfl hstop]
    exact .refused _
  | some n =>
    have hresize := resize_eq w id length fill
    rw [lengthOf?, hn, if_neg (by simp)] at hresize
    by_cases hf : ((w.vec id).kind.admits (fill.getD (w.vec id).kind.zero) ||
        !fills (w.vec id).size length) = true
    · rw [if_pos hf] at hresize
      refine changed_changeOwned hs _ (Action.bind_congr (x := resize id length fill) _ hresize)
        (fun _ _ _ _ h => Growable.updates_resize h) fun m a a' m' h hp hm => ?_
      rw [Growable.live_resize hm hp.stored.fits hp.stored.lt (whole_of_toNat? hn) h, hp.kind_eq]
      simp [VecCommand.rewrite, hn]
    · rw [if_neg hf] at hresize
      exact changed_refuse hs (Action.bind_congr (x := resize id length fill) _ hresize)

theorem changed_pop (hs : (w.vec id).Sound w.memory) :
    w.Changed id .pop (w.perform (.vec id .pop)) := by
  have hrun : (Command.vec id .pop).run w =
      (pop id >>= fun x => pure (Reply.element (w.vec id).kind x)) w := rfl
  cases hown : own id w with
  | error e w₁ =>
    rw [perform_error hrun (pop_of_error hown), own_error hown]
    exact .refused e
  | ok a w₁ =>
    obtain ⟨m, p, rfl, hp⟩ := own_promoted hs hown
    obtain ⟨view, hv, hwords⟩ := hp.words_eq
    have hu := Growable.updates_pop m a
    rw [perform_ok hrun (pop_ok hown), withOwned_withOwned]
    refine .done _ hv ⟨(a.pop m).2, m, _, rfl, hp.grows, hu.kind_eq.trans hp.kind_eq,
      fun hm => ⟨hp.stored.update hu hm, ?_⟩⟩
    rw [Growable.live_pop hp.stored.fits, hwords]
    rfl

theorem changed_writable (hs : (w.vec id).Sound w.memory) :
    w.Changed id .writable (w.perform (.vec id .writable)) := by
  have hrun : (Command.vec id .writable).run w =
      (writableView id >>= fun view => pure (Reply.view view)) w := rfl
  cases hown : own id w with
  | error e w₁ =>
    rw [perform_error hrun (writableView_of_error hown), own_error hown]
    exact .refused e
  | ok a w₁ =>
    obtain ⟨m, p, rfl, hp⟩ := own_promoted hs hown
    obtain ⟨view, hv, hwords⟩ := hp.words_eq
    have hu := updates_countView m a
    rw [perform_ok hrun (writableView_ok hown)]
    exact .done _ hv ⟨a, countView m, p, rfl, hp.grows.trans hu.grows, hp.kind_eq,
      fun hm => ⟨hp.stored.update hu hm, hwords⟩⟩

/-- Whatever change is made of a vector that holds elements of its kind, this is how it ends. -/
theorem changed_perform (hs : (w.vec id).Sound w.memory) {c : VecCommand} (hc : c.Edits) :
    w.Changed id c (w.perform (.vec id c)) := by
  cases c with
  | writable => exact changed_writable hs
  | set index value => exact changed_set hs index value
  | push value => exact changed_push hs value
  | pop => exact changed_pop hs
  | resize length fill => exact changed_resize hs length fill
  | _ => exact hc.elim

end World

end LeaseVec
