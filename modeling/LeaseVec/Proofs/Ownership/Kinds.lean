import LeaseVec.Proofs.Bundle.Elements
import LeaseVec.Proofs.Ownership.Uniform
import LeaseVec.Proofs.Stream.Pushes

/-!
# Elements of one kind

In a uniform world all that is read from a vector are values of its own kind. Taking a vector to owned storage
cannot be seen in its elements: a change leaves every element that it is not about as it is, bit for bit, and a
swap gives the array what the vector had. A vector that is written as a field takes the bytes of its elements
and no others. A view of another kind that is attached breaks all of it.
-/

namespace LeaseVec

open Number

/-- A value of a kind, which an element of the kind holds when it is given it. -/
def Kind.IsValue (kind : Kind) (x : Scalar) : Prop := kind.held x = x

instance (kind : Kind) (x : Scalar) : Decidable (kind.IsValue x) :=
  inferInstanceAs (Decidable (kind.held x = x))

/-- What a view shows are values of its kind. -/
theorem Memory.isValue_of_mem {m : Memory} {view : View} {x : Scalar} (h : x ∈ m.elements view) :
    view.kind.IsValue x := by
  obtain ⟨word, hword, rfl⟩ := List.mem_map.1 h
  exact Kind.held_load view.kind (Word.split_lt hword)

theorem Memory.isValue_of_elementAt? {m : Memory} {view : View} {i : Nat} {x : Scalar}
    (h : m.elementAt? view i = some x) : view.kind.IsValue x := by
  rw [elementAt?_eq] at h
  exact isValue_of_mem (List.mem_of_getElem? h)

theorem Memory.isValue_of_element? {m : Memory} {view : View} {index : Binary64} {x : Scalar}
    (h : m.element? view index = some x) : view.kind.IsValue x := by
  obtain ⟨i, -, hi⟩ := Option.bind_eq_some_iff.1 h
  exact isValue_of_elementAt? hi

/-- What a reply tells of elements is of a kind. -/
def Reply.OfKind (kind : Kind) : Reply → Prop
  | .element k x => k = kind ∧ ∀ a, x = some a → kind.IsValue a
  | .elements k xs => k = kind ∧ ∀ a ∈ xs, kind.IsValue a
  | .view v => v.kind = kind
  | _ => True

theorem Growable.isValue_of_pop {m : Memory} {a : Growable} {x : Scalar} (h : (a.pop m).1 = some x) :
    a.kind.IsValue x := by
  unfold Growable.pop at h
  split_ifs at h
  exact Memory.isValue_of_elementAt? h

namespace World

open LeaseVec.Action

variable {w w' : World} {id : Nat}

theorem ok_of_ask {α : Type} {question : World → Except Fault α} {a : α}
    (h : Action.ask question w = .ok a w') : question w = .ok a := by
  cases hq : question w with
  | ok b =>
    rw [ask_ok hq] at h
    cases h
    rfl
  | error e =>
    rw [ask_error hq] at h
    cases h

variable {v : Vec} {view : View}

theorem isValue_of_at? {index : Binary64} {x : Scalar} (hs : v.Sound w.memory)
    (h : w.at? v index = .ok (some x)) : v.kind.IsValue x := by
  obtain ⟨view, hv, h⟩ := Outcome.bind_ok_iff.1 h
  obtain ⟨i, -, h⟩ := Outcome.bind_ok_iff.1 h
  rw [← kind_of_viewOf hs hv]
  exact Memory.isValue_of_element? (Except.ok.inj h)

theorem isValue_of_get? {index : Binary64} {x : Scalar} (hs : v.Sound w.memory)
    (h : w.get? v index = .ok (some x)) : v.kind.IsValue x := by
  obtain ⟨view, hv, h⟩ := Outcome.bind_ok_iff.1 h
  rw [← kind_of_viewOf hs hv]
  split_ifs at h
  · obtain ⟨i, -, h⟩ := Outcome.bind_ok_iff.1 h
    exact Memory.isValue_of_element? (Except.ok.inj h)
  · exact Memory.isValue_of_element? (Except.ok.inj h)

theorem isValue_of_elements {xs : List Scalar} (hs : v.Sound w.memory) (h : w.elements v = .ok xs) :
    ∀ x ∈ xs, v.kind.IsValue x := by
  unfold elements at h
  cases hv : w.viewOf v with
  | error e =>
    rw [hv] at h
    cases h
  | ok view =>
    rw [hv] at h
    cases h
    intro x hx
    rw [← kind_of_viewOf hs hv]
    exact Memory.isValue_of_mem hx

/-- A reply is of a kind when all that its step can answer is. -/
theorem ofKind_of_answers {α : Type} {kind : Kind} {c : Command} {x : Action α} {f : α → Reply}
    {reply : Reply} (h : w.perform c = (.ok reply, w')) (hc : c.run w = (x >>= fun a => pure (f a)) w)
    (hf : ∀ a, x w = .ok a w' → (f a).OfKind kind) : reply.OfKind kind := by
  obtain ⟨a, ha, rfl⟩ := reply_of_ok hc h
  exact hf a ha

theorem ofKind_of_done {kind : Kind} {c : Command} {x : Action Unit} {reply : Reply}
    (h : w.perform c = (.ok reply, w')) (hc : c.run w = x.done w) : reply.OfKind kind :=
  ofKind_of_answers (f := fun _ => .done) h hc fun _ _ => trivial

/-- What a vector answers is of its kind. -/
theorem ofKind_of_perform (hu : w.Uniform) {c : VecCommand} {reply : Reply}
    (h : w.perform (.vec id c) = (.ok reply, w')) : reply.OfKind (w.vec id).kind := by
  have hs := hu.vecs id
  cases c with
  | item index =>
    refine ofKind_of_answers (x := Action.ask fun w' => w'.at? (w.vec id) index) h rfl fun x hx => ?_
    exact ⟨rfl, fun a ha => isValue_of_at? hs (ha ▸ ok_of_ask hx)⟩
  | unchecked index =>
    refine ofKind_of_answers (x := Action.ask fun w' => w'.get? (w.vec id) index) h rfl fun x hx => ?_
    exact ⟨rfl, fun a ha => isValue_of_get? hs (ha ▸ ok_of_ask hx)⟩
  | front =>
    refine ofKind_of_answers (x := Action.ask fun w' => w'.front? (w.vec id)) h rfl fun x hx => ?_
    exact ⟨rfl, fun a ha => isValue_of_at? hs (ha ▸ ok_of_ask hx)⟩
  | back =>
    refine ofKind_of_answers (x := Action.ask fun w' => w'.back? (w.vec id)) h rfl fun x hx => ?_
    exact ⟨rfl, fun a ha => isValue_of_at? hs (ha ▸ ok_of_ask hx)⟩
  | toList =>
    refine ofKind_of_answers (x := Action.ask fun w' => w'.elements (w.vec id)) h rfl fun xs hx => ?_
    exact ⟨rfl, isValue_of_elements hs (ok_of_ask hx)⟩
  | share =>
    refine ofKind_of_answers (x := shareView id) h rfl fun view hx => ?_
    obtain ⟨own, hv, hx⟩ := Action.ofExcept_bind_ok_iff.1 hx
    have hsame : own = view := by
      split_ifs at hx
      · cases hx
        rfl
      · cases hx
        rfl
    rw [← hsame]
    exact kind_of_viewOf hs hv
  | writable =>
    refine ofKind_of_answers (x := writableView id) h rfl fun view hx => ?_
    obtain ⟨a, w₁, hown, hx⟩ := Action.bind_ok_iff.1 hx
    obtain ⟨m, p, rfl, hp⟩ := own_promoted hs hown
    cases hx
    exact hp.kind_eq
  | pop =>
    refine ofKind_of_answers (x := pop id) h rfl fun x hx => ⟨rfl, fun y hy => ?_⟩
    obtain ⟨a, w₁, hown, hx⟩ := Action.bind_ok_iff.1 hx
    obtain ⟨m, p, rfl, hp⟩ := own_promoted hs hown
    rw [← hp.kind_eq]
    apply Growable.isValue_of_pop (m := (w.withOwned id a m p).memory)
    cases hx
    exact hy
  -- the others answer nothing of an element
  | attach view region => exact ofKind_of_done (x := attach id view region) h rfl
  | isView view =>
    refine ofKind_of_answers (x := Action.ask fun w' => w'.isView (w.vec id) view) h rfl fun _ _ => ?_
    trivial
  | set index value => exact ofKind_of_done (x := setAt id index value) h rfl
  | push value => exact ofKind_of_done (x := push id value) h rfl
  | resize length fill => exact ofKind_of_done (x := resize id length fill) h rfl
  | swap array => exact ofKind_of_done (x := swapWith id array) h rfl
  | clear => exact ofKind_of_done (x := clear id) h rfl
  | iterate =>
    refine ofKind_of_answers (x := iterate id) h rfl fun _ _ => ?_
    trivial

theorem isValue_of_deliver {it position : Nat} {x : Scalar}
    (h : deliver it id view position w = .ok (some x) w') : view.kind.IsValue x := by
  cases hx : w.memory.elementAt? view position with
  | none =>
    rw [deliver_of_none hx] at h
    cases h
  | some y =>
    rw [deliver_of_some hx] at h
    cases h
    exact Memory.isValue_of_elementAt? hx

/-- What an iteration delivers is of the kind of its vector. -/
theorem ofKind_of_next (hu : w.Uniform) {it : Nat} {reply : Reply}
    (h : w.perform (.next it) = (.ok reply, w')) : reply.OfKind (w.iteratedKind it) := by
  obtain ⟨x, hx, rfl⟩ := reply_of_ok (x := next it) rfl h
  refine ⟨rfl, fun a ha => ?_⟩
  rw [ha] at hx
  unfold iteratedKind
  cases hi : w.iteration it with
  | finished id =>
    rw [next_of_finished hi] at hx
    cases hx
  | running id view position =>
    rw [next_of_running hi] at hx
    show (w.vec id).kind.IsValue a
    rw [← (hu.walks it id view position hi).2]
    exact isValue_of_deliver hx
  | fresh id =>
    cases hv : w.viewOf (w.vec id) with
    | error e =>
      rw [next_of_fresh_error hi hv] at hx
      cases hx
    | ok view =>
      rw [next_of_fresh hi hv] at hx
      show (w.vec id).kind.IsValue a
      rw [← kind_of_viewOf (hu.vecs id) hv]
      exact isValue_of_deliver hx

/-- A vector with owned storage shows the words of its elements. -/
theorem showsWords_of_owns {words : List Nat} (hid : id < w.vecs.size) (h : w.Owns id words w')
    (hm : w'.memory.Addressable) : w'.ShowsWords id (w.vec id).kind words := by
  obtain ⟨a, m, p, rfl, -, hkind, hstored⟩ := h
  obtain ⟨hs, hlive⟩ := hstored hm
  refine ⟨kind_vec_withOwned .., a.data m.views, ?_, hkind, hs.lt, ?_⟩
  · rw [vec_withOwned_self a m p hid]
    rfl
  · rw [← hlive]
    exact Memory.words_eq_of_range rfl rfl rfl rfl

/-- After a change a vector shows elements of its kind, and the ones that the change is not about are what
they were. -/
def KeepsRest (w : World) (id : Nat) (c : VecCommand) (view : View) (w' : World) : Prop :=
  ∃ view', w'.viewOf (w'.vec id) = .ok view' ∧ view'.kind = (w.vec id).kind ∧
    ∀ i < view.length, ¬ c.Addresses view.length i → (w'.memory.words view')[i]? = (w.memory.words view)[i]?

theorem keepsRest_of_owns {words : List Nat} {c : VecCommand} (hid : id < w.vecs.size)
    (h : w.Owns id words w') (hm : w'.memory.Addressable)
    (hrest : ∀ i < view.length, ¬ c.Addresses view.length i → words[i]? = (w.memory.words view)[i]?) :
    w.KeepsRest id c view w' := by
  obtain ⟨view', hview, hkind, -, rfl⟩ := (showsWords_of_owns hid h hm).view
  exact ⟨view', hview, hkind, hrest⟩

theorem keepsRest_of_edits (hu : w.Uniform) (hid : id < w.vecs.size) {c : VecCommand} (hc : c.Edits)
    (hv : w.viewOf (w.vec id) = .ok view) (hm : (w.perform (.vec id c)).2.memory.Addressable) :
    w.KeepsRest id c view (w.perform (.vec id c)).2 := by
  have hchanged := changed_perform (hu.vecs id) hc
  cases hp : w.perform (.vec id c) with
  | mk outcome w' =>
    rw [hp] at hchanged hm
    cases hchanged with
    | refused e => exact ⟨view, hv, kind_of_viewOf (hu.vecs id) hv, fun i _ _ => rfl⟩
    | failed e hseen howns =>
      rw [hv] at hseen
      cases hseen
      exact keepsRest_of_owns hid howns hm fun i _ _ => rfl
    | done reply hseen howns =>
      rw [hv] at hseen
      cases hseen
      refine keepsRest_of_owns hid howns hm fun i hi hrest => ?_
      rw [← Memory.length_words w.memory view] at hi hrest
      exact VecCommand.rewrite_getElem? _ hi hrest

/-- A vector and an array have changed what they hold: each has the words of the other. -/
structure Swapped (w : World) (id array : Nat) (view : View) (w' : World) : Prop where
  vec : w'.ShowsWords id (w.vec id).kind ((w.array array).live w.memory)
  kind_eq : (w'.array array).kind = (w.vec id).kind
  array : (w'.array array).live w'.memory = w.memory.words view

theorem swapped_of_perform (hu : w.Uniform) {array : Nat} {reply : Reply} (hid : id < w.vecs.size)
    (harray : array < w.arrays.size) (hv : w.viewOf (w.vec id) = .ok view)
    (h : w.perform (.vec id (.swap array)) = (.ok reply, w')) : w.Swapped id array view w' := by
  obtain ⟨u, hx, -⟩ := reply_of_ok (x := swapWith id array) (f := fun _ => .done) rfl h
  by_cases hk : (w.vec id).kind = (w.array array).kind
  · cases hown : own id w with
    | error e w₁ =>
      rw [swapWith_of_error hk hown] at hx
      cases hx
    | ok a w₁ =>
      rw [swapWith_ok hk hown] at hx
      cases hx
      obtain ⟨m, p, rfl, hp⟩ := own_promoted (hu.vecs id) hown
      obtain ⟨seen, hseen, hwords⟩ := hp.words_eq
      rw [hv] at hseen
      cases hseen
      have hself : ((w.withOwned id a m p).withExchanged id array a).array array = a :=
        array_setArray_self _ a harray
      have hstored := hu.arrays array _ (w.getElem?_arrays harray)
      have hlive : (w.array array).live m = (w.array array).live w.memory :=
        Memory.words_congr (hp.frame _ hstored.lt fun hf => hf)
      have hvec : ((w.withOwned id a m p).withExchanged id array a).vec id =
          { w.vec id with holding := .owned (w.array array) } := by
        show ((w.withOwned id a m p).setHolding id (.owned (w.array array))).vec id = _
        rw [vec_setHolding_self _ _ (by simpa using hid), vec_withOwned_self a m p hid]
      refine ⟨⟨by rw [hvec], (w.array array).data m.views, ?_, hk.symm,
        hstored.lt.trans_le hp.grows.size_le, ?_⟩, ?_, ?_⟩
      · rw [hvec]
        rfl
      · rw [← hlive]
        exact Memory.words_eq_of_range rfl rfl rfl rfl
      · rw [hself, hp.kind_eq]
      · rw [hself]
        exact hwords
  · rw [swapWith_of_ne hk] at hx
    cases hx

/-- A writer has got the count of a field and behind it the elements of a vector, and no other bytes. -/
def Appended (w : World) (out id : Nat) (w' : World) : Prop :=
  ∃ count payload, payload.length = (w.vec id).size * (w.vec id).kind.width ∧
    (w'.writer out).toBytes w'.memory =
      (w.writer out).toBytes w.memory ++ (Word.encode 8 count ++ payload) ∧
    (w'.writer out).length = (w.writer out).length + (8 + payload.length)

theorem appended_of_perform (hu : w.Uniform) {out : Nat} {stride : Binary64} {reply : Reply}
    (hout : out < w.writers.size) (h : w.perform (.writer out (.field id stride)) = (.ok reply, w')) :
    w.Appended out id w' := by
  have hpush := perform_push w out (.field id stride)
  have hwrite : w.perform (.writer out (.field id stride)) =
      w.perform (.writer out (Push.field id stride).write) := rfl
  rw [← hwrite, h] at hpush
  cases hx : (Push.field id stride).change w (w.writer out) with
  | error e =>
    rw [hx] at hpush
    cases hpush
  | ok x =>
    rw [hx] at hpush
    cases hpush
    obtain ⟨s, -, hx⟩ := Outcome.bind_ok_iff.1 hx
    obtain ⟨-, hx⟩ := Outcome.check_ok_iff.1 hx
    obtain ⟨view, hv, hx⟩ := Outcome.bind_ok_iff.1 hx
    cases hx
    have hsize := byteLength_of_viewOf (hu.vecs id) hv
    have hread := length_read_of_viewOf (hu.vecs id) hv
    obtain ⟨count, hcount⟩ : ∃ count, (w.writer out).push64 ((w.vec id).size / s : Nat) =
      (w.writer out).pushPart (.literal (Word.encode 8 count)) := ⟨_, rfl⟩
    rw [hcount]
    refine ⟨count, w.memory.read view.range, hread.trans hsize, ?_, ?_⟩
    · rw [writer_setWriter_self w _ hout]
      show (Writer.pushPart _ _).toBytes w.memory = _
      rw [Writer.toBytes_pushPart, Writer.toBytes_pushPart, List.append_assoc]
      rfl
    · rw [writer_setWriter_self w _ hout, Writer.length_pushPart, Writer.length_pushPart, hread,
        Nat.add_assoc]
      show _ + ((Word.encode 8 count).length + _) = _
      rw [Word.length_encode]
      rfl

/-- Kinds are kept apart: what is read from a vector is of its kind, changes and swaps keep the words of all
that they are not about, and a vector is written as the bytes of its elements. -/
structure KindSafe (w : World) : Prop where
  answers : ∀ id c reply w', w.perform (.vec id c) = (.ok reply, w') → reply.OfKind (w.vec id).kind
  walks : ∀ it reply w', w.perform (.next it) = (.ok reply, w') → reply.OfKind (w.iteratedKind it)
  edits : ∀ id c view, id < w.vecs.size → c.Edits → w.viewOf (w.vec id) = .ok view →
    (w.perform (.vec id c)).2.memory.Addressable → w.KeepsRest id c view (w.perform (.vec id c)).2
  swaps : ∀ id array view reply w', id < w.vecs.size → array < w.arrays.size →
    w.viewOf (w.vec id) = .ok view → w.perform (.vec id (.swap array)) = (.ok reply, w') →
    w.Swapped id array view w'
  refuses : ∀ id array, (w.vec id).kind ≠ (w.array array).kind →
    w.perform (.vec id (.swap array)) = (.error (.kindsDiffer (w.vec id).kind (w.array array).kind), w)
  writes : ∀ out id stride reply w', out < w.writers.size →
    w.perform (.writer out (.field id stride)) = (.ok reply, w') → w.Appended out id w'

theorem kindSafe_of_uniform (hu : w.Uniform) : w.KindSafe where
  answers := fun _ _ _ _ h => ofKind_of_perform hu h
  walks := fun _ _ _ h => ofKind_of_next hu h
  edits := fun _ _ _ hid hc hv hm => keepsRest_of_edits hu hid hc hv hm
  swaps := fun _ _ _ _ _ hid harray hv h => swapped_of_perform hu hid harray hv h
  refuses := fun id array hk =>
    perform_error (x := swapWith id array) (f := fun _ => Reply.done) rfl (swapWith_of_ne hk)
  writes := fun _ _ _ _ _ hout h => appended_of_perform hu hout h

/-- Whatever has been done before, kinds are kept apart, as long as every view that was attached was of its
vector's own kind. -/
theorem kindSafe_performAll {limit : AllocationLimit} {history : List Command}
    (h : (empty limit).OwnKindAll history) (hm : ((empty limit).performAll history).2.memory.Addressable) :
    ((empty limit).performAll history).2.KindSafe :=
  kindSafe_of_uniform ((retains_performAll h).uniform hm (uniform_empty limit))

/-- A vector of 16-bit elements borrows a view of such elements, and a writer waits for it. -/
def attachedOwnKind : List Command :=
  [.alloc [0, 1, 2, 3], .lend ⟨0, 0, 4, false⟩ [76], .newVec .u16 false, .vec 0 (.attach ⟨.u16, 0, 0, 2, 0⟩ 0),
    .newWriter]

theorem kindSafe_attachedOwnKind :
    empty.OwnKindAll attachedOwnKind ∧ (empty.performAll attachedOwnKind).2.memory.Addressable ∧
      (empty.performAll attachedOwnKind).2.KindSafe := by
  have hsources : ∀ w : World, ∀ r ∈ ([] : List ByteRange), w.memory.Covers r := fun _ _ hr => by cases hr
  have hlend : ∀ r ∈ [(⟨0, 0, 4, false⟩ : ByteRange)], Memory.Covers ⟨#[[0, 1, 2, 3]], 0, default⟩ r := by
    intro r hr
    cases List.mem_singleton.1 hr
    exact ⟨by decide, by decide⟩
  have hown : empty.OwnKindAll attachedOwnKind :=
    ⟨hsources _, hlend, hsources _, ⟨rfl, by decide, by decide⟩, hsources _, trivial⟩
  have hm : (empty.performAll attachedOwnKind).2.memory.Addressable :=
    Memory.addressable_of_all (by decide +kernel)
  exact ⟨hown, hm, kindSafe_performAll hown hm⟩

/-- A vector of bytes borrows a view of a 16-bit element. -/
def attachedWider : List Command :=
  [.alloc [0, 1], .lend ⟨0, 0, 2, false⟩ [76], .newVec .u8 false, .vec 0 (.attach ⟨.u16, 0, 0, 1, 0⟩ 0), .newWriter]

/-- A view of another kind is not refused. What is read is no byte, it becomes another number when the vector is
taken to owned storage, and as a field it takes two bytes. -/
theorem wider_view_is_taken :
    ((empty.performAll attachedWider).1.all fun outcome => outcome.toOption.isSome) = true ∧
      ((empty.performAll attachedWider).2.perform (.vec 0 .toList)).1 =
        .ok (.elements .u8 [.number (.ofNat 256)]) ∧
      ¬ Kind.u8.IsValue (.number (.ofNat 256)) ∧
      (((empty.performAll attachedWider).2.perform (.vec 0 .writable)).2.elements
        (((empty.performAll attachedWider).2.perform (.vec 0 .writable)).2.vec 0)).toOption =
          some [.number (.ofNat 0)] ∧
      (((empty.performAll attachedWider).2.perform (.writer 0 (.field 0 (.ofNat 1)))).2.writer 0).length = 8 + 2 ∧
      ¬ (empty.performAll attachedWider).2.KindSafe := by
  have hread : ((empty.performAll attachedWider).2.perform (.vec 0 .toList)).1 =
      .ok (.elements .u8 [.number (.ofNat 256)]) := rfl
  have hvalue : ¬ Kind.u8.IsValue (.number (.ofNat 256)) := by decide +kernel
  refine ⟨by decide +kernel, hread, hvalue, by decide +kernel, by decide +kernel, fun h => hvalue ?_⟩
  have hkind := h.answers 0 .toList _ _ (Prod.ext hread rfl)
  exact hkind.2 _ (List.mem_singleton_self _)

end World

end LeaseVec
