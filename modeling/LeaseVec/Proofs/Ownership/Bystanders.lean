import LeaseVec.Proofs.Lifetime.Walks
import LeaseVec.Proofs.Ownership.Isolation
import LeaseVec.Proofs.Ownership.Quiet
import LeaseVec.Proofs.World.Takings

/-!
# What a command passes by

Iterations, writers and stores are changed by the commands that are given to them and by no others. The bytes
of a buffer that is nobody's storage are changed by nothing but writes to the buffer itself, and it becomes
nobody's storage unless fields are read from it and it shares. Both hold of every command, however it ends, and
are told here together.
-/

namespace LeaseVec

open Number

/-- The objects that only their own commands change. -/
inductive Solitary where
  | iteration (id : Nat)
  | writer (id : Nat)
  | store (id : Nat)
  deriving DecidableEq

/-- The object that a command is given to, if it is one of these. -/
def Command.solitary? : Command → Option Solitary
  | next id => some (.iteration id)
  | writer id _ => some (.writer id)
  | store id _ => some (.store id)
  | _ => none

/-- A command that writes bytes where a caller says so does not write to the buffers in question. What an array
command or an exchange names has to be there. -/
def Command.Misses (w : World) (shared : Nat → Prop) : Command → Prop
  | poke range _ _ => ¬ shared range.buffer
  | setElement v _ _ => ¬ shared v.buffer
  | vec id (.swap other) => ∀ b, shared b → id < w.vecs.size ∧ other < w.arrays.size
  | array id (.swap other) => ∀ b, shared b → id < w.arrays.size ∧ other < w.arrays.size
  | array id _ => ∀ b, shared b → id < w.arrays.size
  | _ => True

/-- A command neither writes to the buffers in question on its caller's account nor gives them to a vector. -/
structure Command.Spares (w : World) (shared : Nat → Prop) (c : Command) : Prop where
  misses : c.Misses w shared
  adopts : ∀ b, w.Adopts c b → ¬ shared b

/-- Where no buffer is in question every command spares them. -/
theorem Command.spares_nothing {w : World} (c : Command) : c.Spares w fun _ => False where
  misses := by
    cases c with
    | array id c => cases c <;> simp [Misses]
    | vec id c => cases c <;> simp [Misses]
    | _ => simp [Misses]
  adopts := fun _ _ => id

namespace World

open LeaseVec.Action

/-- What is known of such an object. -/
def solitary (w : World) : Solitary → Option (Iteration ⊕ Writer ⊕ Store)
  | .iteration id => w.iterations[id]?.map .inl
  | .writer id => w.writers[id]?.map fun x => .inr (.inl x)
  | .store id => w.stores[id]?.map fun s => .inr (.inr s)

/-- An object that is there is as it was, and so are the bytes of the buffers in question, as far as they are
nobody's storage; that they stay. -/
structure PassesBy (o : Solitary) (shared : Nat → Prop) (w w' : World) : Prop where
  solitary : ∀ s, w.solitary o = some s → w'.solitary o = some s
  shared : ∀ b, shared b → w.Foreign b → w'.Foreign b ∧ w'.memory.buffer b = w.memory.buffer b

variable {α β : Type} {o : Solitary} {shared : Nat → Prop} {w w' : World}

instance : Std.Refl (PassesBy o shared) := ⟨fun _ => ⟨fun _ h => h, fun _ _ h => ⟨h, rfl⟩⟩⟩

instance : IsTrans World (PassesBy o shared) := ⟨fun _ _ _ h h' =>
  ⟨fun s hs => h'.solitary s (h.solitary s hs), fun b hb hf =>
    ⟨(h'.shared b hb (h.shared b hb hf).1).1,
      (h'.shared b hb (h.shared b hb hf).1).2.trans (h.shared b hb hf).2⟩⟩⟩

/-- What is new comes behind what is there. -/
theorem solitary_push {γ : Type} {table : Array γ} (x : γ) {id : Nat} {f : γ → β} {s : β}
    (h : (table[id]?).map f = some s) : ((table.push x)[id]?).map f = some s := by
  obtain ⟨z, hz, rfl⟩ := Option.map_eq_some_iff.1 h
  have hlt : id < table.size := (Array.getElem?_eq_some_iff.1 hz).1
  rw [Array.getElem?_push, if_neg hlt.ne, hz, Option.map_some]

/-- No owner has new storage, and no buffer that was there has changed. -/
theorem passesBy_of_lose (hsolitary : w'.solitary o = w.solitary o)
    (hsize : w.memory.buffers.size ≤ w'.memory.buffers.size)
    (hframe : w.memory.Frame (fun _ => False) w'.memory)
    (hs : ∀ p a, w'.storage? p = some a → w.storage? p = some a) : w.PassesBy o shared w' where
  solitary := fun _ h => hsolitary.trans h
  shared := fun b _ hf =>
    ⟨⟨hf.lt.trans_le hsize, fun p a ha => hf.ne p a (hs p a ha)⟩, hframe b hf.lt id⟩

/-- Memory may have grown, and regions, readers and what is reported may be different. -/
theorem passesBy_of_eq (hsolitary : w'.solitary o = w.solitary o)
    (hsize : w.memory.buffers.size ≤ w'.memory.buffers.size)
    (hframe : w.memory.Frame (fun _ => False) w'.memory) (hv : w'.vecs = w.vecs)
    (ha : w'.arrays = w.arrays) : w.PassesBy o shared w' :=
  passesBy_of_lose hsolitary hsize hframe fun p _ h => (storage?_congr hv ha p).symm.trans h

/-- One owner has storage that is meant for it. -/
theorem passesBy_places {p : Owner} {a : Growable} (h : w.Places w' p a)
    (hsolitary : w'.solitary o = w.solitary o) : w.PassesBy o shared w' where
  solitary := fun _ hs => hsolitary.trans hs
  shared := fun _ _ hf => ⟨h.foreign hf, h.renews.buffer_eq hf.lt fun c hc => hf.ne p c hc⟩

theorem passesBy_rewrites {id : Nat} (h : w.Rewrites id w') : w.PassesBy o shared w' := by
  rcases h with rfl | ⟨a, m, p, rfl, hr⟩
  · exact refl_of (PassesBy o shared) _
  · exact passesBy_places (hr.places_vec p) rfl

theorem passesBy_rewritesArray {id : Nat} (h : w.RewritesArray id w') : w.PassesBy o shared w' := by
  rcases h with rfl | ⟨a, m, rfl, hr⟩
  · exact refl_of (PassesBy o shared) _
  · exact passesBy_places hr.places_array rfl

/-- A step whose names are there when a buffer is in question. -/
theorem passesBy_of_shared (hsolitary : w'.solitary o = w.solitary o)
    (h : ∀ b, shared b → w.PassesBy o shared w') : w.PassesBy o shared w' where
  solitary := fun _ hs => hsolitary.trans hs
  shared := fun b hb => (h b hb).shared b hb

/-- However a step ends, it has passed by. -/
abbrev Passing (o : Solitary) (shared : Nat → Prop) (x : Action α) (w : World) : Prop :=
  Leads (PassesBy o shared) (fun _ => True) x w fun _ _ => True

theorem Passing.bind {x : Action α} {f : α → Action β} (hx : Passing o shared x w)
    (hf : ∀ a w', Passing o shared (f a) w') : Passing o shared (x >>= f) w :=
  Leads.bind hx fun a w' _ _ => hf a w'

theorem Passing.ofExcept_bind {e : Except Fault α} {f : α → Action β}
    (h : ∀ a, e = .ok a → Passing o shared (f a) w) : Passing o shared (Action.ofExcept e >>= f) w :=
  Leads.ofExcept_bind (fun _ _ => trivial) h

theorem passing_pure (a : α) : Passing o shared (pure a) w := leads_pure trivial

theorem passing_of_after {x : Action α} (h : w.PassesBy o shared (x.after w)) : Passing o shared x w :=
  leads_of_after h

theorem passing_ask (question : World → Except Fault α) : Passing o shared (ask question) w := by
  apply passing_of_after
  rw [after_ask]
  exact refl_of (PassesBy o shared) w

/-- A step that leaves memory, vectors and arrays alone. -/
theorem passing_aside {x : Action α} (hsolitary : (x.after w).solitary o = w.solitary o)
    (hm : (x.after w).memory = w.memory) (hv : (x.after w).vecs = w.vecs)
    (ha : (x.after w).arrays = w.arrays) : Passing o shared x w := by
  apply passing_of_after
  refine passesBy_of_eq hsolitary (by rw [hm]) ?_ hv ha
  rw [hm]
  exact Memory.Frame.refl _ _

theorem passesBy_alloc (w : World) (contents : Bytes) :
    w.PassesBy o shared { w with memory := (w.memory.alloc contents).2 } :=
  passesBy_of_eq (by cases o <;> rfl) (Memory.grows_alloc w.memory contents).size_le
    (Memory.frame_alloc _ w.memory contents) rfl rfl

theorem passing_alloc (contents : Bytes) : Passing o shared (alloc contents) w :=
  passing_of_after (passesBy_alloc w contents)

theorem passing_nextSerial : Passing o shared nextSerial w :=
  passing_of_after (passesBy_of_eq (by cases o <;> rfl) le_rfl (fun _ _ _ => rfl) rfl rfl)

theorem passing_view (kind : Kind) (buffer : Nat) (offset : Binary64) (length : Option Binary64) :
    Passing o shared (view kind buffer offset length) w := by
  cases h : w.memory.view? kind buffer offset length with
  | error e =>
    have hrun : view kind buffer offset length w = .error e w := by
      unfold view
      rw [h]
    exact leads_of_error hrun (refl_of (PassesBy o shared) w) trivial
  | ok r =>
    obtain ⟨v, m⟩ := r
    have hrun : view kind buffer offset length w = .ok v { w with memory := m } := by
      unfold view
      rw [h]
    obtain ⟨-, -, -, rfl⟩ := view?_ok h
    exact leads_of_ok hrun
      (passesBy_of_eq (by cases o <;> rfl) le_rfl (fun _ _ _ => rfl) rfl rfl) trivial

theorem passing_lend (r : ByteRange) (label : Text) : Passing o shared (lend r label) w := by
  rcases lend_cases w r label with ⟨-, h⟩ | ⟨-, h⟩
  · exact leads_of_ok h (passesBy_of_eq (by cases o <;> rfl) le_rfl (fun _ _ _ => rfl) rfl rfl) trivial
  · exact leads_of_ok h (passesBy_of_eq (by cases o <;> rfl) (Memory.grows_alloc w.memory _).size_le
      (Memory.frame_alloc _ w.memory _) rfl rfl) trivial

theorem passing_scan (reader : Nat) (s : Scan α) : Passing o shared (scan reader s) w := by
  have hoffset : ∀ offset, w.PassesBy o shared
      (w.setReader reader { w.reader reader with offset := offset }) := fun offset =>
    passesBy_of_eq (by cases o <;> rfl) le_rfl (fun _ _ _ => rfl) rfl rfl
  cases h : s (w.bytes (w.reader reader).source) (w.reader reader).offset with
  | ok a offset => exact leads_of_ok (scan_ok h) (hoffset offset) trivial
  | error e offset => exact leads_of_error (scan_error h) (hoffset offset) trivial

theorem passing_passNext (reader : Nat) (n : Binary64) : Passing o shared (passNext reader n) w := by
  refine (passing_scan reader _).bind fun start w₁ => Leads.get_bind ?_
  exact passing_pure _

theorem passing_newReader (source : ByteRange) : Passing o shared (newReader source) w :=
  passing_aside (by cases o <;> rfl) rfl rfl rfl

theorem passing_newBorrower (region : Nat) : Passing o shared (newBorrower region) w :=
  Leads.get_bind (Passing.ofExcept_bind fun _ _ => passing_aside (by cases o <;> rfl) rfl rfl rfl)

/-- A vector that gets something else to hold, but no storage. -/
theorem passesBy_setHolding (id : Nat) {h : Holding} (hh : ∀ a, h ≠ .owned a) :
    w.PassesBy o shared (w.setHolding id h) := by
  refine passesBy_of_lose (by cases o <;> rfl) le_rfl (fun _ _ _ => rfl) fun p a ha => ?_
  rcases storage?_setHolding ha with ⟨-, he⟩ | ⟨-, hold⟩
  · exact absurd he (hh a)
  · exact hold

theorem passing_attach (id : Nat) (view : View) (region : Nat) :
    Passing o shared (attach id view region) w := by
  apply passing_of_after
  unfold Action.after
  rw [attach_eq]
  split_ifs
  · exact refl_of (PassesBy o shared) w
  · exact passesBy_setHolding id (by simp)
  · exact refl_of (PassesBy o shared) w

/-- What a source is read for is no write, and it hands on the source itself only if that shares. -/
theorem passesBy_of_takes {source : ByteRange} (hsource : source.shares = true → ¬ shared source.buffer)
    (h : TakesFrom source w w') : w.PassesBy o shared w' := by
  cases h with
  | offset reader offset => exact passesBy_of_eq (by cases o <;> rfl) le_rfl (fun _ _ _ => rfl) rfl rfl
  | viewed => exact passesBy_of_eq (by cases o <;> rfl) le_rfl (fun _ _ _ => rfl) rfl rfl
  | made kind checked =>
    refine ⟨fun s hs => ?_, fun b _ hf => ⟨(advances_newVec kind checked).foreign b hf, rfl⟩⟩
    cases o <;> exact hs
  | borrowed vec => exact passesBy_setHolding vec (by simp)
  | copied vec r =>
    refine ⟨fun s hs => ?_, fun b _ hf => ⟨⟨?_, fun p a ha => ?_⟩, ?_⟩⟩
    · cases o <;> exact hs
    · exact hf.lt.trans_le (Memory.grows_alloc w.memory _).size_le
    · rcases storage?_setHolding ha with ⟨-, he⟩ | ⟨-, hold⟩
      · cases he
        exact hf.lt.ne'
      · exact hf.ne p a ((storage?_congr rfl rfl p).symm.trans hold)
    · exact Memory.buffer_alloc_of_lt _ hf.lt
  | shared vec hshares hbuffer =>
    refine ⟨fun s hs => ?_, fun b hb hf => ⟨⟨hf.lt, fun p a ha => ?_⟩, rfl⟩⟩
    · cases o <;> exact hs
    · rcases storage?_setHolding ha with ⟨-, he⟩ | ⟨-, hold⟩
      · cases he
        rintro rfl
        exact hsource hshares (hbuffer ▸ hb)
      · exact hf.ne p a ((storage?_congr rfl rfl p).symm.trans hold)

theorem passing_shareView (id : Nat) : Passing o shared (shareView id) w := by
  refine Leads.get_bind (Passing.ofExcept_bind fun view _ => ?_)
  have hserial : ∀ u, Passing o shared (nextSerial >>= fun _ => (pure view : Action View)) u :=
    fun u => passing_nextSerial.bind fun _ _ => passing_pure _
  by_cases hm : (w.vec id).mode = .empty
  · rw [if_pos hm]
    exact (passing_alloc []).bind fun _ u => hserial u
  · rw [if_neg hm]
    exact hserial w

/-- An exchange writes nothing but the storage of the vector. -/
theorem passing_swapWith {id array : Nat} (h : ∀ b, shared b → id < w.vecs.size ∧ array < w.arrays.size) :
    Passing o shared (swapWith id array) w := by
  apply passing_of_after
  refine ⟨fun s hs => ?_, fun b hb hf => ⟨?_, (swapWith_buffer hf)⟩⟩
  · by_cases hk : (w.vec id).kind = (w.array array).kind
    · cases hown : own id w with
      | error e w₁ =>
        rw [Action.after_error (swapWith_of_error hk hown), own_error hown]
        exact hs
      | ok a w₁ =>
        rw [Action.after_ok (swapWith_ok hk hown)]
        obtain ⟨m, p, rfl, -⟩ := own_ok hown
        cases o <;> exact hs
    · rw [Action.after_error (swapWith_of_ne hk)]
      exact hs
  · obtain ⟨hv, ha⟩ := h b hb
    exact (advances_swapWith hv ha).foreign b hf

theorem solitary_iteration {it : Nat} (hit : it < w.iterations.size) :
    w.solitary (.iteration it) = some (.inl (w.iteration it)) := by
  change (w.iterations[it]?).map Sum.inl = some (Sum.inl (w.iterations.getD it default))
  rw [Array.getD_eq_getD_getElem?, Array.getElem?_eq_getElem hit]
  rfl

theorem iteration_of_solitary {it : Nat} {i : Iteration} (h : w.solitary (.iteration it) = some (.inl i)) :
    it < w.iterations.size ∧ w.iteration it = i := by
  have hlt : it < w.iterations.size := by
    by_contra hge
    simp [solitary, Array.getElem?_eq_none (not_lt.1 hge)] at h
  rw [solitary_iteration hlt] at h
  cases h
  exact ⟨hlt, rfl⟩

theorem passesBy_setIteration {id : Nat} (i : Iteration) (hid : o ≠ .iteration id) :
    w.PassesBy o shared (w.setIteration id i) := by
  refine passesBy_of_eq ?_ le_rfl (fun _ _ _ => rfl) rfl rfl
  cases o with
  | iteration j =>
    have hne : id ≠ j := fun he => hid (by rw [he])
    exact congrArg (Option.map _) (Array.getElem?_setIfInBounds_ne hne)
  | writer j => rfl
  | store j => rfl

theorem passing_next {id : Nat} (hid : o ≠ .iteration id) : Passing o shared (next id) w := by
  apply passing_of_after
  rcases next_cases w id with h | ⟨i, h⟩
  · rw [h]
    exact refl_of (PassesBy o shared) w
  · rw [h]
    exact passesBy_setIteration i hid

theorem passing_iterate (id : Nat) : Passing o shared (iterate id) w := by
  apply passing_of_after
  refine ⟨fun s hs => ?_, fun b _ hf => ⟨⟨hf.lt, fun p a ha => ?_⟩, rfl⟩⟩
  · cases o with
    | iteration j => exact solitary_push (.fresh id) hs
    | writer j => exact hs
    | store j => exact hs
  · exact hf.ne p a ((storage?_congr rfl rfl p).symm.trans ha)

theorem passing_vecCommand {id : Nat} {c : VecCommand} (hc : (Command.vec id c).Misses w shared) :
    Passing o shared (c.run id) w := by
  apply Leads.get_bind
  cases c with
  | attach view region => exact (passing_attach id view region).map
  | item index => exact (passing_ask _).map
  | unchecked index => exact (passing_ask _).map
  | front => exact (passing_ask _).map
  | back => exact (passing_ask _).map
  | toList => exact (passing_ask _).map
  | share => exact (passing_shareView id).map
  | isView view => exact (passing_ask _).map
  | writable => exact Leads.map (passing_of_after (passesBy_rewrites rewrites_writableView))
  | set index value => exact Leads.map (passing_of_after (passesBy_rewrites (rewrites_setAt index value)))
  | push value => exact Leads.map (passing_of_after (passesBy_rewrites (rewrites_push value)))
  | pop => exact Leads.map (passing_of_after (passesBy_rewrites rewrites_pop))
  | resize length fill =>
    exact Leads.map (passing_of_after (passesBy_rewrites (rewrites_resize length fill)))
  | swap array => exact (passing_swapWith hc).map
  | clear => exact Leads.map (passing_of_after (passesBy_setHolding id (by simp)))
  | iterate => exact (passing_iterate id).map

theorem passing_changeArray {id : Nat} {change : Memory → Growable → Except Fault (Growable × Memory)}
    (hc : ∀ m a a' m', change m a = .ok (a', m') → Growable.Updates m a m' a')
    (h : ∀ b, shared b → id < w.arrays.size) : Passing o shared (changeArray id change) w := by
  apply passing_of_after
  refine passesBy_of_shared ?_ fun b hb => passesBy_rewritesArray (rewrites_changeArray (h b hb) hc)
  cases hr : change w.memory (w.array id) with
  | error e => rw [Action.after_error (changeArray_error hr)]
  | ok r =>
    rw [Action.after_ok (changeArray_ok hr)]
    cases o <;> rfl

theorem passing_reserve {id : Nat} (extra : Binary64) (h : ∀ b, shared b → id < w.arrays.size) :
    Passing o shared (reserve id extra) w := by
  apply passing_of_after
  refine passesBy_of_shared ?_ fun b hb => passesBy_rewritesArray (rewrites_reserve (h b hb) extra)
  cases hr : (w.array id).reserve w.memory extra with
  | error e => rw [Action.after_error (reserveArray_error hr)]
  | ok r =>
    obtain ⟨moved, a, m⟩ := r
    rw [Action.after_ok (reserveArray_ok hr)]
    cases o <;> rfl

theorem passing_swapArrays {id other : Nat}
    (h : ∀ b, shared b → id < w.arrays.size ∧ other < w.arrays.size) :
    Passing o shared (swapArrays id other) w := by
  apply passing_of_after
  have hrun : (swapArrays id other).after w = w ∨ (swapArrays id other).after w =
      (w.setArray id (w.array other)).setArray other (w.array id) := by
    have hstep : swapArrays id other w = (Action.ofExcept ((w.array id).swap (w.array other)) >>= fun r =>
      (set ((w.setArray id r.1).setArray other r.2) : Action Unit)) w := rfl
    unfold Growable.swap at hstep
    split_ifs at hstep
    · exact Or.inr (Action.after_ok hstep)
    · exact Or.inl (Action.after_error hstep)
  have hforeign : ∀ b, shared b → w.Foreign b → ((swapArrays id other).after w).Foreign b := fun b hb hf =>
    (advances_swapArrays (h b hb).1 (h b hb).2).foreign b hf
  rcases hrun with hsame | hswapped
  · rw [hsame]
    exact refl_of (PassesBy o shared) w
  · rw [hswapped] at hforeign ⊢
    refine ⟨fun s hs => ?_, fun b hb hf => ⟨hforeign b hb hf, rfl⟩⟩
    cases o <;> exact hs

theorem passing_pushArray {id : Nat} (value : Scalar) (h : ∀ b, shared b → id < w.arrays.size) :
    Passing o shared (pushArray id value) w :=
  leads_pushArray trivial (passing_changeArray (fun _ _ _ _ hc => Growable.updates_push hc) h)
    (passing_reserve 1 h)

theorem passing_resizeArray {id : Nat} (length : Binary64) (fill : Scalar)
    (h : ∀ b, shared b → id < w.arrays.size) : Passing o shared (resizeArray id length fill) w :=
  leads_resizeArray trivial (passing_changeArray (fun _ _ _ _ hc => Growable.updates_resize hc) h)
    (passing_reserve _ h)

theorem passing_arrayCommand {id : Nat} {c : ArrayCommand} (hc : (Command.array id c).Misses w shared) :
    Passing o shared (c.run id) w := by
  cases c with
  | reserve extra => exact (passing_reserve extra hc).map
  | push value => exact (passing_pushArray value hc).map
  | pop =>
    refine Leads.get_bind (Leads.map (passing_of_after ?_))
    exact passesBy_of_shared (by cases o <;> rfl) fun b hb => passesBy_rewritesArray (rewrites_popArray (hc b hb))
  | resize length fill => exact (passing_resizeArray length fill hc).map
  | share => exact Leads.map (Leads.get_bind (passing_nextSerial.bind fun _ _ => passing_pure _))
  | clear =>
    refine Leads.map (passing_changeArray (fun m a a' m' h => ?_) hc)
    cases h
    exact Growable.updates_clear m a
  | release =>
    refine Leads.map (passing_changeArray (fun m a a' m' h => ?_) hc)
    cases h
    exact Growable.updates_release m a
  | swap other => exact (passing_swapArrays hc).map

theorem passing_addArray {a : Growable} {m : Memory} (h : Growable.Fresh w.memory m a) :
    Passing o shared (addArray a m) w :=
  passing_of_after (passesBy_places (places_addArray h) (by cases o <;> rfl))

theorem passing_addVec {a : Growable} {m : Memory} (checked : Bool) (h : Growable.Fresh w.memory m a) :
    Passing o shared (addVec a m checked) w :=
  passing_of_after (passesBy_places (places_addVec checked h) (by cases o <;> rfl))

theorem passing_readerCommand {id : Nat} {c : ReaderCommand}
    (hc : ∀ b, w.Adopts (.reader id c) b → ¬ shared b) : Passing o shared (c.run id) w := by
  cases c with
  | u32 => exact (passing_scan id _).map
  | i32 => exact (passing_scan id _).map
  | u64 => exact (passing_scan id _).map
  | copy n =>
    exact Leads.map ((passing_passNext id n).bind fun r w₁ => leads_slice passesBy_alloc r)
  | borrow n =>
    refine Passing.bind ?_ fun _ _ => passing_pure _
    refine (passing_passNext id n).bind fun r w₁ => Leads.get_bind ?_
    exact passing_pure _
  | align n => exact (passing_scan id _).map
  | field vec stride policy =>
    have hstep : ∀ u u', TakesFrom (w.reader id).source u u' → PassesBy o shared u u' :=
      fun _ _ => passesBy_of_takes fun hs => hc _ (.field hs)
    exact (taking_readField hstep vec stride policy rfl).map
  | bundle policy =>
    have hstep : ∀ u u', TakesFrom (w.reader id).source u u' → PassesBy o shared u u' :=
      fun _ _ => passesBy_of_takes fun hs => hc _ (.bundle hs)
    exact (taking_decode hstep policy rfl).map

theorem passing_changeWriter {id : Nat} (change : World → Writer → Except Fault Writer)
    (hid : o ≠ .writer id) : Passing o shared (changeWriter id change) w := by
  refine Leads.get_bind (Passing.ofExcept_bind fun x _ => passing_aside ?_ rfl rfl rfl)
  cases o with
  | iteration j => rfl
  | writer j =>
    have hne : id ≠ j := fun he => hid (by rw [he])
    exact congrArg (Option.map _) (Array.getElem?_setIfInBounds_ne hne)
  | store j => rfl

theorem passing_joined (id : Nat) : Passing o shared (joined id) w := Leads.get_bind (passing_alloc _)

theorem passing_writerCommand {id : Nat} (c : WriterCommand) (hid : o ≠ .writer id) :
    Passing o shared (c.run id) w := by
  cases c with
  | word32 value => exact (passing_changeWriter _ hid).map
  | word64 value => exact (passing_changeWriter _ hid).map
  | bytes range => exact (passing_changeWriter _ hid).map
  | align n => exact (passing_changeWriter _ hid).map
  | field vec stride => exact (passing_changeWriter _ hid).map
  | join => exact (passing_joined id).map

theorem passesBy_setStore {store : Nat} (s : Store) (hid : o ≠ .store store) :
    w.PassesBy o shared (w.setStore store s) := by
  refine passesBy_of_eq ?_ le_rfl (fun _ _ _ => rfl) rfl rfl
  cases o with
  | iteration j => rfl
  | writer j => rfl
  | store j =>
    have hne : store ≠ j := fun he => hid (by rw [he])
    exact congrArg (Option.map _) (Array.getElem?_setIfInBounds_ne hne)

theorem passesBy_pushStore (w : World) (s : Store) :
    w.PassesBy o shared { w with stores := w.stores.push s } := by
  refine ⟨fun s' hs => ?_, fun b _ hf => ⟨⟨hf.lt, fun p a ha => ?_⟩, rfl⟩⟩
  · cases o with
    | iteration j => exact hs
    | writer j => exact hs
    | store j => exact solitary_push s hs
  · exact hf.ne p a ((storage?_congr rfl rfl p).symm.trans ha)

/-- Regions and readers are no such objects. -/
theorem passesBy_lent (w : World) (regions : Array Region) (readers : Array Reader) :
    w.PassesBy o shared { w with regions := regions, readers := readers } :=
  passesBy_of_eq (by cases o <;> rfl) le_rfl (fun _ _ _ => rfl) rfl rfl

theorem passing_storeCommand {id : Nat} {c : StoreCommand} (hid : o ≠ .store id)
    (hc : ∀ b, w.Adopts (.store id c) b → ¬ shared b) : Passing o shared (c.run id) w := by
  refine leads_storeCommand passesBy_alloc (fun u s => passesBy_setStore s hid) c (fun path => ?_) ?_
  · exact (leads_lendFile passesBy_alloc fun u _ _ _ _ => passesBy_lent u _ u.readers).mono fun _ _ _ => trivial
  · rintro path policy rfl
    refine leads_openInPlace passesBy_alloc (fun u _ _ _ _ => passesBy_lent u _ u.readers)
      (fun u _ _ _ => passesBy_lent u u.regions _) (fun held hheld _ _ => ?_) policy
    exact passesBy_of_takes fun hs => hc _ (hheld.adopts hs policy)

/-- A write from outside changes the buffer that it is to, and no other. -/
theorem passing_setElement {v : View} (index : Binary64) (value : Scalar) (hv : ¬ shared v.buffer) :
    Passing o shared (setElement v index value) w := by
  have hwrite : w.PassesBy o shared { w with memory := w.memory.setElement v index value } := by
    refine ⟨fun s hs => ?_, fun b hb hf => ⟨⟨?_, fun p a ha => ?_⟩, ?_⟩⟩
    · cases o <;> exact hs
    · exact hf.lt.trans_le (Memory.grows_setElement w.memory v index value).size_le
    · exact hf.ne p a ((storage?_congr rfl rfl p).symm.trans ha)
    · refine Memory.frame_setElement w.memory v index value b hf.lt fun he => hv ?_
      rwa [← he]
  apply passing_of_after
  rcases after_setElement w v index value with h | h
  · rwa [h]
  · rw [h]
    exact refl_of (PassesBy o shared) w

/-- Every command passes by what it is not given to. -/
theorem passing_command {c : Command} (hsolitary : c.solitary? ≠ some o) (hc : c.Spares w shared) :
    Passing o shared c.run w := by
  cases c with
  | alloc contents => exact (passing_alloc contents).map
  | duplicate range => exact Leads.get_bind (passing_alloc _).map
  | poke range index value =>
    exact (passing_setElement (v := ⟨.u8, range.buffer, range.offset, range.length, 0⟩) index value hc.misses).map
  | view kind buffer offset length => exact (passing_view kind buffer offset length).map
  | setElement v index value => exact (passing_setElement index value hc.misses).map
  | lend range label => exact (passing_lend range label).map
  | lentBytes region => exact (passing_ask _).map
  | close region => exact Leads.map (passing_aside (by cases o <;> rfl) rfl rfl rfl)
  | newVec kind checked =>
    have hmade : TakesFrom ⟨0, 0, 0, false⟩ w { w with vecs := w.vecs.push (.new kind checked) } := .made kind checked
    exact Leads.map (passing_of_after (passesBy_of_takes (fun hs => absurd hs Bool.false_ne_true) hmade))
  | vecOfList kind values checked =>
    exact Leads.map (Leads.demand_bind trivial fun _ =>
      Leads.get_bind (passing_addVec checked (Growable.fresh_ofWords ..)))
  | vecOfView kind v checked =>
    exact Leads.map (Leads.demand_bind trivial fun _ =>
      Leads.get_bind (passing_addVec checked (Growable.fresh_ofWords ..)))
  | vec id c => exact passing_vecCommand hc.misses
  | next iteration =>
    have hid : o ≠ .iteration iteration := fun he => hsolitary (by rw [he]; rfl)
    exact Leads.get_bind (passing_next hid).map
  | newArray kind length fill =>
    refine Leads.map (Leads.get_bind (Passing.ofExcept_bind fun r hr => ?_))
    exact passing_addArray (Growable.fresh_create hr)
  | arrayOfList kind values =>
    exact Leads.map (Leads.demand_bind trivial fun _ =>
      Leads.get_bind (passing_addArray (Growable.fresh_ofWords ..)))
  | arrayOfView kind v =>
    exact Leads.map (Leads.demand_bind trivial fun _ =>
      Leads.get_bind (passing_addArray (Growable.fresh_ofWords ..)))
  | array id c => exact passing_arrayCommand hc.misses
  | newReader source => exact (passing_newReader source).map
  | newBorrower region => exact (passing_newBorrower region).map
  | reader id c => exact passing_readerCommand hc.adopts
  | newWriter =>
    refine Leads.map (passing_of_after ⟨fun s hs => ?_, fun b _ hf => ⟨⟨hf.lt, fun p a ha => ?_⟩, rfl⟩⟩)
    · cases o with
      | iteration j => exact hs
      | writer j => exact solitary_push Writer.empty hs
      | store j => exact hs
    · exact hf.ne p a ((storage?_congr rfl rfl p).symm.trans ha)
  | writer id c => exact passing_writerCommand c fun he => hsolitary (by rw [he]; rfl)
  | encode fields => exact (passing_ask _).bind fun _ _ => (passing_alloc _).map
  | decodeCopy source policy =>
    exact (leads_decodeCopy (passesBy_lent w w.regions _)
      (fun _ _ => passesBy_of_takes fun hs => hc.adopts _ (.decodeCopy hs)) policy).map
  | newMemory files => exact (leads_newMemory passesBy_alloc passesBy_pushStore files).map
  | newDisk disk => exact Leads.map (passing_of_after (passesBy_pushStore w (.disk disk)))
  | store id c => exact passing_storeCommand (fun he => hsolitary (by rw [he]; rfl)) hc.adopts

theorem passesBy_perform (w : World) {c : Command} (hsolitary : c.solitary? ≠ some o)
    (hc : c.Spares w shared) : w.PassesBy o shared (w.perform c).2 := by
  rw [perform_snd]
  exact (passing_command hsolitary hc).after

end World

end LeaseVec
