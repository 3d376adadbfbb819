import LeaseVec.Proofs.Ownership.Fields

/-!
# Histories that keep ownership exclusive

The bytes given to a region, to a reader, to a decoder or to a memory store, and the views given to a vector,
are the places where a caller can bring in bytes. As long as these bytes are plain, exist, and are nobody's
storage at that moment, every command keeps ownership exclusive, whatever else it is and whether it succeeds or
fails. Of what is put into a memory store it is enough that it is plain, since it is copied.
-/

namespace LeaseVec

open Number

/-- Where nothing has storage, all bytes are outside. -/
theorem World.outside_of_no_storage {w : World} (h : ∀ o, w.storage? o = none) {r : ByteRange}
    (hr : w.memory.Covers r) (hplain : r.shares = false) : w.Outside r := by
  refine ⟨⟨hr.buffer_lt, fun o a ha => ?_⟩, hr, hplain⟩
  rw [h o] at ha
  cases ha

/-- A view is attached only when it lies outside all storage, and a swap needs an array. -/
def VecCommand.Lawful (w : World) : VecCommand → Prop
  | attach view _ => w.Outside view.range
  | swap array => array < w.arrays.size
  | _ => True

def ArrayCommand.Lawful (w : World) : ArrayCommand → Prop
  | swap other => other < w.arrays.size
  | _ => True

/-- The bytes that a command brings in from outside. -/
def Command.sources : Command → List ByteRange
  | lend range _ => [range]
  | newReader source => [source]
  | decodeCopy source _ => [source]
  | _ => []

/-- What a memory store is given to keep is plain. -/
def StoreCommand.Lawful (w : World) (id : Nat) : StoreCommand → Prop
  | put _ contents | replace _ contents | replaceImposing _ contents _ => w.PlainFor id contents
  | _ => True

/-- What a command asks of its caller: the vectors and arrays that it names exist, the bytes that it
brings in are nobody's storage, and all of them are plain. -/
def Command.Lawful (w : World) : Command → Prop
  | vec id c => id < w.vecs.size ∧ c.Lawful w
  | array id c => id < w.arrays.size ∧ c.Lawful w
  | newMemory files => ∀ f ∈ files, f.2.shares = false
  | store id c => c.Lawful w id
  | c => ∀ r ∈ c.sources, w.Outside r

theorem Command.Lawful.outside {w : World} {c : Command} (h : c.Lawful w) {r : ByteRange}
    (hr : r ∈ c.sources) : w.Outside r := by
  cases c with
  | vec id c => cases hr
  | array id c => cases hr
  | lend range label => exact h r hr
  | newReader source => exact h r hr
  | decodeCopy source policy => exact h r hr
  | _ => cases hr

namespace World

variable {w : World}

theorem safe_done {x : Action Unit} (h : w.Advances (x.after w)) :
    Safe x.done w fun _ _ => True := by
  apply safe_of_advances
  rwa [Action.after_done]

theorem safe_map {α β : Type} {x : Action α} {f : α → β} (h : w.Advances (x.after w)) :
    Safe (x >>= fun a => pure (f a)) w fun _ _ => True := by
  apply safe_of_advances
  rwa [Action.after_map]

theorem safe_asking {α : Type} (question : World → Except Fault α) :
    Safe (Action.ask question) w fun _ _ => True := by
  apply safe_of_advances
  rw [Action.after_ask]
  exact Advances.refl w

/-- A question, whatever its answer is used for. -/
theorem safe_ask {α β : Type} (question : World → Except Fault α) (f : α → β) :
    Safe (Action.ask question >>= fun a => pure (f a)) w fun _ _ => True :=
  safe_map (safe_asking question).after

/-- A vector without storage shows a view of a new, empty buffer. -/
theorem advances_shareView (he : w.Exclusive) (id : Nat) : w.Advances ((shareView id).after w) := by
  have h : Safe (shareView id) w fun _ _ => True := by
    unfold shareView
    refine Safe.get_bind (Safe.ofExcept_bind fun view _ => ?_)
    have hserial : ∀ u : World, Safe (nextSerial >>= fun _ => pure view) u fun _ _ => True :=
      fun u => ⟨advances_memory (grows_countView u.memory), trivial⟩
    split_ifs with hm
    · exact (safe_alloc he []).bind fun _ w₁ _ _ => hserial w₁
    · exact hserial w
  exact h.after

theorem advances_iterations {iterations : Array Iteration} :
    w.Advances { w with iterations := iterations } :=
  Advances.of_lose (Memory.Grows.refl _) (fun o _ ha => (storage?_congr rfl rfl o).symm.trans ha)
    (fun _ _ _ => rfl) (fun _ hr => Or.inl (hr.congr rfl rfl rfl rfl))

theorem advances_writers {writers : Array Writer} : w.Advances { w with writers := writers } :=
  Advances.of_lose (Memory.Grows.refl _) (fun o _ ha => (storage?_congr rfl rfl o).symm.trans ha)
    (fun _ _ _ => rfl) (fun _ hr => Or.inl (hr.congr rfl rfl rfl rfl))

theorem advances_deliver (id vec : Nat) (view : View) (position : Nat) :
    w.Advances ((deliver id vec view position).after w) := by
  have h : Safe (deliver id vec view position) w fun _ _ => True := by
    unfold deliver
    refine Safe.get_bind ?_
    cases w.memory.elementAt? view position with
    | some x => exact ⟨advances_iterations, trivial⟩
    | none => exact ⟨advances_iterations, trivial⟩
  exact h.after

theorem advances_next (id : Nat) : w.Advances ((next id).after w) := by
  have h : Safe (next id) w fun _ _ => True := by
    unfold next
    refine Safe.get_bind ?_
    cases w.iteration id with
    | finished vec => exact safe_pure trivial
    | running vec view position => exact safe_of_advances (advances_deliver ..)
    | fresh vec =>
      simp only
      cases w.viewOf (w.vec vec) with
      | ok view => exact safe_of_advances (advances_deliver ..)
      | error e => exact (advances_iterations : w.Advances { w with iterations := _ })
  exact h.after

theorem safe_vecCommand (he : w.Exclusive) {id : Nat} (hid : id < w.vecs.size) {c : VecCommand}
    (hc : c.Lawful w) : Safe (c.run id) w fun _ _ => True := by
  unfold VecCommand.run
  refine Safe.get_bind ?_
  cases c with
  | attach view region => exact safe_done (advances_attach fun _ => ⟨hc.foreign, hc.covers⟩)
  | item index => exact safe_ask _ _
  | unchecked index => exact safe_ask _ _
  | front => exact safe_ask _ _
  | back => exact safe_ask _ _
  | toList => exact safe_ask _ _
  | share => exact safe_map (advances_shareView he id)
  | isView view => exact safe_ask _ _
  | writable => exact safe_map rewrites_writableView.advances
  | set index value => exact safe_done (rewrites_setAt index value).advances
  | push value => exact safe_done (rewrites_push value).advances
  | pop => exact safe_map rewrites_pop.advances
  | resize length fill => exact safe_done (rewrites_resize length fill).advances
  | swap array => exact safe_done (advances_swapWith hid hc)
  | clear => exact safe_done advances_clear
  | iterate => exact safe_map advances_iterations

theorem safe_arrayCommand {id : Nat} (hid : id < w.arrays.size) {c : ArrayCommand}
    (hc : c.Lawful w) : Safe (c.run id) w fun _ _ => True := by
  cases c with
  | reserve extra => exact safe_map (rewrites_reserve hid extra).advances
  | push value => exact safe_done (rewrites_pushArray hid value).advances
  | pop => exact Safe.get_bind (safe_map (rewrites_popArray hid).advances)
  | resize length fill => exact safe_done (rewrites_resizeArray hid length fill).advances
  | share => exact safe_map (advances_memory (grows_countView _))
  | clear =>
    refine safe_done (rewrites_changeArray hid fun m a a' m' h => ?_).advances
    cases h
    exact Growable.updates_clear m a
  | release =>
    refine safe_done (rewrites_changeArray hid fun m a a' m' h => ?_).advances
    cases h
    exact Growable.updates_release m a
  | swap other => exact safe_done (advances_swapArrays hid hc)

theorem safe_passNext (reader : Nat) (n : Binary64) :
    Safe (passNext reader n) w fun _ _ => True := by
  unfold passNext
  refine (safe_scan reader _).bind fun start w₁ _ _ => ?_
  exact Safe.get_bind (safe_pure trivial)

theorem safe_readerCommand (he : w.Exclusive) (id : Nat) (c : ReaderCommand) :
    Safe (c.run id) w fun _ _ => True := by
  cases c with
  | u32 => exact safe_map (safe_scan id _).after
  | i32 => exact safe_map (safe_scan id _).after
  | u64 => exact safe_map (safe_scan id _).after
  | align n => exact safe_done (safe_scan id _).after
  | field vec stride policy => exact safe_map (safe_readField he id vec stride policy).after
  | bundle policy => exact safe_map (safe_decode he id policy).after
  | copy n =>
    refine safe_map (Safe.after (p := fun _ _ => True) ?_)
    refine (safe_passNext id n).bind fun r w₁ h₁ _ => ?_
    exact safe_of_advances (advances_slice (h₁.exclusive he) r)
  | borrow n =>
    refine Safe.bind (p := fun _ _ => True) ?_ fun _ _ _ _ => safe_pure trivial
    refine (safe_passNext id n).bind fun r w₁ _ _ => ?_
    exact Safe.get_bind (safe_pure trivial)

theorem safe_changeWriter (id : Nat) (change : World → Writer → Except Fault Writer) :
    Safe (changeWriter id change) w fun _ _ => True := by
  unfold changeWriter
  exact Safe.get_bind (Safe.ofExcept_bind fun writer _ => ⟨advances_writers, trivial⟩)

theorem safe_writerCommand (he : w.Exclusive) (id : Nat) (c : WriterCommand) :
    Safe (c.run id) w fun _ _ => True := by
  cases c with
  | word32 value => exact safe_done (safe_changeWriter id _).after
  | word64 value => exact safe_done (safe_changeWriter id _).after
  | bytes range => exact safe_done (safe_changeWriter id _).after
  | align n => exact safe_done (safe_changeWriter id _).after
  | field vec stride => exact safe_done (safe_changeWriter id _).after
  | join =>
    refine safe_map (Safe.after (p := fun _ _ => True) ?_)
    exact Safe.get_bind (safe_of_advances (safe_alloc he _).after)

theorem safe_storeCommand (he : w.Exclusive) {id : Nat} {c : StoreCommand} (hc : c.Lawful w id) :
    Safe (c.run id) w fun _ _ => True := by
  refine safe_keeping he id fun r hr => ?_
  cases c with
  | put | replace | replaceImposing =>
    cases hr
    exact hc
  | _ => cases hr

/-- A write through a view that somebody holds changes no length. -/
theorem advances_setElement (v : View) (index : Binary64) (x : Scalar) :
    w.Advances ((setElement v index x).after w) := by
  rcases after_setElement w v index x with h | h
  · rw [h]
    exact advances_memory (Memory.grows_setElement ..)
  · rw [h]
    exact Advances.refl w

theorem safe_command (he : w.Exclusive) {c : Command} (hc : c.Lawful w) :
    Safe c.run w fun _ _ => True := by
  cases c with
  | alloc contents => exact safe_map (safe_alloc he contents).after
  | duplicate range => exact Safe.get_bind (safe_map (safe_alloc he (w.bytes range)).after)
  | poke range index value => exact safe_done (advances_setElement ..)
  | view kind buffer offset length => exact safe_map (safe_view kind buffer offset length).after
  | setElement v index value => exact safe_done (advances_setElement v index value)
  | lend range label =>
    have hr : w.Outside range := hc range (List.mem_singleton_self _)
    exact safe_map (safe_lend he label hr).after
  | lentBytes region => exact safe_ask _ _
  | close region => exact safe_done (advances_close region)
  | newVec kind checked => exact safe_map (advances_newVec kind checked)
  | vecOfList kind values checked =>
    refine safe_map (Safe.after (p := fun _ _ => True) (Safe.demand_bind ?_))
    exact safe_of_advances (places_addVec checked (Growable.fresh_ofWords ..)).advances
  | vecOfView kind v checked =>
    refine safe_map (Safe.after (p := fun _ _ => True) (Safe.demand_bind ?_))
    exact safe_of_advances (places_addVec checked (Growable.fresh_ofWords ..)).advances
  | vec id c => exact safe_vecCommand he hc.1 hc.2
  | next iteration => exact Safe.get_bind (safe_map (advances_next iteration))
  | newArray kind length fill =>
    refine safe_map (Safe.after (p := fun _ _ => True) ?_)
    refine Safe.get_bind (Safe.ofExcept_bind fun r hr => ?_)
    exact safe_of_advances (places_addArray (Growable.fresh_create hr)).advances
  | arrayOfList kind values =>
    refine safe_map (Safe.after (p := fun _ _ => True) (Safe.demand_bind ?_))
    exact safe_of_advances (places_addArray (Growable.fresh_ofWords ..)).advances
  | arrayOfView kind v =>
    refine safe_map (Safe.after (p := fun _ _ => True) (Safe.demand_bind ?_))
    exact safe_of_advances (places_addArray (Growable.fresh_ofWords ..)).advances
  | array id c => exact safe_arrayCommand hc.1 hc.2
  | newReader source =>
    have hr : w.Outside source := hc source (List.mem_singleton_self _)
    exact safe_map (safe_newReader hr).after
  | newBorrower region => exact safe_map (advances_newBorrower region)
  | reader id c => exact safe_readerCommand he id c
  | newWriter => exact safe_map advances_writers
  | writer id c => exact safe_writerCommand he id c
  | encode fields =>
    refine (safe_asking fun w => Bundle.encode w fields).bind fun contents w₁ h₁ _ => ?_
    exact safe_map (safe_alloc (h₁.exclusive he) contents).after
  | decodeCopy source policy =>
    have hr : w.Outside source := hc source (List.mem_singleton_self _)
    exact safe_map (safe_decodeCopy he hr policy).after
  | newMemory files => exact safe_map (safe_newMemory he hc).after
  | newDisk disk => exact safe_map (advances_addStore (keptAs_disk _ disk))
  | store id c => exact safe_storeCommand he hc

theorem advances_perform (he : w.Exclusive) {c : Command} (hc : c.Lawful w) :
    w.Advances (w.perform c).2 := by
  have h := (safe_command he hc).after
  unfold perform
  unfold Action.after at h
  cases hr : c.run w with
  | ok reply w' => rwa [hr] at h
  | error e w' => rwa [hr] at h

/-- Every command of a history is lawful in the world that it is carried out in. -/
def LawfulAll (w : World) : List Command → Prop
  | [] => True
  | c :: rest => c.Lawful w ∧ (w.perform c).2.LawfulAll rest

theorem advances_performAll {history : List Command} (he : w.Exclusive)
    (hl : w.LawfulAll history) : w.Advances (w.performAll history).2 := by
  induction history generalizing w with
  | nil => exact Advances.refl w
  | cons c rest ih =>
    have hstep := advances_perform he hl.1
    exact hstep.trans (ih (hstep.exclusive he) hl.2)

theorem exclusive_empty {limit : AllocationLimit} : (empty limit).Exclusive where
  stored := by
    intro o a ha
    cases o with
    | vec id => cases ha
    | array id => cases ha
  apart := by
    intro o o' a a' ha
    cases o with
    | vec id => cases ha
    | array id => cases ha
  lent := by
    intro r hr
    cases hr with
    | held id r h => cases h
    | source id h => cases h
    | stored id files path r hs h =>
      cases hs
      cases h
    | borrowed id view region h => cases h
  plain := by
    intro r hr
    cases hr with
    | held id r h => cases h
    | source id h => cases h
    | stored id files path r hs h =>
      cases hs
      cases h
    | borrowed id view region h => rfl

theorem inBounds_empty {limit : AllocationLimit} : (empty limit).InBounds where
  fits := by
    intro o a ha
    cases o with
    | vec id => cases ha
    | array id => cases ha
  kind_eq := by
    intro id a ha
    cases ha
  covers := by
    intro r hr
    cases hr with
    | held id r h => cases h
    | source id h => cases h
    | stored id files path r hs h =>
      cases hs
      cases h
    | borrowed id view region h => cases h

end World

end LeaseVec
