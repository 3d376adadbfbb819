import LeaseVec.Proofs.World.Takings

/-!
# The moves of regions and readers

Regions and readers are touched in few ways. A region is lent over bytes that start on the boundary, if they
are plain; a reader is made, with a lender only when that region is open; a reader goes on to another offset.
Everything else that happens to a world leaves both alone, and a vector comes to borrow only from a region that
is open. Every command but closing a region is made of such moves, however it ends, so what all moves keep is
kept by every history that keeps it when regions are closed.
-/

namespace LeaseVec.World

open Number

variable {α β : Type} {w w' : World}

/-- One thing that may happen to regions and readers, or nothing. -/
inductive Move : World → World → Prop where
  | aside {w w' : World} (hr : w'.regions = w.regions) (hd : w'.readers = w.readers)
      (hl : ∀ id region, (w'.vec id).lender? = some region →
        (w.vec id).lender? = some region ∨ w.isOpen region = true) : Move w w'
  | lend {w : World} (label : Text) (n : Nat) (held : ByteRange)
      (hb : held.offset % boundary = 0 ∨ held.shares = true) :
      Move w { w with regions := w.regions.push ⟨label, n, some held⟩ }
  | reader {w : World} (source : ByteRange) :
      Move w { w with readers := w.readers.push ⟨source, 0, none⟩ }
  | borrower {w : World} (region : Nat) (source : ByteRange) (hopen : w.lentBytes region = .ok source) :
      Move w { w with readers := w.readers.push ⟨source, 0, some region⟩ }
  | offset {w : World} (reader offset : Nat) :
      Move w (w.setReader reader { w.reader reader with offset := offset })

/-- One move after another. -/
abbrev ComesTo : World → World → Prop := Relation.ReflTransGen Move

/-- What every move keeps is kept. -/
theorem ComesTo.keep {I : World → Prop} (hmove : ∀ w w', Move w w' → I w → I w')
    (h : w.ComesTo w') (hi : I w) : I w' := by
  induction h with
  | refl => exact hi
  | tail _ hlast ih => exact hmove _ _ hlast ih

theorem comesTo_refl (w : World) : w.ComesTo w := .refl

/-- Regions, readers and vectors stay. -/
theorem comesTo_of_eq (hr : w'.regions = w.regions) (hd : w'.readers = w.readers)
    (hv : w'.vecs = w.vecs) : w.ComesTo w' := by
  refine .single (.aside hr hd fun id region h => Or.inl ?_)
  unfold vec at h ⊢
  rwa [hv] at h

/-- A vector gets something else to hold, and borrows from an open region if it borrows. -/
theorem comesTo_setHolding (id : Nat) {h : Holding}
    (hh : ∀ view region, h = .borrowed view region → w.isOpen region = true) :
    w.ComesTo (w.setHolding id h) := by
  refine .single (.aside rfl rfl fun j region hj => ?_)
  rw [vec_setHolding] at hj
  by_cases hself : j = id ∧ id < w.vecs.size
  · rw [if_pos hself] at hj
    cases h with
    | empty => cases hj
    | owned a => cases hj
    | borrowed view lender =>
      cases hj
      exact Or.inr (hh view region rfl)
  · rw [if_neg hself] at hj
    exact Or.inl hj

theorem comesTo_withOwned (id : Nat) (a : Growable) (m : Memory) (p : Array Promotion) :
    w.ComesTo (w.withOwned id a m p) := by
  have hbefore : w.ComesTo { w with memory := m, promotions := p } := comesTo_of_eq rfl rfl rfl
  refine hbefore.trans (comesTo_setHolding id fun view region h => ?_)
  cases h

theorem comesTo_pushVec {v : Vec} (m : Memory) (hv : v.lender? = none) :
    w.ComesTo { w with vecs := w.vecs.push v, memory := m } := by
  refine .single (.aside rfl rfl fun id region h => ?_)
  change ({ w with vecs := w.vecs.push v }.vec id).lender? = some region at h
  rw [vec_push] at h
  split_ifs at h with hid
  · rw [hv] at h
    cases h
  · exact Or.inl h

theorem comesTo_alloc (w : World) (contents : Bytes) :
    w.ComesTo { w with memory := (w.memory.alloc contents).2 } := comesTo_of_eq rfl rfl rfl

/-- However a step ends, the world has come there by moves. -/
def Moves (x : Action α) (w : World) : Prop := w.ComesTo (x.after w)

theorem moves_pure (a : α) : Moves (pure a) w := comesTo_refl w

theorem moves_throw (e : Fault) : Moves (throw e : Action α) w := comesTo_refl w

theorem moves_set (h : w.ComesTo w') : Moves (set w' : Action PUnit) w := h

theorem Moves.bind {x : Action α} {f : α → Action β} (hx : Moves x w)
    (hf : ∀ a w', Moves (f a) w') : Moves (x >>= f) w := by
  unfold Moves at hx ⊢
  cases h : x w with
  | error e w₁ =>
    rw [Action.after_error h] at hx
    rwa [Action.after_error (Action.bind_error h)]
  | ok a w₁ =>
    rw [Action.after_ok h] at hx
    have hafter : (x >>= f).after w = (f a).after w₁ := by
      unfold Action.after
      rw [Action.bind_ok h]
    rw [hafter]
    exact hx.trans (hf a w₁)

theorem Moves.get_bind {f : World → Action β} (h : Moves (f w) w) : Moves (get >>= f) w := h

theorem moves_ofExcept (x : Except Fault α) : Moves (Action.ofExcept x) w := by
  cases x with
  | ok a => exact comesTo_refl w
  | error e => exact comesTo_refl w

theorem Moves.ofExcept_bind {x : Except Fault α} {f : α → Action β}
    (h : ∀ a, x = .ok a → Moves (f a) w) : Moves (Action.ofExcept x >>= f) w := by
  cases x with
  | ok a => exact h a rfl
  | error e => exact comesTo_refl w

theorem Moves.map {x : Action α} {f : α → β} (h : Moves x w) :
    Moves (x >>= fun a => pure (f a)) w := h.bind fun _ _ => moves_pure _

theorem moves_ask (question : World → Except Fault α) : Moves (Action.ask question) w := by
  refine Moves.get_bind ?_
  exact moves_ofExcept _

theorem moves_alloc (contents : Bytes) : Moves (alloc contents) w := comesTo_of_eq rfl rfl rfl

theorem moves_nextSerial : Moves nextSerial w := comesTo_of_eq rfl rfl rfl

theorem moves_view (kind : Kind) (buffer : Nat) (offset : Binary64) (length : Option Binary64) :
    Moves (view kind buffer offset length) w := by
  unfold Moves Action.after view
  cases w.memory.view? kind buffer offset length with
  | ok r => exact comesTo_of_eq rfl rfl rfl
  | error e => exact comesTo_refl w

theorem moves_slice (r : ByteRange) : Moves (slice r) w := (leads_slice comesTo_alloc r).after

/-- What a region lends starts on the boundary, whether it is copied or not, unless it shares. -/
theorem moves_lend (r : ByteRange) (label : Text) : Moves (lend r label) w := by
  unfold Moves
  rcases lend_cases w r label with ⟨hb, h⟩ | ⟨-, h⟩
  · rw [Action.after_ok h]
    exact .single (.lend label r.length r hb)
  · rw [Action.after_ok h]
    have hmemory : w.ComesTo { w with memory := (w.memory.alloc (w.bytes r)).2 } :=
      comesTo_of_eq rfl rfl rfl
    exact hmemory.tail (.lend label r.length _ (Or.inl rfl))

theorem moves_newVec (kind : Kind) (checked : Bool) : Moves (newVec kind checked) w :=
  comesTo_pushVec w.memory rfl

theorem moves_addVec (a : Growable) (m : Memory) (checked : Bool) : Moves (addVec a m checked) w :=
  comesTo_pushVec m rfl

/-- A vector borrows only from a region that is open. -/
theorem moves_attach (id : Nat) (view : View) (region : Nat) : Moves (attach id view region) w := by
  refine Moves.get_bind ?_
  by_cases hm : (w.vec id).mode = .owned
  · rw [if_pos hm]
    exact comesTo_refl w
  · rw [if_neg hm]
    by_cases ho : w.isOpen region = true
    · rw [if_pos ho]
      refine moves_set (comesTo_setHolding id fun v r h => ?_)
      cases h
      exact ho
    · rw [if_neg ho]
      exact moves_throw _

theorem moves_own (id : Nat) : Moves (own id) w := by
  unfold Moves Action.after
  have howning := owning_own w id
  generalize own id w = outcome at howning ⊢
  cases howning with
  | owned => exact comesTo_of_eq rfl rfl rfl
  | empty => exact comesTo_withOwned id _ _ _
  | promoted p => exact comesTo_withOwned id _ _ _
  | ended => exact comesTo_of_eq rfl rfl rfl
  | otherSort => exact comesTo_of_eq rfl rfl rfl

theorem moves_changeOwned (id : Nat)
    (change : Memory → Growable → Except Fault (Growable × Memory)) :
    Moves (changeOwned id change) w := by
  refine (moves_own id).bind fun a w₁ => Moves.get_bind (Moves.ofExcept_bind fun r _ => ?_)
  exact comesTo_withOwned id r.1 r.2 w₁.promotions

theorem moves_setAt (id : Nat) (index : Binary64) (value : Scalar) :
    Moves (setAt id index value) w := by
  refine Moves.get_bind (Moves.ofExcept_bind fun _ _ => ?_)
  split_ifs
  · exact moves_changeOwned id _
  · exact (moves_own id).bind fun _ _ => moves_throw _

theorem moves_refuse (id : Nat) (extra : Growable → Binary64) : Moves (refuse id extra) w :=
  (moves_changeOwned id _).bind fun _ _ => moves_throw _

theorem moves_push (id : Nat) (value : Scalar) : Moves (push id value) w := by
  refine Moves.get_bind ?_
  split_ifs
  · exact moves_changeOwned id _
  · exact moves_refuse id _

theorem moves_writableView (id : Nat) : Moves (writableView id) w := by
  refine (moves_own id).bind fun a w₁ => ?_
  exact moves_nextSerial.bind fun _ _ => moves_pure _

theorem moves_pop (id : Nat) : Moves (pop id) w := by
  refine (moves_own id).bind fun a w₁ => Moves.get_bind ?_
  exact comesTo_setHolding id fun view region h => by cases h

theorem moves_resize (id : Nat) (length : Binary64) (fill : Option Scalar) :
    Moves (resize id length fill) w := by
  unfold Moves Action.after
  rw [resize_eq]
  split_ifs
  · exact comesTo_refl w
  · exact moves_changeOwned id _
  · exact moves_refuse id _

theorem comesTo_setArray (array : Nat) (a : Growable) : w.ComesTo (w.setArray array a) :=
  comesTo_of_eq rfl rfl rfl

theorem moves_swapWith (id array : Nat) : Moves (swapWith id array) w := by
  by_cases hk : (w.vec id).kind = (w.array array).kind
  · unfold Moves Action.after
    rw [swapWith_eq hk]
    refine (moves_own id).bind fun a w₁ => ?_
    have hheld : w₁.ComesTo (w₁.setHolding id (.owned (w₁.array array))) :=
      comesTo_setHolding id fun view region h => by cases h
    exact hheld.trans (comesTo_setArray array a)
  · unfold Moves
    rw [Action.after_error (swapWith_of_ne hk)]

theorem moves_clear (id : Nat) : Moves (clear id) w :=
  comesTo_setHolding id fun view region h => by cases h

theorem moves_shareView (id : Nat) : Moves (shareView id) w := by
  refine Moves.get_bind (Moves.ofExcept_bind fun view _ => ?_)
  have hserial : ∀ u, Moves (nextSerial >>= fun _ => (pure view : Action View)) u :=
    fun u => moves_nextSerial.bind fun _ _ => moves_pure view
  by_cases hm : (w.vec id).mode = .empty
  · rw [if_pos hm]
    exact (moves_alloc []).bind fun _ u => hserial u
  · rw [if_neg hm]
    exact hserial w

theorem moves_deliver (id vec : Nat) (view : View) (position : Nat) :
    Moves (deliver id vec view position) w := by
  refine Moves.get_bind ?_
  cases w.memory.elementAt? view position with
  | some x => exact comesTo_of_eq rfl rfl rfl
  | none => exact comesTo_of_eq rfl rfl rfl

theorem moves_next (id : Nat) : Moves (next id) w := by
  refine Moves.get_bind ?_
  cases w.iteration id with
  | finished vec => exact moves_pure _
  | running vec view position => exact moves_deliver id vec view position
  | fresh vec =>
    simp only
    cases w.viewOf (w.vec vec) with
    | ok view => exact moves_deliver id vec view 0
    | error e => exact comesTo_of_eq rfl rfl rfl

theorem moves_vecCommand (id : Nat) (c : VecCommand) : Moves (c.run id) w := by
  refine Moves.get_bind ?_
  cases c with
  | attach view region => exact (moves_attach id view region).map
  | item index => exact (moves_ask _).map
  | unchecked index => exact (moves_ask _).map
  | front => exact (moves_ask _).map
  | back => exact (moves_ask _).map
  | toList => exact (moves_ask _).map
  | share => exact (moves_shareView id).map
  | isView view => exact (moves_ask _).map
  | writable => exact (moves_writableView id).map
  | set index value => exact (moves_setAt id index value).map
  | push value => exact (moves_push id value).map
  | pop => exact (moves_pop id).map
  | resize length fill => exact (moves_resize id length fill).map
  | swap array => exact (moves_swapWith id array).map
  | clear => exact (moves_clear id).map
  | iterate => exact Moves.map (comesTo_of_eq rfl rfl rfl)

theorem moves_changeArray (id : Nat)
    (change : Memory → Growable → Except Fault (Growable × Memory)) :
    Moves (changeArray id change) w :=
  Moves.get_bind (Moves.ofExcept_bind fun _ _ => comesTo_of_eq rfl rfl rfl)

theorem moves_addArray (a : Growable) (m : Memory) : Moves (addArray a m) w := comesTo_of_eq rfl rfl rfl

theorem moves_reserve (id : Nat) (extra : Binary64) : Moves (reserve id extra) w := by
  refine Moves.get_bind (Moves.ofExcept_bind fun r _ => ?_)
  have hset : Moves (set ({ w with memory := r.2.2 }.setArray id r.2.1) : Action PUnit) w :=
    comesTo_of_eq rfl rfl rfl
  exact hset.bind fun _ _ => moves_pure r.1

theorem moves_pushArray (id : Nat) (value : Scalar) : Moves (pushArray id value) w :=
  (leads_pushArray trivial (Action.leads_of_after (moves_changeArray id _))
    (Action.leads_of_after (moves_reserve id 1))).after

theorem moves_resizeArray (id : Nat) (length : Binary64) (fill : Scalar) : Moves (resizeArray id length fill) w :=
  (leads_resizeArray trivial (Action.leads_of_after (moves_changeArray id _))
    (Action.leads_of_after (moves_reserve id _))).after

theorem moves_arrayCommand (id : Nat) (c : ArrayCommand) : Moves (c.run id) w := by
  cases c with
  | reserve extra => exact (moves_reserve id extra).map
  | push value => exact (moves_pushArray id value).map
  | pop => exact Moves.get_bind (Moves.map (comesTo_of_eq rfl rfl rfl))
  | resize length fill => exact (moves_resizeArray id length fill).map
  | share => exact Moves.map (comesTo_of_eq rfl rfl rfl)
  | clear => exact (moves_changeArray id _).map
  | release => exact (moves_changeArray id _).map
  | swap other =>
    exact Moves.map (Moves.get_bind (Moves.ofExcept_bind fun _ _ => comesTo_of_eq rfl rfl rfl))

theorem moves_newReader (source : ByteRange) : Moves (newReader source) w :=
  Relation.ReflTransGen.single (.reader source)

theorem moves_newBorrower (region : Nat) : Moves (newBorrower region) w :=
  Moves.get_bind (Moves.ofExcept_bind fun source hopen =>
    Relation.ReflTransGen.single (.borrower region source hopen))

theorem moves_scan (reader : Nat) (s : Scan α) : Moves (scan reader s) w := by
  unfold Moves
  cases h : s (w.bytes (w.reader reader).source) (w.reader reader).offset with
  | ok a offset =>
    rw [Action.after_ok (scan_ok h)]
    exact .single (.offset reader offset)
  | error e offset =>
    rw [Action.after_error (scan_error h)]
    exact .single (.offset reader offset)

theorem moves_passNext (reader : Nat) (n : Binary64) : Moves (passNext reader n) w := by
  refine (moves_scan reader _).bind fun start w₁ => Moves.get_bind ?_
  exact moves_pure _

/-- What reading fields takes is made of moves. -/
theorem comesTo_of_takes {source : ByteRange} (h : TakesFrom source w w') : w.ComesTo w' := by
  cases h with
  | offset reader offset => exact .single (.offset reader offset)
  | viewed => exact comesTo_of_eq rfl rfl rfl
  | made kind checked => exact comesTo_pushVec w.memory rfl
  | borrowed vec _ hopen =>
    refine comesTo_setHolding vec fun view region h => ?_
    cases h
    exact hopen
  | copied vec r => exact comesTo_withOwned vec _ _ _
  | shared vec => exact comesTo_withOwned vec _ _ _

theorem moves_readField (reader vec : Nat) (stride : Binary64) (policy : ReadPolicy) :
    Moves (readField reader vec stride policy) w :=
  (taking_readField (fun _ _ => comesTo_of_takes) vec stride policy rfl).after

theorem moves_decodeField (reader : Nat) (policy : Bundle.Policy) :
    Moves (Bundle.decodeField reader policy) w :=
  (taking_decodeField (fun _ _ => comesTo_of_takes) policy rfl).after

theorem moves_decode (reader : Nat) (policy : Bundle.Policy) :
    Moves (Bundle.decode reader policy) w :=
  (taking_decode (fun _ _ => comesTo_of_takes) policy rfl).after

theorem moves_decodeCopy (source : ByteRange) (policy : Bundle.Policy) :
    Moves (Bundle.decodeCopy source policy) w := by
  exact (moves_newReader source).bind fun reader _ => moves_decode reader policy

theorem moves_readerCommand (id : Nat) (c : ReaderCommand) : Moves (c.run id) w := by
  cases c with
  | u32 => exact (moves_scan id _).map
  | i32 => exact (moves_scan id _).map
  | u64 => exact (moves_scan id _).map
  | copy n => exact Moves.map ((moves_passNext id n).bind fun r w₁ => moves_slice r)
  | borrow n =>
    refine Moves.bind ?_ fun _ _ => moves_pure _
    refine (moves_passNext id n).bind fun r w₁ => Moves.get_bind ?_
    exact moves_pure _
  | align n => exact (moves_scan id _).map
  | field vec stride policy => exact (moves_readField id vec stride policy).map
  | bundle policy => exact (moves_decode id policy).map

theorem moves_changeWriter (id : Nat) (change : World → Writer → Except Fault Writer) :
    Moves (changeWriter id change) w :=
  Moves.get_bind (Moves.ofExcept_bind fun _ _ => comesTo_of_eq rfl rfl rfl)

theorem moves_writerCommand (id : Nat) (c : WriterCommand) : Moves (c.run id) w := by
  cases c with
  | word32 value => exact (moves_changeWriter id _).map
  | word64 value => exact (moves_changeWriter id _).map
  | bytes range => exact (moves_changeWriter id _).map
  | align n => exact (moves_changeWriter id _).map
  | field vec stride => exact (moves_changeWriter id _).map
  | join =>
    refine Moves.map (Moves.get_bind ?_)
    exact moves_alloc _

theorem moves_fetch (store : Nat) (path : Text) : Moves (fetch store path) w :=
  (leads_fetch comesTo_alloc store path).after

theorem moves_lendFile (store : Nat) (path : Text) : Moves (lendFile store path) w :=
  (moves_fetch store path).bind fun r _ => moves_lend r path

theorem moves_openInPlace (store : Nat) (path : Text) (policy : Bundle.Policy) :
    Moves (openInPlace store path policy) w := by
  refine (moves_lendFile store path).bind fun region w₁ => ?_
  refine (moves_newBorrower region).bind fun reader w₂ => ?_
  exact (moves_decode reader policy).map

theorem moves_storeCommand (id : Nat) (c : StoreCommand) : Moves (c.run id) w :=
  (leads_storeCommand comesTo_alloc (fun _ _ => comesTo_of_eq rfl rfl rfl) c
    (fun path => Action.leads_of_after (moves_lendFile id path))
    fun path policy _ => Action.leads_of_after (moves_openInPlace id path policy)).after

theorem Moves.demand_bind {admitted : Bool} {f : Unit → Action β} (h : Moves (f ()) w) :
    Moves (Action.demand admitted >>= f) w := by
  cases admitted with
  | true => exact h
  | false => exact comesTo_refl w

theorem moves_setElement (v : View) (index : Binary64) (value : Scalar) : Moves (setElement v index value) w :=
  Moves.demand_bind (comesTo_of_eq rfl rfl rfl)

/-- Every command but closing a region is made of moves. -/
theorem moves_command {c : Command} (hc : ∀ region, c ≠ .close region) : Moves c.run w := by
  cases c with
  | close region => exact (hc region rfl).elim
  | alloc contents => exact (moves_alloc contents).map
  | duplicate range => exact Moves.get_bind (moves_alloc (w.bytes range)).map
  | poke range index value => exact (moves_setElement _ index value).map
  | view kind buffer offset length => exact (moves_view kind buffer offset length).map
  | setElement v index value => exact (moves_setElement v index value).map
  | lend range label => exact (moves_lend range label).map
  | lentBytes region => exact (moves_ask _).map
  | newVec kind checked => exact (moves_newVec kind checked).map
  | vecOfList kind values checked =>
    exact Moves.map (Moves.demand_bind (Moves.get_bind (moves_addVec _ _ checked)))
  | vecOfView kind v checked =>
    exact Moves.map (Moves.demand_bind (Moves.get_bind (moves_addVec _ _ checked)))
  | vec id c => exact moves_vecCommand id c
  | next iteration => exact Moves.get_bind (moves_next iteration).map
  | newArray kind length fill =>
    refine Moves.map (Moves.get_bind (Moves.ofExcept_bind fun r _ => ?_))
    exact moves_addArray r.1 r.2
  | arrayOfList kind values => exact Moves.map (Moves.demand_bind (Moves.get_bind (moves_addArray _ _)))
  | arrayOfView kind v => exact Moves.map (Moves.demand_bind (Moves.get_bind (moves_addArray _ _)))
  | array id c => exact moves_arrayCommand id c
  | newReader source => exact (moves_newReader source).map
  | newBorrower region => exact (moves_newBorrower region).map
  | reader id c => exact moves_readerCommand id c
  | newWriter => exact Moves.map (comesTo_of_eq rfl rfl rfl)
  | writer id c => exact moves_writerCommand id c
  | encode fields => exact (moves_ask _).bind fun contents _ => (moves_alloc contents).map
  | decodeCopy source policy => exact (moves_decodeCopy source policy).map
  | newMemory files =>
    exact Moves.map (leads_newMemory comesTo_alloc (fun _ _ => comesTo_of_eq rfl rfl rfl) files).after
  | newDisk disk => exact Moves.map (comesTo_of_eq rfl rfl rfl)
  | store id c => exact moves_storeCommand id c

/-- What every move keeps, and closing a region, is kept by every history. -/
theorem performAll_of_moves {I : World → Prop} (hmove : ∀ w w', Move w w' → I w → I w')
    (hclose : ∀ w region, I w → I ((close region).after w)) (history : List Command) (h : I w) :
    I (w.performAll history).2 := by
  induction history generalizing w with
  | nil => exact h
  | cons c rest ih =>
    change I ((w.perform c).2.performAll rest).2
    refine ih ?_
    rw [perform_snd]
    by_cases hc : ∃ region, c = .close region
    · obtain ⟨region, rfl⟩ := hc
      have hafter : (Command.close region).run.after w = (close region).after w :=
        Action.after_done _ w
      rw [hafter]
      exact hclose w region h
    · have hmoves : Moves c.run w := moves_command fun region hr => hc ⟨region, hr⟩
      exact hmoves.keep hmove h

end LeaseVec.World
