import LeaseVec.Proofs.World.Stores
import Mathlib.Order.Nat

/-!
# Commands that report nothing

Only a change of a borrowed vector reports a promotion. Every other command, however it ends, leaves the list of
promotions and all vectors but the one that it names as they are; it may add vectors behind them.
-/

namespace LeaseVec

open Number

/-- The calls of a vector that need it to own its elements. -/
def VecCommand.mutates : VecCommand → Bool
  | writable | set _ _ | push _ | pop | resize _ _ | swap _ => true
  | _ => false

/-- The vector that a command may give something else to hold. -/
def Command.subject? : Command → Option Nat
  | vec id (.attach _ _) => some id
  | vec id .clear => some id
  | vec id c => if c.mutates then some id else none
  | reader _ (.field id _ _) => some id
  | _ => none

/-- A command is a change of a vector. -/
def Command.mutates : Command → Bool
  | vec _ c => c.mutates
  | _ => false

namespace World

open LeaseVec.Action

/-- Nothing has been reported, and of the vectors in question none is different. -/
structure Quiet (spared : Nat → Prop) (w w' : World) : Prop where
  promotions : w'.promotions = w.promotions
  size_le : w.vecs.size ≤ w'.vecs.size
  vec : ∀ id, spared id → w'.vec id = w.vec id

variable {α β : Type} {spared : Nat → Prop} {w w' : World}

instance : Std.Refl (Quiet spared) := ⟨fun _ => ⟨rfl, le_rfl, fun _ _ => rfl⟩⟩

instance : IsTrans World (Quiet spared) := ⟨fun _ _ _ h h' =>
  ⟨h'.promotions.trans h.promotions, h.size_le.trans h'.size_le,
    fun id hid => (h'.vec id hid).trans (h.vec id hid)⟩⟩

theorem quiet_of_eq (hp : w'.promotions = w.promotions) (hv : w'.vecs = w.vecs) : w.Quiet spared w' where
  promotions := hp
  size_le := by rw [hv]
  vec := by
    intro id _
    unfold World.vec
    rw [hv]

theorem quiet_alloc (w : World) (contents : Bytes) :
    w.Quiet spared { w with memory := (w.memory.alloc contents).2 } := quiet_of_eq rfl rfl

/-- However a step ends, it has been quiet. -/
abbrev Quietly (spared : Nat → Prop) (x : Action α) (w : World) : Prop :=
  Leads (Quiet spared) (fun _ => True) x w fun _ _ => True

theorem Quietly.bind {x : Action α} {f : α → Action β} (hx : Quietly spared x w)
    (hf : ∀ a w', w.vecs.size ≤ w'.vecs.size → Quietly spared (f a) w') : Quietly spared (x >>= f) w :=
  Leads.bind hx fun a w' hr _ => hf a w' hr.size_le

theorem Quietly.ofExcept_bind {e : Except Fault α} {f : α → Action β}
    (h : ∀ a, Quietly spared (f a) w) : Quietly spared (Action.ofExcept e >>= f) w :=
  Leads.ofExcept_bind (fun _ _ => trivial) fun a _ => h a

theorem quietly_pure (a : α) : Quietly spared (pure a) w := leads_pure trivial

theorem quietly_of_eq {x : Action α} (hp : (x.after w).promotions = w.promotions)
    (hv : (x.after w).vecs = w.vecs) : Quietly spared x w := leads_of_after (quiet_of_eq hp hv)

theorem quietly_ask (question : World → Except Fault α) : Quietly spared (ask question) w := by
  apply leads_of_after
  rw [after_ask]
  exact refl_of (Quiet spared) w

/-- Making a view changes memory at most. -/
theorem view_cases (w : World) (kind : Kind) (buffer : Nat) (offset : Binary64) (length : Option Binary64) :
    (∃ v m, view kind buffer offset length w = .ok v { w with memory := m }) ∨
      ∃ e, view kind buffer offset length w = .error e w := by
  unfold view
  cases w.memory.view? kind buffer offset length with
  | ok r => exact Or.inl ⟨r.1, r.2, rfl⟩
  | error e => exact Or.inr ⟨e, rfl⟩

theorem quietly_view (kind : Kind) (buffer : Nat) (offset : Binary64) (length : Option Binary64) :
    Quietly spared (view kind buffer offset length) w := by
  rcases view_cases w kind buffer offset length with ⟨v, m, h⟩ | ⟨e, h⟩
  · exact leads_of_ok h (quiet_of_eq rfl rfl) trivial
  · exact leads_of_error h (quiet_of_eq rfl rfl) trivial

theorem quietly_lend (r : ByteRange) (label : Text) : Quietly spared (lend r label) w := by
  rcases lend_cases w r label with ⟨-, h⟩ | ⟨-, h⟩
  · exact leads_of_ok h (quiet_of_eq rfl rfl) trivial
  · exact leads_of_ok h (quiet_of_eq rfl rfl) trivial

theorem quietly_scan (reader : Nat) (s : Scan α) : Quietly spared (scan reader s) w := by
  cases h : s (w.bytes (w.reader reader).source) (w.reader reader).offset with
  | ok a offset => exact leads_of_ok (scan_ok h) (quiet_of_eq rfl rfl) trivial
  | error e offset => exact leads_of_error (scan_error h) (quiet_of_eq rfl rfl) trivial

theorem quietly_passNext (reader : Nat) (n : Binary64) : Quietly spared (passNext reader n) w := by
  refine (quietly_scan reader _).bind fun start w₁ _ => Leads.get_bind ?_
  exact quietly_pure _

theorem quietly_newBorrower (region : Nat) : Quietly spared (newBorrower region) w :=
  Leads.get_bind (Quietly.ofExcept_bind fun _ => quietly_of_eq rfl rfl)

theorem quiet_setHolding {id : Nat} {h : Holding} {m : Memory} (hid : ¬ spared id) :
    w.Quiet spared ({ w with memory := m }.setHolding id h) where
  promotions := rfl
  size_le := (size_vecs_setHolding ..).ge
  vec := by
    intro j hj
    have hne : j ≠ id := by
      rintro rfl
      exact hid hj
    exact vec_setHolding_of_ne { w with memory := m } id h hne

/-- A new vector comes behind the ones that are there. -/
theorem quiet_pushVec {v : Vec} {m : Memory} (hs : ∀ id, spared id → id < w.vecs.size) :
    w.Quiet spared { w with vecs := w.vecs.push v, memory := m } where
  promotions := rfl
  size_le := by
    change w.vecs.size ≤ (w.vecs.push v).size
    rw [Array.size_push]
    omega
  vec := by
    intro id hid
    have hlt := hs id hid
    change ({ w with vecs := w.vecs.push v } : World).vec id = _
    rw [vec_push, if_neg (by omega)]

theorem quietly_attach {id : Nat} (view : View) (region : Nat) (hid : ¬ spared id) :
    Quietly spared (attach id view region) w := by
  apply leads_of_after
  unfold Action.after
  rw [attach_eq]
  split_ifs
  · exact refl_of (Quiet spared) w
  · exact quiet_setHolding (m := w.memory) hid
  · exact refl_of (Quiet spared) w

theorem quietly_adoptCopy {vec : Nat} (r : ByteRange) (hid : ¬ spared vec) :
    Quietly spared (adoptCopy vec r) w := by
  have hadopting := w.adopting_adoptCopy vec r
  unfold Quietly Leads
  generalize adoptCopy vec r w = result at hadopting
  cases hadopting with
  | copied => exact ⟨quiet_setHolding hid, trivial⟩
  | shared => exact ⟨quiet_setHolding (m := w.memory) hid, trivial⟩
  | refused => exact ⟨refl_of (Quiet spared) w, trivial⟩

theorem quietly_takeElements {vec : Nat} (r : ByteRange) (lender : Option Nat) (inPlace : Bool)
    (hid : ¬ spared vec) : Quietly spared (takeElements vec r lender inPlace) w := by
  unfold takeElements
  apply Leads.get_bind
  cases lender with
  | none => exact quietly_adoptCopy r hid
  | some region =>
    simp only
    split_ifs
    · exact (quietly_view ..).bind fun view w₁ _ => quietly_attach view region hid
    · exact quietly_adoptCopy r hid

theorem quietly_readField (reader : Nat) {vec : Nat} (stride : Binary64) (policy : ReadPolicy)
    (hid : ¬ spared vec) : Quietly spared (readField reader vec stride policy) w := by
  refine Quietly.ofExcept_bind fun s => Leads.get_bind ?_
  refine (quietly_scan reader _).bind fun found w₁ _ => Leads.get_bind ?_
  refine (quietly_takeElements _ _ _ hid).bind fun _ w₂ _ => Leads.get_bind ?_
  exact quietly_pure _

theorem quietly_shareView (id : Nat) : Quietly spared (shareView id) w := by
  refine Leads.get_bind (Quietly.ofExcept_bind fun view => ?_)
  have hserial : ∀ u, Quietly spared (nextSerial >>= fun _ => (pure view : Action View)) u :=
    fun u => quietly_of_eq rfl rfl
  by_cases hm : (w.vec id).mode = .empty
  · rw [if_pos hm]
    exact Quietly.bind (quietly_of_eq rfl rfl) fun _ u _ => hserial u
  · rw [if_neg hm]
    exact hserial w

theorem quietly_deliver (it vec : Nat) (view : View) (position : Nat) :
    Quietly spared (deliver it vec view position) w := by
  apply Leads.get_bind
  cases w.memory.elementAt? view position with
  | some x => exact quietly_of_eq rfl rfl
  | none => exact quietly_of_eq rfl rfl

theorem quietly_next (it : Nat) : Quietly spared (next it) w := by
  apply Leads.get_bind
  cases w.iteration it with
  | finished vec => exact quietly_pure _
  | running vec view position => exact quietly_deliver it vec view position
  | fresh vec =>
    simp only
    cases w.viewOf (w.vec vec) with
    | ok view => exact quietly_deliver it vec view 0
    | error e => exact quietly_of_eq rfl rfl

/-- Every call of a vector that does not need it to own its elements. -/
theorem quietly_vecCommand {id : Nat} {c : VecCommand} (hc : c.mutates = false)
    (hid : (Command.vec id c).subject? = some id → ¬ spared id) : Quietly spared (c.run id) w := by
  apply Leads.get_bind
  cases c with
  | attach view region => exact (quietly_attach view region (hid rfl)).map
  | clear => exact Leads.map (leads_of_after (quiet_setHolding (m := w.memory) (hid rfl)))
  | item index => exact (quietly_ask _).map
  | unchecked index => exact (quietly_ask _).map
  | front => exact (quietly_ask _).map
  | back => exact (quietly_ask _).map
  | toList => exact (quietly_ask _).map
  | share => exact (quietly_shareView id).map
  | isView view => exact (quietly_ask _).map
  | iterate => exact Leads.map (quietly_of_eq rfl rfl)
  | _ => cases hc

/-- A field is decoded into a vector of its own. -/
theorem quietly_decodeField (reader : Nat) (policy : Bundle.Policy)
    (hs : ∀ id, spared id → id < w.vecs.size) : Quietly spared (Bundle.decodeField reader policy) w := by
  refine (quietly_scan reader _).bind fun head w₁ h₁ => ?_
  have hlt : ∀ id, spared id → id < w₁.vecs.size := fun id hid => (hs id hid).trans_le h₁
  have hnew : Leads (Quiet spared) (fun _ => True) (newVec head.kind policy.checked) w₁
      fun vec _ => ¬ spared vec :=
    leads_of_ok rfl (quiet_pushVec (m := w₁.memory) hlt) fun hvec => (hlt _ hvec).false
  exact Leads.bind hnew fun vec w₂ _ hvec => (quietly_readField reader _ _ hvec).map

theorem quietly_decodeFields (reader : Nat) (policy : Bundle.Policy) (count : Nat)
    (hs : ∀ id, spared id → id < w.vecs.size) :
    Quietly spared (Bundle.decodeFields reader policy count) w := by
  induction count generalizing w with
  | zero => exact quietly_pure []
  | succ count ih =>
    refine (quietly_decodeField reader policy hs).bind fun field w₁ h₁ => ?_
    exact Leads.map (ih fun id hid => (hs id hid).trans_le h₁)

theorem quietly_decode (reader : Nat) (policy : Bundle.Policy)
    (hs : ∀ id, spared id → id < w.vecs.size) : Quietly spared (Bundle.decode reader policy) w :=
  (quietly_scan reader _).bind fun count _ h₁ =>
    quietly_decodeFields reader policy count fun id hid => (hs id hid).trans_le h₁

theorem quietly_readerCommand {reader : Nat} {c : ReaderCommand}
    (hs : ∀ id, spared id → id < w.vecs.size ∧ (Command.reader reader c).subject? ≠ some id) :
    Quietly spared (c.run reader) w := by
  cases c with
  | u32 => exact (quietly_scan reader _).map
  | i32 => exact (quietly_scan reader _).map
  | u64 => exact (quietly_scan reader _).map
  | copy n =>
    exact Leads.map ((quietly_passNext reader n).bind fun r w₁ _ => leads_slice quiet_alloc r)
  | borrow n =>
    refine Quietly.bind ?_ fun _ _ _ => quietly_pure _
    refine (quietly_passNext reader n).bind fun r w₁ _ => Leads.get_bind ?_
    exact quietly_pure _
  | align n => exact (quietly_scan reader _).map
  | field vec stride policy =>
    exact (quietly_readField reader stride policy fun hvec => (hs vec hvec).2 rfl).map
  | bundle policy => exact (quietly_decode reader policy fun id hid => (hs id hid).1).map

theorem quietly_changeArray (id : Nat) (change : Memory → Growable → Except Fault (Growable × Memory)) :
    Quietly spared (changeArray id change) w :=
  Leads.get_bind (Quietly.ofExcept_bind fun _ => quietly_of_eq rfl rfl)

theorem quietly_reserve (id : Nat) (extra : Binary64) : Quietly spared (reserve id extra) w :=
  Leads.get_bind (Quietly.ofExcept_bind fun _ => quietly_of_eq rfl rfl)

theorem quietly_arrayCommand (id : Nat) (c : ArrayCommand) : Quietly spared (c.run id) w := by
  cases c with
  | reserve extra => exact (quietly_reserve id extra).map
  | push value => exact (leads_pushArray trivial (quietly_changeArray id _) (quietly_reserve id 1)).map
  | pop => exact Leads.get_bind (Leads.map (quietly_of_eq rfl rfl))
  | resize length fill =>
    exact (leads_resizeArray trivial (quietly_changeArray id _) (quietly_reserve id _)).map
  | share => exact Leads.map (quietly_of_eq rfl rfl)
  | clear => exact (quietly_changeArray id _).map
  | release => exact (quietly_changeArray id _).map
  | swap other => exact Leads.map (Leads.get_bind (Quietly.ofExcept_bind fun _ => quietly_of_eq rfl rfl))

theorem quietly_changeWriter (id : Nat) (change : World → Writer → Except Fault Writer) :
    Quietly spared (changeWriter id change) w :=
  Leads.get_bind (Quietly.ofExcept_bind fun _ => quietly_of_eq rfl rfl)

theorem quietly_writerCommand (id : Nat) (c : WriterCommand) : Quietly spared (c.run id) w := by
  cases c with
  | word32 value => exact (quietly_changeWriter id _).map
  | word64 value => exact (quietly_changeWriter id _).map
  | bytes range => exact (quietly_changeWriter id _).map
  | align n => exact (quietly_changeWriter id _).map
  | field vec stride => exact (quietly_changeWriter id _).map
  | join => exact Leads.map (quietly_of_eq rfl rfl)

theorem quietly_lendFile (store : Nat) (path : Text) : Quietly spared (lendFile store path) w :=
  (leads_fetch quiet_alloc store path).bind fun r _ _ _ => quietly_lend r path

theorem quietly_openInPlace (store : Nat) (path : Text) (policy : Bundle.Policy)
    (hs : ∀ id, spared id → id < w.vecs.size) : Quietly spared (openInPlace store path policy) w := by
  refine (quietly_lendFile store path).bind fun region w₁ h₁ => ?_
  refine (quietly_newBorrower region).bind fun reader w₂ h₂ => ?_
  exact (quietly_decode reader policy fun j hj => ((hs j hj).trans_le h₁).trans_le h₂).map

theorem quietly_storeCommand (id : Nat) (c : StoreCommand) (hs : ∀ id, spared id → id < w.vecs.size) :
    Quietly spared (c.run id) w :=
  leads_storeCommand quiet_alloc (fun _ _ => quiet_of_eq rfl rfl) c (quietly_lendFile id)
    fun path policy _ => quietly_openInPlace id path policy hs

theorem quietly_setElement (v : View) (index : Binary64) (value : Scalar) :
    Quietly spared (setElement v index value) w :=
  Leads.demand_bind trivial fun _ => quietly_of_eq rfl rfl

/-- Every command that is not a change of a vector. -/
theorem quietly_command {c : Command} (hc : c.mutates = false)
    (hs : ∀ id, spared id → id < w.vecs.size ∧ c.subject? ≠ some id) : Quietly spared c.run w := by
  have hlt : ∀ id, spared id → id < w.vecs.size := fun id hid => (hs id hid).1
  cases c with
  | alloc contents => exact Leads.map (quietly_of_eq rfl rfl)
  | duplicate range => exact Leads.get_bind (Leads.map (quietly_of_eq rfl rfl))
  | poke range index value => exact (quietly_setElement _ index value).map
  | view kind buffer offset length => exact (quietly_view kind buffer offset length).map
  | setElement v index value => exact (quietly_setElement v index value).map
  | lend range label => exact (quietly_lend range label).map
  | lentBytes region => exact (quietly_ask _).map
  | close region => exact Leads.map (quietly_of_eq rfl rfl)
  | newVec kind checked => exact Leads.map (leads_of_after (quiet_pushVec (m := w.memory) hlt))
  | vecOfList kind values checked =>
    refine Leads.map (p := fun _ _ => True) (Leads.demand_bind trivial fun _ => Leads.get_bind ?_)
    exact leads_of_after (quiet_pushVec hlt)
  | vecOfView kind v checked =>
    refine Leads.map (p := fun _ _ => True) (Leads.demand_bind trivial fun _ => Leads.get_bind ?_)
    exact leads_of_after (quiet_pushVec hlt)
  | vec id c => exact quietly_vecCommand hc fun hsub hid => (hs id hid).2 hsub
  | next iteration => exact Leads.get_bind (quietly_next iteration).map
  | newArray kind length fill =>
    exact Leads.map (Leads.get_bind (Quietly.ofExcept_bind fun _ => quietly_of_eq rfl rfl))
  | arrayOfList kind values =>
    exact Leads.map (p := fun _ _ => True)
      (Leads.demand_bind trivial fun _ => Leads.get_bind (quietly_of_eq rfl rfl))
  | arrayOfView kind v =>
    exact Leads.map (p := fun _ _ => True)
      (Leads.demand_bind trivial fun _ => Leads.get_bind (quietly_of_eq rfl rfl))
  | array id c => exact quietly_arrayCommand id c
  | newReader source => exact Leads.map (quietly_of_eq rfl rfl)
  | newBorrower region => exact (quietly_newBorrower region).map
  | reader id c => exact quietly_readerCommand hs
  | newWriter => exact Leads.map (quietly_of_eq rfl rfl)
  | writer id c => exact quietly_writerCommand id c
  | encode fields => exact (quietly_ask _).bind fun _ _ _ => Leads.map (quietly_of_eq rfl rfl)
  | decodeCopy source policy =>
    have hreader : Quietly spared (newReader source) w := quietly_of_eq rfl rfl
    refine Leads.map (hreader.bind fun reader w₁ h₁ => ?_)
    exact quietly_decode reader policy fun id hid => (hlt id hid).trans_le h₁
  | newMemory files => exact (leads_newMemory quiet_alloc (fun _ _ => quiet_of_eq rfl rfl) files).map
  | newDisk disk => exact Leads.map (quietly_of_eq rfl rfl)
  | store id c => exact quietly_storeCommand id c hlt

/-- A command that is not a change of a vector reports nothing, and of the vectors that were there only the one
that it names may be different. -/
theorem quiet_perform (w : World) {c : Command} (hc : c.mutates = false) :
    w.Quiet (fun id => id < w.vecs.size ∧ c.subject? ≠ some id) (w.perform c).2 := by
  rw [perform_snd]
  exact (quietly_command hc fun _ hid => hid).after

end World

end LeaseVec
