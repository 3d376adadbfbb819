import LeaseVec.Proofs.Lifetime.Walks
import LeaseVec.Proofs.Ownership.Isolation
import LeaseVec.Proofs.Ownership.Quiet
import LeaseVec.Proofs.World.Takings

/-!
# What a command can write

A command writes where its caller says, or it is a change of a vector or an array and writes the storage of
these. Everything else that a command does with memory is to add to it, and what storage it hands out was in the
hands of those that it changes, or is new, or belongs to bytes that share and are read for fields. This asks
nothing about who shares which bytes, so it is known of every history whose commands name what is there.
-/

namespace LeaseVec

open Number

/-- The vectors and arrays that a change of an array and an exchange name are there. -/
def Command.Named (w : World) : Command → Prop
  | vec id (.swap other) => id < w.vecs.size ∧ other < w.arrays.size
  | array id (.swap other) => id < w.arrays.size ∧ other < w.arrays.size
  | array id _ => id < w.arrays.size
  | _ => True

/-- Whose storage a command may write and hand on. -/
def Command.owners : Command → Owner → Prop
  | vec id c, o => c.mutates = true ∧ (o = .vec id ∨ c.partner? = some o)
  | array id (.swap other), o => o = .array id ∨ o = .array other
  | array id _, o => o = .array id
  | _, _ => False

theorem Command.owners_array (id : Nat) (c : ArrayCommand) : (Command.array id c).owners (.array id) := by
  cases c with
  | swap other => exact Or.inl rfl
  | _ => exact rfl

/-- The buffer that a command writes on its caller's account. -/
def Command.target? : Command → Option Nat
  | poke range _ _ => some range.buffer
  | setElement v _ _ => some v.buffer
  | _ => none

namespace World

open LeaseVec.Action

/-- All storage is in buffers that exist. -/
def Stored (w : World) : Prop := ∀ o a, w.storage? o = some a → a.buffer < w.memory.buffers.size

/-- A buffer is the storage of one of these owners. -/
def InHands (w : World) (owners : Owner → Prop) (b : Nat) : Prop :=
  ∃ o a, owners o ∧ w.storage? o = some a ∧ a.buffer = b

/-- A buffer is aimed at, or it is in the hands of these owners, or it may be adopted. -/
inductive Open (w : World) (owners : Owner → Prop) (target : Option Nat) (adopted : Nat → Prop) (b : Nat) : Prop where
  | aimed (h : target = some b)
  | inHands (h : w.InHands owners b)
  | adopted (h : adopted b)

/-- At most the storage of these owners, the buffer that is aimed at and those that may be adopted have been
written. What is anybody's storage now was so before, or it was in the hands of these owners and still is, or it
has been adopted, or it is new. -/
structure Touches (owners : Owner → Prop) (target : Option Nat) (adopted : Nat → Prop) (w w' : World) : Prop where
  size_le : w.memory.buffers.size ≤ w'.memory.buffers.size
  frame : w.memory.Frame (w.Open owners target adopted) w'.memory
  storage : ∀ o a, w'.storage? o = some a → w.storage? o = some a ∨
    (owners o ∧ w.InHands owners a.buffer ∨ adopted a.buffer) ∨ w.memory.buffers.size ≤ a.buffer
  stored : (∀ b, adopted b → b < w.memory.buffers.size) → w.Stored → w'.Stored

variable {α β : Type} {owners : Owner → Prop} {target : Option Nat} {adopted : Nat → Prop} {w w' : World}

/-- A buffer that was there is in these hands only if it was so before, or has been adopted. -/
theorem Touches.inHands (h : w.Touches owners target adopted w') {b : Nat} (hlt : b < w.memory.buffers.size)
    (hb : w'.InHands owners b) : w.InHands owners b ∨ adopted b := by
  obtain ⟨o, a, ho, ha, rfl⟩ := hb
  rcases h.storage o a ha with hold | (⟨-, hheld⟩ | hadopted) | hnew
  · exact Or.inl ⟨o, a, ho, hold, rfl⟩
  · exact Or.inl hheld
  · exact Or.inr hadopted
  · omega

theorem Touches.trans {w'' : World} (h : w.Touches owners target adopted w')
    (h' : w'.Touches owners target adopted w'') : w.Touches owners target adopted w'' where
  size_le := h.size_le.trans h'.size_le
  frame := by
    intro b hb hnot
    have hnot' : ¬ w'.Open owners target adopted b := by
      rintro (haimed | hheld | hadopted)
      · exact hnot (.aimed haimed)
      · exact (h.inHands hb hheld).elim (fun hold => hnot (.inHands hold)) fun ha => hnot (.adopted ha)
      · exact hnot (.adopted hadopted)
    exact (h'.frame b (hb.trans_le h.size_le) hnot').trans (h.frame b hb hnot)
  storage := by
    intro o a ha
    rcases h'.storage o a ha with hold | (⟨ho, hheld⟩ | hadopted) | hnew
    · exact h.storage o a hold
    · rcases Nat.lt_or_ge a.buffer w.memory.buffers.size with hlt | hge
      · exact Or.inr (Or.inl ((h.inHands hlt hheld).imp_left fun hold => ⟨ho, hold⟩))
      · exact Or.inr (Or.inr hge)
    · exact Or.inr (Or.inl (Or.inr hadopted))
    · exact Or.inr (Or.inr (h.size_le.trans hnew))
  stored ha hs := h'.stored (fun b hb => (ha b hb).trans_le h.size_le) (h.stored ha hs)

/-- Memory has been added to, and new storage is in what was added. -/
theorem touches_of_added (hsize : w.memory.buffers.size ≤ w'.memory.buffers.size)
    (hframe : w.memory.Frame (fun _ => False) w'.memory)
    (hs : ∀ o a, w'.storage? o = some a → w.storage? o = some a ∨
      w.memory.buffers.size ≤ a.buffer ∧ a.buffer < w'.memory.buffers.size) : w.Touches owners target adopted w' where
  size_le := hsize
  frame := hframe.mono fun _ _ h => h.elim
  storage o a ha := (hs o a ha).imp_right fun hnew => Or.inr hnew.1
  stored _ h o a ha := by
    rcases hs o a ha with hold | ⟨-, hlt⟩
    · exact (h o a hold).trans_le hsize
    · exact hlt

/-- Memory has been added to, and vectors and arrays are as they were. -/
theorem touches_of_eq (hsize : w.memory.buffers.size ≤ w'.memory.buffers.size)
    (hframe : w.memory.Frame (fun _ => False) w'.memory) (hv : w'.vecs = w.vecs) (ha : w'.arrays = w.arrays) :
    w.Touches owners target adopted w' :=
  touches_of_added hsize hframe fun o _ h => Or.inl ((storage?_congr hv ha o).symm.trans h)

instance : Std.Refl (Touches owners target adopted) := ⟨fun _ => touches_of_eq le_rfl (Memory.Frame.refl _ _) rfl rfl⟩

instance : IsTrans World (Touches owners target adopted) := ⟨fun _ _ _ h h' => h.trans h'⟩

theorem touches_alloc (w : World) (contents : Bytes) :
    w.Touches owners target adopted { w with memory := (w.memory.alloc contents).2 } :=
  touches_of_eq (Memory.grows_alloc w.memory contents).size_le (Memory.frame_alloc _ w.memory contents) rfl rfl

/-- A vector gets something else to hold, but no storage. -/
theorem touches_setHolding (id : Nat) {h : Holding} (hh : ∀ a, h ≠ .owned a) :
    w.Touches owners target adopted (w.setHolding id h) := by
  refine touches_of_added le_rfl (Memory.Frame.refl _ _) fun o a ha => Or.inl ?_
  rcases storage?_setHolding ha with ⟨-, he⟩ | ⟨-, hold⟩
  · exact absurd he (hh a)
  · exact hold

/-- A new owner with storage of its own. -/
theorem touches_fresh {p : Owner} {a : Growable} (h : w.Places w' p a)
    (hf : Growable.Fresh w.memory w'.memory a) : w.Touches owners target adopted w' := by
  refine touches_of_added hf.grows.size_le hf.frame fun o b hb => ?_
  rcases h.others o b hb with ⟨-, rfl⟩ | ⟨-, hold⟩
  · exact Or.inr ⟨hf.size_le, hf.buffer_lt⟩
  · exact Or.inl hold

/-- One of the owners has storage that is meant for it. -/
theorem touches_places {p : Owner} {a : Growable} (h : w.Places w' p a) (hp : owners p)
    (hs : w.Stored → w'.Stored) : w.Touches owners target adopted w' where
  size_le := h.renews.grows.size_le
  frame := h.renews.frame.mono fun _ _ ⟨c, hc, he⟩ => .inHands ⟨p, c, hp, hc, he⟩
  storage o b hb := by
    rcases h.others o b hb with ⟨rfl, rfl⟩ | ⟨-, hold⟩
    · rcases h.renews.buffer_cases with ⟨c, hc, he⟩ | hnew
      · exact Or.inr (Or.inl (Or.inl ⟨hp, o, c, hp, hc, he.symm⟩))
      · exact Or.inr (Or.inr hnew)
    · exact Or.inl hold
  stored _ := hs

/-- Two of the owners exchange their storage. -/
theorem touches_exchanges {p q : Owner} (h : w.Exchanges w' p q) (hp : owners p) (hq : owners q) :
    w.Touches owners target adopted w' where
  size_le := by rw [h.memory_eq]
  frame := by
    rw [h.memory_eq]
    exact Memory.Frame.refl _ _
  storage o a ha := by
    by_cases hop : o = p
    · subst hop
      exact Or.inr (Or.inl (Or.inl ⟨hp, q, a, hq, h.first a ha, rfl⟩))
    · by_cases hoq : o = q
      · subst hoq
        exact Or.inr (Or.inl (Or.inl ⟨hq, p, a, hp, h.second a ha, rfl⟩))
      · exact Or.inl (h.others o a hop hoq ha)
  stored _ hs o a ha := by
    rw [h.memory_eq]
    exact hs _ a (h.storage?_eq ha)

/-- However a step ends, it has touched no more than that. -/
abbrev Touching (owners : Owner → Prop) (target : Option Nat) (adopted : Nat → Prop) (x : Action α) (w : World) :
    Prop :=
  Leads (Touches owners target adopted) (fun _ => True) x w fun _ _ => True

theorem Touching.bind {x : Action α} {f : α → Action β} (hx : Touching owners target adopted x w)
    (hf : ∀ a w', Touching owners target adopted (f a) w') : Touching owners target adopted (x >>= f) w :=
  Leads.bind hx fun a w' _ _ => hf a w'

theorem Touching.ofExcept_bind {e : Except Fault α} {f : α → Action β}
    (h : ∀ a, e = .ok a → Touching owners target adopted (f a) w) :
    Touching owners target adopted (Action.ofExcept e >>= f) w :=
  Leads.ofExcept_bind (fun _ _ => trivial) h

theorem touching_pure (a : α) : Touching owners target adopted (pure a) w := leads_pure trivial

theorem touching_of_after {x : Action α} (h : w.Touches owners target adopted (x.after w)) :
    Touching owners target adopted x w := leads_of_after h

theorem touching_ask (question : World → Except Fault α) : Touching owners target adopted (ask question) w := by
  apply touching_of_after
  rw [after_ask]
  exact refl_of (Touches owners target adopted) w

/-- A step that leaves memory, vectors and arrays alone. -/
theorem touching_aside {x : Action α} (hm : (x.after w).memory = w.memory) (hv : (x.after w).vecs = w.vecs)
    (ha : (x.after w).arrays = w.arrays) : Touching owners target adopted x w := by
  apply touching_of_after
  refine touches_of_eq (by rw [hm]) ?_ hv ha
  rw [hm]
  exact Memory.Frame.refl _ _

theorem touching_alloc (contents : Bytes) : Touching owners target adopted (alloc contents) w :=
  touching_of_after (touches_alloc w contents)

theorem touching_nextSerial : Touching owners target adopted nextSerial w :=
  touching_of_after (touches_of_eq le_rfl (fun _ _ _ => rfl) rfl rfl)

theorem touching_view (kind : Kind) (buffer : Nat) (offset : Binary64) (length : Option Binary64) :
    Touching owners target adopted (view kind buffer offset length) w := by
  cases h : w.memory.view? kind buffer offset length with
  | error e =>
    have hrun : view kind buffer offset length w = .error e w := by
      unfold view
      rw [h]
    exact leads_of_error hrun (refl_of (Touches owners target adopted) w) trivial
  | ok r =>
    obtain ⟨v, m⟩ := r
    have hrun : view kind buffer offset length w = .ok v { w with memory := m } := by
      unfold view
      rw [h]
    obtain ⟨-, -, -, rfl⟩ := view?_ok h
    exact leads_of_ok hrun (touches_of_eq le_rfl (fun _ _ _ => rfl) rfl rfl) trivial

theorem touching_lend (r : ByteRange) (label : Text) : Touching owners target adopted (lend r label) w := by
  rcases lend_cases w r label with ⟨-, h⟩ | ⟨-, h⟩
  · exact leads_of_ok h (touches_of_eq le_rfl (fun _ _ _ => rfl) rfl rfl) trivial
  · exact leads_of_ok h (touches_of_eq (Memory.grows_alloc w.memory _).size_le
      (Memory.frame_alloc _ w.memory _) rfl rfl) trivial

theorem touching_scan (reader : Nat) (s : Scan α) : Touching owners target adopted (scan reader s) w := by
  have hoffset : ∀ offset, w.Touches owners target adopted
      (w.setReader reader { w.reader reader with offset := offset }) := fun offset =>
    touches_of_eq le_rfl (fun _ _ _ => rfl) rfl rfl
  cases h : s (w.bytes (w.reader reader).source) (w.reader reader).offset with
  | ok a offset => exact leads_of_ok (scan_ok h) (hoffset offset) trivial
  | error e offset => exact leads_of_error (scan_error h) (hoffset offset) trivial

theorem touching_passNext (reader : Nat) (n : Binary64) : Touching owners target adopted (passNext reader n) w := by
  refine (touching_scan reader _).bind fun start w₁ => Leads.get_bind ?_
  exact touching_pure _

theorem touching_newBorrower (region : Nat) : Touching owners target adopted (newBorrower region) w :=
  Leads.get_bind (Touching.ofExcept_bind fun _ _ => touching_aside rfl rfl rfl)

theorem touching_attach (id : Nat) (view : View) (region : Nat) :
    Touching owners target adopted (attach id view region) w := by
  apply touching_of_after
  unfold Action.after
  rw [attach_eq]
  split_ifs
  · exact refl_of (Touches owners target adopted) w
  · exact touches_setHolding id (by simp)
  · exact refl_of (Touches owners target adopted) w

theorem touches_newVec (w : World) (kind : Kind) (checked : Bool) :
    w.Touches owners target adopted { w with vecs := w.vecs.push (.new kind checked) } := by
  refine touches_of_added le_rfl (Memory.Frame.refl _ _) fun o a ha => Or.inl ?_
  cases o with
  | array j => exact ha
  | vec j =>
    have hown := owned_of_storage? ha
    rw [vec_push] at hown
    split_ifs at hown
    · cases hown
    · exact storage?_vec_of_owned hown

/-- Of what is read from a source, the storage is new or is in the source, and then that shares. -/
theorem touches_of_takes {source : ByteRange} (hsource : source.shares = true → adopted source.buffer)
    (h : TakesFrom source w w') : w.Touches owners target adopted w' := by
  cases h with
  | offset reader offset => exact touches_of_eq le_rfl (fun _ _ _ => rfl) rfl rfl
  | viewed => exact touches_of_eq le_rfl (fun _ _ _ => rfl) rfl rfl
  | made kind checked => exact touches_newVec w kind checked
  | borrowed vec => exact touches_setHolding vec (by simp)
  | copied vec r =>
    refine touches_of_added (Memory.grows_alloc w.memory _).size_le (Memory.frame_alloc _ w.memory _)
      fun o a ha => ?_
    rcases storage?_setHolding ha with ⟨-, he⟩ | ⟨-, hold⟩
    · cases he
      have hlt := w.memory.lt_size_alloc (w.bytes r)
      exact Or.inr ⟨le_rfl, hlt⟩
    · exact Or.inl ((storage?_congr rfl rfl o).symm.trans hold)
  | @shared vec r hshares hbuffer =>
    have hadopted : adopted r.buffer := hbuffer ▸ hsource hshares
    have hcases : ∀ o a, (w.withOwned vec (.over (w.vec vec).kind r) w.memory w.promotions).storage? o = some a →
        w.storage? o = some a ∨ a.buffer = r.buffer := by
      intro o a ha
      rcases storage?_setHolding ha with ⟨-, he⟩ | ⟨-, hold⟩
      · cases he
        exact Or.inr rfl
      · exact Or.inl hold
    refine ⟨le_rfl, Memory.Frame.refl _ _, fun o a ha => ?_, fun hlt hs o a ha => ?_⟩
    · rcases hcases o a ha with hold | hnew
      · exact Or.inl hold
      · exact Or.inr (Or.inl (Or.inr (hnew ▸ hadopted)))
    · rcases hcases o a ha with hold | hnew
      · exact hs o a hold
      · exact (hnew ▸ hlt _ hadopted : a.buffer < w.memory.buffers.size)

theorem touching_shareView (id : Nat) : Touching owners target adopted (shareView id) w := by
  refine Leads.get_bind (Touching.ofExcept_bind fun view _ => ?_)
  have hserial : ∀ u, Touching owners target adopted (nextSerial >>= fun _ => (pure view : Action View)) u :=
    fun u => touching_nextSerial.bind fun _ _ => touching_pure _
  by_cases hm : (w.vec id).mode = .empty
  · rw [if_pos hm]
    exact (touching_alloc []).bind fun _ u => hserial u
  · rw [if_neg hm]
    exact hserial w

theorem touching_next (id : Nat) : Touching owners target adopted (next id) w := by
  apply touching_of_after
  rcases next_cases w id with h | ⟨i, h⟩
  · rw [h]
    exact refl_of (Touches owners target adopted) w
  · rw [h]
    exact touches_of_eq le_rfl (fun _ _ _ => rfl) rfl rfl

theorem touching_readerCommand {id : Nat} {c : ReaderCommand} (hc : ∀ b, w.Adopts (.reader id c) b → adopted b) :
    Touching owners target adopted (c.run id) w := by
  cases c with
  | u32 => exact (touching_scan id _).map
  | i32 => exact (touching_scan id _).map
  | u64 => exact (touching_scan id _).map
  | copy n =>
    exact Leads.map ((touching_passNext id n).bind fun r w₁ => leads_slice touches_alloc r)
  | borrow n =>
    refine Touching.bind ?_ fun _ _ => touching_pure _
    refine (touching_passNext id n).bind fun r w₁ => Leads.get_bind ?_
    exact touching_pure _
  | align n => exact (touching_scan id _).map
  | field vec stride policy =>
    have hstep : ∀ u u', TakesFrom (w.reader id).source u u' → Touches owners target adopted u u' :=
      fun _ _ => touches_of_takes fun hs => hc _ (.field hs)
    exact (taking_readField hstep vec stride policy rfl).map
  | bundle policy =>
    have hstep : ∀ u u', TakesFrom (w.reader id).source u u' → Touches owners target adopted u u' :=
      fun _ _ => touches_of_takes fun hs => hc _ (.bundle hs)
    exact (taking_decode hstep policy rfl).map

theorem touching_changeWriter (id : Nat) (change : World → Writer → Except Fault Writer) :
    Touching owners target adopted (changeWriter id change) w :=
  Leads.get_bind (Touching.ofExcept_bind fun _ _ => touching_aside rfl rfl rfl)

theorem touching_writerCommand (id : Nat) (c : WriterCommand) : Touching owners target adopted (c.run id) w := by
  cases c with
  | word32 value => exact (touching_changeWriter id _).map
  | word64 value => exact (touching_changeWriter id _).map
  | bytes range => exact (touching_changeWriter id _).map
  | align n => exact (touching_changeWriter id _).map
  | field vec stride => exact (touching_changeWriter id _).map
  | join => exact Leads.map (Leads.get_bind (touching_alloc _))

theorem touches_lent (w : World) (regions : Array Region) (readers : Array Reader) :
    w.Touches owners target adopted { w with regions := regions, readers := readers } :=
  touches_of_eq le_rfl (fun _ _ _ => rfl) rfl rfl

theorem touching_storeCommand {id : Nat} {c : StoreCommand} (hc : ∀ b, w.Adopts (.store id c) b → adopted b) :
    Touching owners target adopted (c.run id) w := by
  refine leads_storeCommand touches_alloc (fun _ _ => touches_of_eq le_rfl (fun _ _ _ => rfl) rfl rfl) c
    (fun path => ?_) ?_
  · exact (leads_lendFile touches_alloc fun u _ _ _ _ => touches_lent u _ u.readers).mono fun _ _ _ => trivial
  · rintro path policy rfl
    refine leads_openInPlace touches_alloc (fun u _ _ _ _ => touches_lent u _ u.readers)
      (fun u _ _ _ => touches_lent u u.regions _) (fun held hheld _ _ => ?_) policy
    exact touches_of_takes fun hs => hc _ (hheld.adopts hs policy)

section Vectors

variable {id : Nat}

theorem Stored.withOwned (hs : w.Stored) {a : Growable} {m : Memory} (p : Array Promotion)
    (hle : w.memory.buffers.size ≤ m.buffers.size) (ha : a.buffer < m.buffers.size) :
    (w.withOwned id a m p).Stored := by
  intro o b hb
  rcases storage?_setHolding hb with ⟨-, he⟩ | ⟨-, hold⟩
  · cases he
    exact ha
  · exact (hs o b ((storage?_congr rfl rfl o).symm.trans hold)).trans_le hle

theorem Stored.buffer_lt_of_own (hs : w.Stored) {a : Growable} (h : own id w = .ok a w') :
    a.buffer < w'.memory.buffers.size := by
  have howning := owning_own w id
  rw [h] at howning
  cases howning with
  | owned hh => exact hs _ a (storage?_vec_of_owned hh)
  | empty hh => exact (Growable.fresh_ofWords ..).buffer_lt
  | promoted p hh ho => exact (Growable.fresh_ofWords ..).buffer_lt

theorem stored_changeOwned (hs : w.Stored) (change : Memory → Growable → Except Fault (Growable × Memory))
    (hc : ∀ m a a' m', change m a = .ok (a', m') → Growable.Updates m a m' a') :
    ((changeOwned id change).after w).Stored := by
  cases h : own id w with
  | error e w₁ =>
    rw [after_error (changeOwned_of_error h), own_error h]
    exact hs
  | ok a w₁ =>
    have ha := hs.buffer_lt_of_own h
    obtain ⟨m, p, rfl, hr⟩ := own_ok h
    cases hstep : change m a with
    | error e =>
      rw [after_error (changeOwned_error h hstep)]
      exact hs.withOwned p hr.grows.size_le ha
    | ok r =>
      have hu := hc m a r.1 r.2 hstep
      rw [after_ok (changeOwned_ok h hstep), withOwned_withOwned]
      exact hs.withOwned _ (hr.grows.size_le.trans hu.grows.size_le) (hu.buffer_lt ha)

theorem stored_own (hs : w.Stored) : ((own id).after w).Stored := by
  cases h : own id w with
  | error e w₁ =>
    rw [after_error h, own_error h]
    exact hs
  | ok a w₁ =>
    have ha := hs.buffer_lt_of_own h
    obtain ⟨m, p, rfl, hr⟩ := own_ok h
    rw [after_ok h]
    exact hs.withOwned p hr.grows.size_le ha

theorem stored_setAt (hs : w.Stored) (index : Binary64) (x : Scalar) :
    ((setAt id index x).after w).Stored := by
  unfold Action.after
  rw [setAt_eq]
  cases acceptIndex index (w.vec id).size with
  | error e => exact hs
  | ok i =>
    change ((if (w.vec id).kind.admits x = true then
      changeOwned id fun m a => .ok (a, m.writeWords a.slots i [a.kind.store x])
      else own id >>= fun _ => throw .sortRefused : Action Unit).after w).Stored
    split_ifs
    · refine stored_changeOwned hs (fun m a => .ok (a, m.writeWords a.slots i [a.kind.store x])) fun m a a' m' h => ?_
      cases h
      exact (Growable.Updates.refl m a).write i _ fun _ ha => ⟨ha.length_le, ha.signed⟩
    · rw [after_bind_throw]
      exact stored_own hs

theorem stored_refuse (hs : w.Stored) (extra : Growable → Binary64) : ((refuse id extra).after w).Stored := by
  rw [refuse_eq, after_bind_throw]
  exact stored_changeOwned hs _ fun _ _ _ _ h => updates_makeRoom h

theorem stored_push (hs : w.Stored) (x : Scalar) : ((push id x).after w).Stored := by
  unfold Action.after
  rw [push_eq]
  split_ifs
  · exact stored_changeOwned hs _ fun _ _ _ _ h => Growable.updates_push h
  · exact stored_refuse hs _

theorem stored_resize (hs : w.Stored) (length : Binary64) (fill : Option Scalar) :
    ((resize id length fill).after w).Stored := by
  unfold Action.after
  rw [resize_eq]
  split_ifs
  · exact hs
  · exact stored_changeOwned hs _ fun _ _ _ _ h => Growable.updates_resize h
  · exact stored_refuse hs _

theorem stored_pop (hs : w.Stored) : ((pop id).after w).Stored := by
  cases h : own id w with
  | error e w₁ =>
    rw [after_error (pop_of_error h), own_error h]
    exact hs
  | ok a w₁ =>
    have ha := hs.buffer_lt_of_own h
    obtain ⟨m, p, rfl, hr⟩ := own_ok h
    rw [after_ok (pop_ok h), withOwned_withOwned]
    exact hs.withOwned _ hr.grows.size_le ((Growable.updates_pop m a).buffer_lt ha)

theorem stored_writableView (hs : w.Stored) : ((writableView id).after w).Stored := by
  cases h : own id w with
  | error e w₁ =>
    rw [after_error (writableView_of_error h), own_error h]
    exact hs
  | ok a w₁ =>
    have ha := hs.buffer_lt_of_own h
    obtain ⟨m, p, rfl, hr⟩ := own_ok h
    rw [after_ok (writableView_ok h)]
    exact hs.withOwned p hr.grows.size_le ha

theorem touches_rewrites (h : w.Rewrites id w') (hs : w.Stored → w'.Stored) (ho : owners (.vec id)) :
    w.Touches owners target adopted w' := by
  rcases h with rfl | ⟨a, m, p, rfl, hr⟩
  · exact refl_of (Touches owners target adopted) _
  · exact touches_places (hr.places_vec p) ho hs

theorem touching_swapWith {array : Nat} (hid : id < w.vecs.size) (harray : array < w.arrays.size)
    (ho : owners (.vec id)) (ho' : owners (.array array)) : Touching owners target adopted (swapWith id array) w := by
  apply touching_of_after
  by_cases hk : (w.vec id).kind = (w.array array).kind
  · cases h : own id w with
    | error e w₁ =>
      rw [after_error (swapWith_of_error hk h), own_error h]
      exact refl_of (Touches owners target adopted) w
    | ok a w₁ =>
      rw [after_ok (swapWith_ok hk h)]
      have hlt : w.Stored → a.buffer < w₁.memory.buffers.size := fun hs => hs.buffer_lt_of_own h
      obtain ⟨m, p, rfl, hr⟩ := own_ok h
      have hown : w.Touches owners target adopted (w.withOwned id a m p) :=
        touches_places (hr.places_vec p) ho fun hs => hs.withOwned p hr.grows.size_le (hlt hs)
      have hk' : ((w.withOwned id a m p).vec id).kind = (w.array array).kind := by
        rw [vec_withOwned_self a m p hid]
        exact hk
      exact hown.trans (touches_exchanges (exchanges_withExchanged (w := w.withOwned id a m p) harray hk'
        (storage?_withOwned_self hid a m p)) ho ho')
  · rw [after_error (swapWith_of_ne hk)]
    exact refl_of (Touches owners target adopted) w

theorem touching_vecCommand {c : VecCommand} (hc : (Command.vec id c).Named w) :
    Touching (Command.vec id c).owners target adopted (c.run id) w := by
  apply Leads.get_bind
  have hself : c.mutates = true → (Command.vec id c).owners (.vec id) := fun h => ⟨h, Or.inl rfl⟩
  cases c with
  | attach view region => exact (touching_attach id view region).map
  | item index => exact (touching_ask _).map
  | unchecked index => exact (touching_ask _).map
  | front => exact (touching_ask _).map
  | back => exact (touching_ask _).map
  | toList => exact (touching_ask _).map
  | share => exact (touching_shareView id).map
  | isView view => exact (touching_ask _).map
  | writable =>
    exact Leads.map (touching_of_after (touches_rewrites rewrites_writableView stored_writableView (hself rfl)))
  | set index value =>
    exact Leads.map (touching_of_after
      (touches_rewrites (rewrites_setAt index value) (fun hs => stored_setAt hs index value) (hself rfl)))
  | push value =>
    exact Leads.map (touching_of_after
      (touches_rewrites (rewrites_push value) (fun hs => stored_push hs value) (hself rfl)))
  | pop => exact Leads.map (touching_of_after (touches_rewrites rewrites_pop stored_pop (hself rfl)))
  | resize length fill =>
    exact Leads.map (touching_of_after
      (touches_rewrites (rewrites_resize length fill) (fun hs => stored_resize hs length fill) (hself rfl)))
  | swap array => exact (touching_swapWith hc.1 hc.2 (hself rfl) ⟨rfl, Or.inr rfl⟩).map
  | clear => exact Leads.map (touching_of_after (touches_setHolding id (by simp)))
  | iterate => exact Leads.map (touching_aside rfl rfl rfl)

end Vectors

section Arrays

variable {id : Nat}

theorem Stored.setArray (hs : w.Stored) {a : Growable} {m : Memory}
    (hle : w.memory.buffers.size ≤ m.buffers.size) (ha : a.buffer < m.buffers.size) :
    ({ w with memory := m }.setArray id a).Stored := by
  intro o b hb
  rcases storage?_setArray hb with ⟨-, rfl⟩ | ⟨-, hold⟩
  · exact ha
  · exact (hs o b ((storage?_congr rfl rfl o).symm.trans hold)).trans_le hle

/-- A step of an array that is there. -/
theorem touches_updates (hid : id < w.arrays.size) (ho : owners (.array id)) {a : Growable} {m : Memory}
    (hu : Growable.Updates w.memory (w.array id) m a) :
    w.Touches owners target adopted ({ w with memory := m }.setArray id a) :=
  touches_places (renews_array hid hu).places_array ho fun hs =>
    hs.setArray hu.grows.size_le (hu.buffer_lt (hs _ _ (storage?_array hid)))

theorem touching_changeArray (hid : id < w.arrays.size) (ho : owners (.array id))
    {change : Memory → Growable → Except Fault (Growable × Memory)}
    (hc : ∀ m a a' m', change m a = .ok (a', m') → Growable.Updates m a m' a') :
    Touching owners target adopted (changeArray id change) w := by
  apply touching_of_after
  cases hr : change w.memory (w.array id) with
  | error e =>
    rw [after_error (changeArray_error hr)]
    exact refl_of (Touches owners target adopted) w
  | ok r =>
    rw [after_ok (changeArray_ok hr)]
    exact touches_updates hid ho (hc _ _ _ _ hr)

theorem touching_reserve (hid : id < w.arrays.size) (ho : owners (.array id)) (extra : Binary64) :
    Touching owners target adopted (reserve id extra) w := by
  apply touching_of_after
  cases hr : (w.array id).reserve w.memory extra with
  | error e =>
    rw [after_error (reserveArray_error hr)]
    exact refl_of (Touches owners target adopted) w
  | ok r =>
    rw [after_ok (reserveArray_ok hr)]
    exact touches_updates hid ho (Growable.updates_reserve hr)

/-- Two arrays change places; an array and itself stay as they are. -/
theorem touching_swapArrays {other : Nat} (hid : id < w.arrays.size) (hother : other < w.arrays.size)
    (ho : owners (.array id)) (ho' : owners (.array other)) :
    Touching owners target adopted (swapArrays id other) w := by
  apply touching_of_after
  change w.Touches owners target adopted ((Action.ofExcept ((w.array id).swap (w.array other)) >>= fun r =>
    (set ((w.setArray id r.1).setArray other r.2) : Action Unit)).after w)
  unfold Growable.swap
  split_ifs with hk
  · change w.Touches owners target adopted ((w.setArray id (w.array other)).setArray other (w.array id))
    by_cases hne : id = other
    · subst hne
      refine touches_of_added le_rfl (Memory.Frame.refl _ _) fun o a ha => Or.inl ?_
      rcases storage?_setArray ha with ⟨rfl, rfl⟩ | ⟨hnot, hold⟩
      · exact storage?_array hid
      · rwa [storage?_setArray_of_ne _ hnot] at hold
    · exact touches_exchanges (exchanges_arrays hid hother hne) ho ho'
  · exact refl_of (Touches owners target adopted) w

theorem touching_arrayCommand {c : ArrayCommand} (hc : (Command.array id c).Named w) :
    Touching (Command.array id c).owners target adopted (c.run id) w := by
  have hself := Command.owners_array id c
  cases c with
  | reserve extra => exact (touching_reserve hc hself extra).map
  | push value =>
    exact Leads.map (leads_pushArray trivial
      (touching_changeArray hc hself fun _ _ _ _ h => Growable.updates_push h) (touching_reserve hc hself 1))
  | pop =>
    exact Leads.get_bind (Leads.map (touching_of_after
      (touches_updates hc hself (Growable.updates_pop w.memory (w.array id)))))
  | resize length fill =>
    exact Leads.map (leads_resizeArray trivial
      (touching_changeArray hc hself fun _ _ _ _ h => Growable.updates_resize h) (touching_reserve hc hself _))
  | share => exact Leads.map (Leads.get_bind (touching_nextSerial.bind fun _ _ => touching_pure _))
  | clear =>
    refine Leads.map (touching_changeArray hc hself fun m a a' m' h => ?_)
    cases h
    exact Growable.updates_clear m a
  | release =>
    refine Leads.map (touching_changeArray hc hself fun m a a' m' h => ?_)
    cases h
    exact Growable.updates_release m a
  | swap other => exact (touching_swapArrays hc.1 hc.2 hself (Or.inr rfl)).map

end Arrays

/-- A write from outside is to the buffer that it is aimed at. -/
theorem touching_setElement (v : View) (index : Binary64) (value : Scalar) :
    Touching owners (some v.buffer) adopted (setElement v index value) w := by
  have hsize := (Memory.grows_setElement w.memory v index value).size_le
  have hwrite : w.Touches owners (some v.buffer) adopted
      { w with memory := w.memory.setElement v index value } := by
    refine ⟨hsize, ?_, fun o a ha => Or.inl ((storage?_congr rfl rfl o).symm.trans ha), fun _ hs o a ha => ?_⟩
    · exact (Memory.frame_setElement w.memory v index value).mono fun b _ hb => .aimed (by rw [hb])
    · exact (hs o a ((storage?_congr rfl rfl o).symm.trans ha)).trans_le hsize
  apply touching_of_after
  rcases after_setElement w v index value with h | h
  · rwa [h]
  · rw [h]
    exact refl_of (Touches owners (some v.buffer) adopted) w

theorem touching_command {c : Command} (hc : c.Named w) :
    Touching c.owners c.target? (w.Adopts c) c.run w := by
  cases c with
  | alloc contents => exact (touching_alloc contents).map
  | duplicate range => exact Leads.get_bind (touching_alloc _).map
  | poke range index value => exact (touching_setElement ⟨.u8, range.buffer, range.offset, range.length, 0⟩ ..).map
  | view kind buffer offset length => exact (touching_view kind buffer offset length).map
  | setElement v index value => exact (touching_setElement v index value).map
  | lend range label => exact (touching_lend range label).map
  | lentBytes region => exact (touching_ask _).map
  | close region => exact Leads.map (touching_aside rfl rfl rfl)
  | newVec kind checked => exact Leads.map (touching_of_after (touches_newVec w kind checked))
  | vecOfList kind values checked =>
    have hfresh := Growable.fresh_ofWords w.memory kind (values.map kind.store)
    exact Leads.map (Leads.demand_bind trivial fun _ =>
      Leads.get_bind (touching_of_after (touches_fresh (places_addVec checked hfresh) hfresh)))
  | vecOfView kind v checked =>
    have hfresh := Growable.fresh_ofWords w.memory kind (w.memory.wordsAs v kind)
    exact Leads.map (Leads.demand_bind trivial fun _ =>
      Leads.get_bind (touching_of_after (touches_fresh (places_addVec checked hfresh) hfresh)))
  | vec id c => exact touching_vecCommand hc
  | next iteration => exact Leads.get_bind (touching_next iteration).map
  | newArray kind length fill =>
    refine Leads.map (Leads.get_bind (Touching.ofExcept_bind fun r hr => ?_))
    have hfresh := Growable.fresh_create hr
    exact touching_of_after (touches_fresh (places_addArray hfresh) hfresh)
  | arrayOfList kind values =>
    have hfresh := Growable.fresh_ofWords w.memory kind (values.map kind.store)
    exact Leads.map (Leads.demand_bind trivial fun _ =>
      Leads.get_bind (touching_of_after (touches_fresh (places_addArray hfresh) hfresh)))
  | arrayOfView kind v =>
    have hfresh := Growable.fresh_ofWords w.memory kind (w.memory.wordsAs v kind)
    exact Leads.map (Leads.demand_bind trivial fun _ =>
      Leads.get_bind (touching_of_after (touches_fresh (places_addArray hfresh) hfresh)))
  | array id c => exact touching_arrayCommand hc
  | newReader source => exact Leads.map (touching_aside rfl rfl rfl)
  | newBorrower region => exact (touching_newBorrower region).map
  | reader id c => exact touching_readerCommand fun _ h => h
  | newWriter => exact Leads.map (touching_aside rfl rfl rfl)
  | writer id c => exact touching_writerCommand id c
  | encode fields => exact (touching_ask _).bind fun _ _ => (touching_alloc _).map
  | decodeCopy source policy =>
    exact (leads_decodeCopy (touches_lent w w.regions _)
      (fun _ _ => touches_of_takes fun hs => .decodeCopy hs) policy).map
  | newMemory files =>
    exact (leads_newMemory touches_alloc (fun _ _ => touches_of_eq le_rfl (fun _ _ _ => rfl) rfl rfl) files).map
  | newDisk disk => exact Leads.map (touching_aside rfl rfl rfl)
  | store id c => exact touching_storeCommand fun _ h => h

/-- A command writes the storage of those that it is a change of, and the buffer that it is told to write, and it
only adds to memory otherwise. -/
theorem touches_perform {c : Command} (hc : c.Named w) :
    w.Touches c.owners c.target? (w.Adopts c) (w.perform c).2 := by
  rw [perform_snd]
  exact (touching_command hc).after

theorem stored_empty (limit : AllocationLimit) : (empty limit).Stored := by
  intro o a ha
  cases o with
  | vec id => cases owned_of_storage? ha
  | array id => cases ha

/-- The buffer exists and is nobody's storage but that of this owner. -/
structure Reserved (w : World) (o : Owner) (b : Nat) : Prop where
  lt : b < w.memory.buffers.size
  only : ∀ o' a, w.storage? o' = some a → a.buffer = b → o' = o

theorem Foreign.reserved {b : Nat} (h : w.Foreign b) (o : Owner) : w.Reserved o b where
  lt := h.lt
  only o' a ha he := absurd he (h.ne o' a ha)

theorem Reserved.not_inHands {o : Owner} {b : Nat} (h : w.Reserved o b) (ho : ¬ owners o) : ¬ w.InHands owners b := by
  rintro ⟨o', a, ho', ha, he⟩
  rw [h.only o' a ha he] at ho'
  exact ho ho'

/-- A buffer comes into no other hands by what is done to others, unless it is adopted. -/
theorem Reserved.of_touches {o : Owner} {b : Nat} (h : w.Reserved o b) (ht : w.Touches owners target adopted w')
    (ho : ¬ owners o) (hadopted : ¬ adopted b) : w'.Reserved o b := by
  refine ⟨h.lt.trans_le ht.size_le, fun o' a ha he => ?_⟩
  rcases ht.storage o' a ha with hold | (⟨-, hheld⟩ | hgiven) | hnew
  · exact h.only o' a hold he
  · rw [he] at hheld
    exact absurd hheld (h.not_inHands ho)
  · exact absurd (he ▸ hgiven) hadopted
  · have hlt := h.lt
    omega

/-- What is neither aimed at nor adopted nor in hands that are changed stays as it is. -/
theorem Reserved.buffer_eq {o : Owner} {b : Nat} (h : w.Reserved o b) (ht : w.Touches owners target adopted w')
    (ho : ¬ owners o) (hadopted : ¬ adopted b) (hb : target ≠ some b) :
    w'.memory.buffer b = w.memory.buffer b := by
  refine ht.frame b h.lt ?_
  rintro (haimed | hheld | hgiven)
  · exact hb haimed
  · exact h.not_inHands ho hheld
  · exact hadopted hgiven

end World

end LeaseVec
