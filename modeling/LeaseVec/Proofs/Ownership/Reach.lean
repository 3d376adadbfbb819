import LeaseVec.Proofs.Ownership.Footprints

/-!
# What can be reached

A program has the buffers that it has been handed, and it comes to a buffer by way of the objects of the world:
storage, regions, readers, borrowed views, and files that share their bytes with a memory store. A command makes no
other buffer reachable than those that it names and new ones, and its answer names no other. So a program that names
only what it knows never learns of a buffer that is neither known nor reachable.
-/

namespace LeaseVec

open Number

/-- The buffers that a command of a vector names. -/
def VecCommand.buffers : VecCommand → List Nat
  | attach view _ | isView view => [view.buffer]
  | _ => []

/-- The buffers that a command names. -/
def Command.buffers : Command → List Nat
  | duplicate range | poke range _ _ | lend range _ | newReader range | decodeCopy range _ => [range.buffer]
  | view _ buffer _ _ => [buffer]
  | setElement v _ _ | vecOfView _ v _ | arrayOfView _ v => [v.buffer]
  | vec _ c => c.buffers
  | writer _ (.bytes range) => [range.buffer]
  | newMemory files => files.map fun f => f.2.buffer
  | store _ c => c.given?.toList.map ByteRange.buffer
  | _ => []

/-- The buffer that an answer names. -/
def Reply.buffer? : Reply → Option Nat
  | range r | lent r _ => some r.buffer
  | view v => some v.buffer
  | _ => none

namespace World

open LeaseVec.Action

variable {α β : Type} {named named' : Nat → Prop} {w w' w'' : World} {b : Nat}

/-- A buffer that is lent out, or that a memory store shares. -/
inductive Lent (w : World) : Nat → Prop where
  | held (id : Nat) {r : ByteRange} (h : (w.region id).held = some r) : Lent w r.buffer
  | source (id : Nat) (lt : id < w.readers.size) : Lent w (w.reader id).source.buffer
  | borrowed (id : Nat) {view : View} {region : Nat} (h : (w.vec id).holding = .borrowed view region) :
    Lent w view.buffer
  | stored (id : Nat) {files : List (Text × ByteRange)} {path : Text} {r : ByteRange}
      (files_eq : w.store id = .memory files) (found : Store.find? files path = some r) (shares : r.shares = true) :
    Lent w r.buffer

/-- A buffer that is somebody's storage, or lent. -/
def Reaches (w : World) (b : Nat) : Prop := (∃ o a, w.storage? o = some a ∧ a.buffer = b) ∨ w.Lent b

theorem reaches_storage {o : Owner} {a : Growable} (h : w.storage? o = some a) : w.Reaches a.buffer :=
  Or.inl ⟨o, a, h, rfl⟩

theorem Lent.congr (h : w'.Lent b) (hr : w'.regions = w.regions) (hd : w'.readers = w.readers)
    (hv : w'.vecs = w.vecs) (hs : w'.stores = w.stores) : w.Lent b := by
  cases w
  cases w'
  simp only at hr hd hv hs
  subst hr hd hv hs
  cases h with
  | held id h => exact .held id h
  | source id lt => exact .source id lt
  | borrowed id h => exact .borrowed id h
  | stored id hf hr hshares => exact .stored id hf hr hshares

/-- Memory is only added to, and what is lent now was so before, or is one of these buffers, or is new. -/
structure Spreads (named : Nat → Prop) (w w' : World) : Prop where
  size_le : w.memory.buffers.size ≤ w'.memory.buffers.size
  lent : ∀ b, w'.Lent b → w.Lent b ∨ named b ∨ w.memory.buffers.size ≤ b ∧ b < w'.memory.buffers.size

theorem Spreads.trans (h : w.Spreads named w') (h' : w'.Spreads named w'') : w.Spreads named w'' where
  size_le := h.size_le.trans h'.size_le
  lent b hb := by
    rcases h'.lent b hb with hold | hnamed | hnew
    · rcases h.lent b hold with hold | hnamed | hnew
      · exact Or.inl hold
      · exact Or.inr (Or.inl hnamed)
      · exact Or.inr (Or.inr ⟨hnew.1, hnew.2.trans_le h'.size_le⟩)
    · exact Or.inr (Or.inl hnamed)
    · exact Or.inr (Or.inr ⟨h.size_le.trans hnew.1, hnew.2⟩)

theorem reaches_of_memory {m : Memory} (h : ({ w with memory := m } : World).Reaches b) : w.Reaches b := by
  rcases h with ⟨o, a, ha, rfl⟩ | hlent
  · exact reaches_storage ((storage?_congr rfl rfl o).symm.trans ha)
  · exact Or.inr (hlent.congr rfl rfl rfl rfl)

/-- Nothing more is reachable when there is no other storage, no name and no new buffer. -/
theorem Spreads.reaches (h : w.Spreads (fun _ => False) w') (hv : w'.vecs = w.vecs) (ha : w'.arrays = w.arrays)
    (hm : w'.memory.buffers.size = w.memory.buffers.size) (hb : w'.Reaches b) : w.Reaches b := by
  rcases hb with ⟨o, a, hstorage, rfl⟩ | hlent
  · exact reaches_storage ((storage?_congr hv ha o).symm.trans hstorage)
  · rcases h.lent b hlent with hold | hnone | ⟨hge, hlt⟩
    · exact Or.inr hold
    · exact hnone.elim
    · omega

/-- What was lent anyway need not be named. -/
theorem Spreads.of_lent (h : w.Spreads named' w') (hn : ∀ b, named' b → w.Lent b ∨ named b) :
    w.Spreads named w' where
  size_le := h.size_le
  lent b hb := by
    rcases h.lent b hb with hold | hnamed | hnew
    · exact Or.inl hold
    · exact (hn b hnamed).imp_right Or.inl
    · exact Or.inr (Or.inr hnew)

/-- Nothing is lent that was not, whatever has become of memory. -/
theorem spreads_of_lose (hm : w.memory.buffers.size ≤ w'.memory.buffers.size)
    (h : ∀ b, w'.Lent b → w.Lent b ∨ named b) : w.Spreads named w' where
  size_le := hm
  lent b hb := (h b hb).imp_right Or.inl

theorem spreads_of_eq (hm : w.memory.buffers.size ≤ w'.memory.buffers.size) (hr : w'.regions = w.regions)
    (hd : w'.readers = w.readers) (hv : w'.vecs = w.vecs) (hs : w'.stores = w.stores) : w.Spreads named w' :=
  spreads_of_lose hm fun _ hb => Or.inl (hb.congr hr hd hv hs)

instance : Std.Refl (Spreads named) := ⟨fun _ => spreads_of_eq le_rfl rfl rfl rfl rfl⟩

instance : IsTrans World (Spreads named) := ⟨fun _ _ _ h h' => h.trans h'⟩

theorem spreads_alloc (w : World) (contents : Bytes) :
    w.Spreads named { w with memory := (w.memory.alloc contents).2 } :=
  spreads_of_eq (Memory.grows_alloc w.memory contents).size_le rfl rfl rfl rfl

/-- A vector gets something else to hold, in memory that has been added to. -/
theorem spreads_hold (id : Nat) {h : Holding} {m : Memory} (p : Array Promotion)
    (hm : w.memory.buffers.size ≤ m.buffers.size)
    (hh : ∀ view region, h = .borrowed view region → w.Lent view.buffer ∨ named view.buffer) :
    w.Spreads named ({ w with memory := m, promotions := p }.setHolding id h) := by
  refine spreads_of_lose hm fun b hb => ?_
  cases hb with
  | held j h => exact Or.inl (.held j h)
  | source j lt => exact Or.inl (.source j lt)
  | stored j hf hr hs => exact Or.inl (.stored j hf hr hs)
  | borrowed j hv =>
    rw [vec_setHolding] at hv
    split_ifs at hv
    · exact hh _ _ hv
    · exact Or.inl (.borrowed j hv)

theorem spreads_withOwned (id : Nat) (a : Growable) {m : Memory} (p : Array Promotion)
    (hm : w.memory.buffers.size ≤ m.buffers.size) : w.Spreads named (w.withOwned id a m p) :=
  spreads_hold id p hm fun _ _ he => nomatch he

theorem spreads_rewrites {id : Nat} (h : w.Rewrites id w') : w.Spreads named w' := by
  rcases h with rfl | ⟨a, m, p, rfl, hr⟩
  · exact refl_of (Spreads named) _
  · exact spreads_withOwned id a p hr.grows.size_le

theorem spreads_pushVec {v : Vec} {m : Memory} (hm : w.memory.buffers.size ≤ m.buffers.size)
    (hv : ∀ view region, v.holding ≠ .borrowed view region) :
    w.Spreads named { w with vecs := w.vecs.push v, memory := m } := by
  refine spreads_of_lose hm fun b hb => Or.inl ?_
  cases hb with
  | held j h => exact .held j h
  | source j lt => exact .source j lt
  | stored j hf hr hs => exact .stored j hf hr hs
  | borrowed j hh =>
    have hvec : ({ w with vecs := w.vecs.push v, memory := m } : World).vec j =
        if j = w.vecs.size then v else w.vec j := w.vec_push v j
    rw [hvec] at hh
    split_ifs at hh
    · exact absurd hh (hv _ _)
    · exact .borrowed j hh

/-- A region over bytes that are lent, or named, or at the end of memory that has been added to. -/
theorem spreads_pushRegion {label : Text} {n : Nat} {r : ByteRange} {m : Memory}
    (hm : w.memory.buffers.size ≤ m.buffers.size)
    (hr : w.Lent r.buffer ∨ named r.buffer ∨ w.memory.buffers.size ≤ r.buffer ∧ r.buffer < m.buffers.size) :
    w.Spreads named { w with memory := m, regions := w.regions.push ⟨label, n, some r⟩ } where
  size_le := hm
  lent b hb := by
    cases hb with
    | source j lt => exact Or.inl (.source j lt)
    | borrowed j h => exact Or.inl (.borrowed j h)
    | stored j hf hr hs => exact Or.inl (.stored j hf hr hs)
    | held j h =>
      have hregion : ({ w with memory := m, regions := w.regions.push ⟨label, n, some r⟩ } : World).region j =
          if j = w.regions.size then ⟨label, n, some r⟩ else w.region j := w.region_push _ j
      rw [hregion] at h
      split_ifs at h
      · cases h
        exact hr
      · exact Or.inl (.held j h)

theorem spreads_pushReader {source : ByteRange} {lender : Option Nat}
    (hs : w.Lent source.buffer ∨ named source.buffer) :
    w.Spreads named { w with readers := w.readers.push ⟨source, 0, lender⟩ } := by
  refine spreads_of_lose le_rfl fun b hb => ?_
  cases hb with
  | held j h => exact Or.inl (.held j h)
  | borrowed j h => exact Or.inl (.borrowed j h)
  | stored j hf hr hs => exact Or.inl (.stored j hf hr hs)
  | source j lt =>
    rw [reader_push]
    split_ifs with hj
    · exact hs
    · refine Or.inl (.source j ?_)
      have hle : j < w.readers.size + 1 := by simpa using lt
      omega

theorem spreads_setOffset (reader offset : Nat) :
    w.Spreads named (w.setReader reader { w.reader reader with offset := offset }) := by
  refine spreads_of_lose le_rfl fun b hb => Or.inl ?_
  cases hb with
  | held j h => exact .held j h
  | borrowed j h => exact .borrowed j h
  | stored j hf hr hs => exact .stored j hf hr hs
  | source j lt =>
    rw [source_setOffset]
    exact .source j (by simpa using lt)

/-- Stores keep other files, and of these only those that were lent or are named share. -/
theorem spreads_stores {stores : Array Store} (hs : ∀ id,
    KeptAs (fun r => r.shares = true → w.Lent r.buffer ∨ named r.buffer) (stores.getD id default)) :
    w.Spreads named { w with stores := stores } := by
  refine spreads_of_lose le_rfl fun b hb => ?_
  cases hb with
  | held j h => exact Or.inl (.held j h)
  | source j lt => exact Or.inl (.source j lt)
  | borrowed j h => exact Or.inl (.borrowed j h)
  | stored j hf hr hshares => exact hs j _ _ _ hf hr hshares

theorem keptAs_lent (w : World) (id : Nat) :
    KeptAs (fun r => r.shares = true → w.Lent r.buffer ∨ named r.buffer) (w.store id) :=
  fun _ _ _ hf hr hshares => Or.inl (.stored id hf hr hshares)

theorem spreads_setStore (id : Nat) {s : Store}
    (hs : KeptAs (fun r => r.shares = true → w.Lent r.buffer ∨ named r.buffer) s) :
    w.Spreads named (w.setStore id s) := by
  refine spreads_stores fun j => ?_
  have hstore := store_setStore w id s j
  unfold store setStore at hstore
  rw [hstore]
  split_ifs
  · exact hs
  · exact w.keptAs_lent j

theorem spreads_pushStore {s : Store}
    (hs : KeptAs (fun r => r.shares = true → w.Lent r.buffer ∨ named r.buffer) s) :
    w.Spreads named { w with stores := w.stores.push s } := by
  refine spreads_stores fun j => ?_
  have hstore := store_push w s j
  unfold store at hstore
  rw [hstore]
  split_ifs
  · exact hs
  · exact w.keptAs_lent j

theorem spreads_close (region : Nat) : w.Spreads named ((close region).after w) := by
  refine spreads_of_lose le_rfl fun b hb => Or.inl ?_
  cases hb with
  | source j lt => exact .source j lt
  | borrowed j h => exact .borrowed j h
  | stored j hf hr hs => exact .stored j hf hr hs
  | held j h =>
    rw [region_close] at h
    split_ifs at h
    exact .held j h

/-- What is read from a source borrows it at most. -/
theorem spreads_of_takes {source : ByteRange} (hs : named source.buffer) (h : TakesFrom source w w') :
    w.Spreads named w' := by
  cases h with
  | offset reader offset => exact spreads_setOffset reader offset
  | viewed => exact spreads_of_eq le_rfl rfl rfl rfl rfl
  | made kind checked => exact spreads_pushVec (m := w.memory) le_rfl fun _ _ he => nomatch he
  | borrowed vec hbuffer =>
    refine spreads_hold vec w.promotions (m := w.memory) le_rfl fun view region he => Or.inr ?_
    cases he
    rwa [hbuffer]
  | copied vec r => exact spreads_withOwned vec _ w.promotions (Memory.grows_alloc w.memory _).size_le
  | shared vec => exact spreads_withOwned vec _ w.promotions le_rfl

/-- A buffer that could be reached, or that is named, or that is new now. -/
def InReach (named : Nat → Prop) (w w' : World) (b : Nat) : Prop :=
  w.Reaches b ∨ named b ∨ w.memory.buffers.size ≤ b ∧ b < w'.memory.buffers.size

theorem inReach_alloc (w : World) (contents : Bytes) :
    w.InReach named { w with memory := (w.memory.alloc contents).2 } (w.memory.alloc contents).1.buffer :=
  Or.inr (Or.inr ⟨le_rfl, w.memory.lt_size_alloc contents⟩)

/-- However a step ends, no more is lent than that. -/
abbrev Spreading (named : Nat → Prop) (x : Action α) (w : World) : Prop :=
  Leads (Spreads named) (fun _ => True) x w fun _ _ => True

/-- However a step ends, no more is lent than that, and the answer is about a buffer in reach. -/
abbrev Reaching (named : Nat → Prop) (buffer : α → Nat) (x : Action α) (w : World) : Prop :=
  Leads (Spreads named) (fun _ => True) x w fun a w' => w.InReach named w' (buffer a)

/-- However a command ends, no more is lent than that, and if its answer names a buffer it is in reach. -/
abbrev Answering (named : Nat → Prop) (x : Action Reply) (w : World) : Prop :=
  Leads (Spreads named) (fun _ => True) x w fun reply w' => ∀ b, reply.buffer? = some b → w.InReach named w' b

theorem spreading_of_after {x : Action α} (h : w.Spreads named (x.after w)) : Spreading named x w := leads_of_after h

theorem spreading_ask (question : World → Except Fault α) : Spreading named (ask question) w := by
  apply spreading_of_after
  rw [after_ask]
  exact refl_of (Spreads named) w

/-- An answer that names no buffer. -/
theorem Spreading.silent {x : Action α} {f : α → Reply} (h : Spreading named (x >>= fun a => pure (f a)) w)
    (hf : ∀ a, (f a).buffer? = none) : Answering named (x >>= fun a => pure (f a)) w := by
  unfold Spreading Answering Leads at *
  cases hx : x w with
  | error e w' =>
    rw [bind_error hx] at h ⊢
    exact h
  | ok a w' =>
    rw [bind_ok hx] at h ⊢
    exact ⟨h.1, fun _ hb => nomatch (hf a).symm.trans hb⟩

theorem Spreading.answers {x : Action α} {f : α → Reply} (h : Spreading named x w) (hf : ∀ a, (f a).buffer? = none) :
    Answering named (x >>= fun a => pure (f a)) w := Spreading.silent (Leads.map h) hf

theorem Reaching.answers {x : Action α} {buffer : α → Nat} {f : α → Reply} (h : Reaching named buffer x w)
    (hf : ∀ a, (f a).buffer? = some (buffer a)) : Answering named (x >>= fun a => pure (f a)) w :=
  Leads.bind h fun a _ _ ha => leads_pure fun b hb => by
    cases (hf a).symm.trans hb
    exact ha

theorem reaching_alloc (contents : Bytes) : Reaching named ByteRange.buffer (alloc contents) w :=
  leads_of_ok rfl (spreads_alloc w contents) (w.inReach_alloc contents)

theorem reaching_view (kind : Kind) {buffer : Nat} (offset : Binary64) (length : Option Binary64)
    (hb : named buffer) : Reaching named View.buffer (view kind buffer offset length) w := by
  cases h : w.memory.view? kind buffer offset length with
  | error e =>
    have hrun : view kind buffer offset length w = .error e w := by
      unfold view
      rw [h]
    exact leads_of_error hrun (refl_of (Spreads named) w) trivial
  | ok r =>
    obtain ⟨v, m⟩ := r
    have hrun : view kind buffer offset length w = .ok v { w with memory := m } := by
      unfold view
      rw [h]
    obtain ⟨-, hbuffer, -, rfl⟩ := view?_ok h
    refine leads_of_ok hrun (spreads_of_eq le_rfl rfl rfl rfl rfl) (Or.inr (Or.inl ?_))
    rwa [hbuffer]

theorem spreading_lend {r : ByteRange} (label : Text) (hr : named r.buffer) : Spreading named (lend r label) w := by
  rcases lend_cases w r label with ⟨-, h⟩ | ⟨-, h⟩
  · exact leads_of_ok h (spreads_pushRegion (m := w.memory) le_rfl (Or.inr (Or.inl hr))) trivial
  · refine leads_of_ok h (spreads_pushRegion (Memory.grows_alloc w.memory _).size_le (Or.inr (Or.inr ?_))) trivial
    exact ⟨le_rfl, w.memory.lt_size_alloc _⟩

theorem spreading_newBorrower (region : Nat) : Spreading named (newBorrower region) w := by
  refine Leads.get_bind (Leads.ofExcept_bind (fun _ _ => trivial) fun source h => ?_)
  exact leads_of_ok rfl (spreads_pushReader (Or.inl (.held region (lentBytes_ok h)))) trivial

theorem spreading_scan (reader : Nat) (s : Scan α) :
    Leads (Spreads named) (fun _ => True) (scan reader s) w fun _ w' =>
      (w'.reader reader).source = (w.reader reader).source ∧ w'.memory = w.memory := by
  cases h : s (w.bytes (w.reader reader).source) (w.reader reader).offset with
  | ok a offset => exact leads_of_ok (scan_ok h) (spreads_setOffset reader offset) ⟨source_setOffset .., rfl⟩
  | error e offset => exact leads_of_error (scan_error h) (spreads_setOffset reader offset) trivial

/-- What a reader passes is a part of its source. -/
theorem spreading_passNext (reader : Nat) (n : Binary64) :
    Leads (Spreads named) (fun _ => True) (passNext reader n) w fun r w' =>
      r.buffer = (w.reader reader).source.buffer ∧ w'.memory = w.memory := by
  refine (spreading_scan reader _).bind fun start w₁ _ h => Leads.get_bind (leads_pure ⟨?_, h.2⟩)
  rw [h.1]
  rfl

theorem reaching_copyNext {reader : Nat} (n : Binary64) (hr : reader < w.readers.size) :
    Reaching named ByteRange.buffer (copyNext reader n) w := by
  refine (spreading_passNext reader n).bind fun r w₁ _ h => ?_
  rcases slice_cases w₁ r with ⟨-, hs⟩ | ⟨-, hs⟩
  · refine leads_of_ok hs (refl_of (Spreads named) w₁) (Or.inl (Or.inr ?_))
    rw [h.1]
    exact .source reader hr
  · refine leads_of_ok hs (spreads_alloc w₁ _) (Or.inr (Or.inr ?_))
    exact ⟨(congrArg (fun m => m.buffers.size) h.2).ge, w₁.memory.lt_size_alloc _⟩

theorem reaching_borrowNext {reader : Nat} (n : Binary64) (hr : reader < w.readers.size) :
    Reaching named (fun lent => lent.1.buffer) (borrowNext reader n) w := by
  refine (spreading_passNext reader n).bind fun r w₁ _ h => Leads.get_bind (leads_pure ?_)
  have hbuffer : r.buffer = (w.reader reader).source.buffer := h.1
  have hlent : w.Lent r.buffer := hbuffer ▸ .source reader hr
  exact Or.inl (Or.inr hlent)

theorem spreading_readerCommand {id : Nat} (c : ReaderCommand) (hid : id < w.readers.size) :
    Answering named (c.run id) w := by
  -- a vector that borrows the source borrows what is lent already
  have hlent : ∀ b, b = (w.reader id).source.buffer → w.Lent b ∨ named b := by
    rintro b rfl
    exact Or.inl (.source id hid)
  have hstep : ∀ u u', TakesFrom (w.reader id).source u u' →
      Spreads (fun b => b = (w.reader id).source.buffer) u u' := fun _ _ => spreads_of_takes rfl
  have hscan : ∀ {γ : Type} (s : Scan γ), Spreading named (scan id s) w := fun s =>
    (spreading_scan id s).mono fun _ _ _ => trivial
  cases c with
  | u32 => exact (hscan _).answers fun _ => rfl
  | i32 => exact (hscan _).answers fun _ => rfl
  | u64 => exact (hscan _).answers fun _ => rfl
  | copy n => exact (reaching_copyNext n hid).answers fun _ => rfl
  | borrow n => exact (reaching_borrowNext n hid).answers fun _ => rfl
  | align n => exact (hscan _).answers fun _ => rfl
  | field vec stride policy =>
    refine Spreading.answers ?_ fun _ => rfl
    exact ((taking_readField hstep vec stride policy rfl).mono fun _ _ _ => trivial).imp fun _ h => h.of_lent hlent
  | bundle policy =>
    refine Spreading.answers ?_ fun _ => rfl
    exact ((taking_decode hstep policy rfl).mono fun _ _ _ => trivial).imp fun _ h => h.of_lent hlent

theorem spreading_changeWriter (id : Nat) (change : World → Writer → Except Fault Writer) :
    Spreading named (changeWriter id change) w :=
  Leads.get_bind (Leads.ofExcept_bind (fun _ _ => trivial) fun _ _ =>
    leads_set (spreads_of_eq le_rfl rfl rfl rfl rfl) trivial)

theorem spreading_writerCommand (id : Nat) (c : WriterCommand) : Answering named (c.run id) w := by
  cases c with
  | word32 value => exact (spreading_changeWriter id _).answers fun _ => rfl
  | word64 value => exact (spreading_changeWriter id _).answers fun _ => rfl
  | bytes range => exact (spreading_changeWriter id _).answers fun _ => rfl
  | align n => exact (spreading_changeWriter id _).answers fun _ => rfl
  | field vec stride => exact (spreading_changeWriter id _).answers fun _ => rfl
  | join => exact Reaching.answers (Leads.get_bind (reaching_alloc _)) fun _ => rfl

section Stores

variable {store : Nat}

theorem reaching_fetch (path : Text) : Reaching named ByteRange.buffer (fetch store path) w := by
  have hfetch := w.fetching_fetch store path
  unfold Reaching Leads
  generalize fetch store path w = result at hfetch
  cases hfetch with
  | missing => exact ⟨refl_of (Spreads named) w, trivial⟩
  | shared hs hf hshares => exact ⟨refl_of (Spreads named) w, Or.inl (Or.inr (.stored store hs hf hshares))⟩
  | copied => exact ⟨spreads_alloc w _, w.inReach_alloc _⟩

/-- What is lent of a store is lent where it was fetched. -/
theorem spreading_lendFile (path : Text) :
    Leads (Spreads named) (fun _ => True) (lendFile store path) w fun region w' =>
      ∃ held, w'.lentBytes region = .ok held := by
  have hfetch := w.fetching_fetch store path
  cases hr : fetch store path w with
  | error e w₁ =>
    rw [hr] at hfetch
    cases hfetch
    exact leads_of_error (bind_error hr) (refl_of (Spreads named) w) trivial
  | ok r w₁ =>
    rw [hr] at hfetch
    have hrun := bind_ok (f := fun r => lend r path) hr
    cases hfetch with
    | shared hs hf hshares =>
      rcases lend_cases w r path with ⟨-, h⟩ | ⟨⟨-, hplain⟩, -⟩
      · refine leads_of_ok (hrun.trans h) ?_ ⟨r, lentBytes_push ..⟩
        exact spreads_pushRegion (m := w.memory) le_rfl (Or.inl (.stored store hs hf hshares))
      · exact nomatch hshares.symm.trans hplain
    | @copied contents =>
      rcases lend_cases { w with memory := (w.memory.alloc contents).2 } (w.memory.alloc contents).1 path with
        ⟨-, h⟩ | ⟨⟨hmoves, -⟩, -⟩
      · refine leads_of_ok (hrun.trans h) ?_ ⟨_, lentBytes_push ..⟩
        refine spreads_pushRegion (Memory.grows_alloc w.memory _).size_le (Or.inr (Or.inr ?_))
        exact ⟨le_rfl, w.memory.lt_size_alloc contents⟩
      · exact absurd (Nat.zero_mod boundary) hmoves

theorem spreading_openInPlace (path : Text) (policy : Bundle.Policy) :
    Spreading named (openInPlace store path policy) w := by
  refine (spreading_lendFile path).bind fun region w₁ _ ⟨held, hopen⟩ => ?_
  have hlent : w₁.Lent held.buffer := .held region (lentBytes_ok hopen)
  have hborrower : Leads (Spreads named) (fun _ => True) (newBorrower region) w₁ fun reader w₂ =>
      w₂.Over reader held ∧ w₂.Lent held.buffer :=
    leads_of_ok (newBorrower_ok hopen) (spreads_pushReader (Or.inl hlent))
      ⟨over_pushReader .., .held region (lentBytes_ok hopen)⟩
  refine hborrower.bind fun reader w₂ _ ⟨hover, hlent₂⟩ => ?_
  have htakes : ∀ u u', TakesFrom held u u' → u.Spreads (fun b => b = held.buffer) u' := fun _ _ h =>
    spreads_of_takes rfl h
  have hdecode : Leads (Spreads fun b => b = held.buffer) (fun _ => True) (Bundle.decode reader policy) w₂
      fun _ w' => w'.Over reader held := taking_decode htakes policy hover
  refine Leads.map (hdecode.imp fun _ h => h.of_lent ?_)
  rintro b rfl
  exact Or.inl hlent₂

theorem spreading_storeCommand {c : StoreCommand} (hc : ∀ r ∈ c.given?, named r.buffer) :
    Answering named (c.run store) w := by
  have hquiet : Spreading named (c.run store) w := by
    refine leads_storeCommand_keeping (P := fun u r => r.shares = true → u.Lent r.buffer ∨ named r.buffer)
      (I := fun _ => True) spreads_alloc (fun _ _ h => h)
      (fun u contents r h hr => (h hr).imp_left fun hl => ?_) (fun _ _ _ h => nomatch h)
      (fun u => u.keptAs_lent store) (fun _ _ h => spreads_setStore store h) trivial
      (fun r hr _ _ _ _ => Or.inr (hc r hr)) (fun path => (spreading_lendFile path).mono fun _ _ _ => trivial)
      fun path policy _ => spreading_openInPlace path policy
    exact hl.congr rfl rfl rfl rfl
  cases c with
  | fetch path => exact (reaching_fetch path).answers fun _ => rfl
  | put path contents => exact Spreading.silent (x := putFile store path contents) hquiet fun _ => rfl
  | replace path contents => exact Spreading.silent (x := replaceFile store path contents) hquiet fun _ => rfl
  | replaceImposing path contents imposed =>
    exact Spreading.silent (x := replaceFileImposing store path contents imposed) hquiet fun _ => rfl
  | discard path => exact Spreading.silent (x := discardFile store path) hquiet fun _ => rfl
  | makeDir full => exact Spreading.silent (x := World.makeDir store full) hquiet fun _ => rfl
  | lend path => exact Spreading.silent (x := lendFile store path) hquiet fun _ => rfl
  | save path fields => exact Spreading.silent (x := storeBundle store path fields) hquiet fun _ => rfl
  | openInPlace path policy => exact Spreading.silent (x := World.openInPlace store path policy) hquiet fun _ => rfl

end Stores

section Vectors

variable {id : Nat}

theorem spreading_attach {view : View} (region : Nat) (hv : named view.buffer) :
    Spreading named (attach id view region) w := by
  apply spreading_of_after
  unfold Action.after
  rw [attach_eq]
  split_ifs
  · exact refl_of (Spreads named) w
  · refine spreads_hold id w.promotions (m := w.memory) le_rfl fun other lender he => Or.inr ?_
    cases he
    exact hv
  · exact refl_of (Spreads named) w

/-- A view that is shared is over storage, or it is borrowed, or it is of a new buffer without bytes. -/
theorem reaching_shareView : Reaching named View.buffer (shareView id) w := by
  refine Leads.get_bind (Leads.ofExcept_bind (fun _ _ => trivial) fun view hview => ?_)
  have hserial : ∀ u, w.memory.buffers.size ≤ u.memory.buffers.size → w.InReach named u view.buffer →
      Leads (Spreads named) (fun _ => True) (nextSerial >>= fun _ => (pure view : Action View)) u
        fun v w' => w.InReach named w' v.buffer := fun u _ hreach =>
    leads_of_ok rfl (spreads_of_eq le_rfl rfl rfl rfl rfl) hreach
  by_cases hm : (w.vec id).mode = .empty
  · rw [if_pos hm]
    have hholding := Vec.mode_eq_empty.1 hm
    rw [viewOf_of_empty hholding] at hview
    cases hview
    exact Leads.bind (p := fun _ u => w.memory.buffers.size < u.memory.buffers.size)
      (leads_of_ok rfl (spreads_alloc w []) (w.memory.lt_size_alloc []))
      fun _ u _ hlt => hserial u hlt.le (Or.inr (Or.inr ⟨le_rfl, hlt⟩))
  · rw [if_neg hm]
    refine hserial w le_rfl (Or.inl ?_)
    cases viewing_of_viewOf hview with
    | owned hh => exact reaches_storage (storage?_vec_of_owned hh)
    | empty hh => exact absurd (Vec.mode_eq_empty.2 hh) hm
    | borrowed hh => exact Or.inr (.borrowed id hh)

/-- The storage of a vector that has been taken to owned storage was its own, or it is new. -/
theorem inReach_of_own {a : Growable} (h : own id w = .ok a w') : w.InReach named w' a.buffer := by
  have howning := w.owning_own id
  rw [h] at howning
  cases howning with
  | owned hh => exact Or.inl (reaches_storage (storage?_vec_of_owned hh))
  | empty => exact Or.inr (Or.inr ⟨le_rfl, (Growable.fresh_ofWords ..).buffer_lt⟩)
  | promoted => exact Or.inr (Or.inr ⟨le_rfl, (Growable.fresh_ofWords ..).buffer_lt⟩)

theorem reaching_writableView : Reaching named View.buffer (writableView id) w := by
  have hspreads : w.Spreads named ((writableView id).after w) := spreads_rewrites rewrites_writableView
  cases h : own id w with
  | error e w₁ =>
    have hrun := writableView_of_error h
    rw [after_error hrun] at hspreads
    exact leads_of_error hrun hspreads trivial
  | ok a w₁ =>
    have hrun := writableView_ok h
    rw [after_ok hrun] at hspreads
    have hreach : w.InReach named w₁ a.buffer := inReach_of_own h
    exact leads_of_ok hrun hspreads hreach

theorem spreading_swapWith (array : Nat) : Spreading named (swapWith id array) w := by
  apply spreading_of_after
  by_cases hk : (w.vec id).kind = (w.array array).kind
  · cases h : own id w with
    | error e w₁ =>
      rw [after_error (swapWith_of_error hk h), own_error h]
      exact refl_of (Spreads named) w
    | ok a w₁ =>
      rw [after_ok (swapWith_ok hk h)]
      obtain ⟨m, p, rfl, hr⟩ := own_ok h
      have hown : w.Spreads named (w.withOwned id a m p) := spreads_withOwned id a p hr.grows.size_le
      exact hown.trans ((spreads_withOwned id _ p (m := m) le_rfl).trans (spreads_of_eq le_rfl rfl rfl rfl rfl))
  · rw [after_error (swapWith_of_ne hk)]
    exact refl_of (Spreads named) w

theorem spreading_vecCommand {c : VecCommand} (hc : ∀ b ∈ c.buffers, named b) : Answering named (c.run id) w := by
  apply Leads.get_bind
  have hedit : ∀ {γ : Type} {x : Action γ}, w.Rewrites id (x.after w) → Spreading named x w := fun h =>
    spreading_of_after (spreads_rewrites h)
  cases c with
  | attach view region =>
    exact (spreading_attach region (hc view.buffer (List.mem_singleton_self _))).answers fun _ => rfl
  | item index => exact (spreading_ask _).answers fun _ => rfl
  | unchecked index => exact (spreading_ask _).answers fun _ => rfl
  | front => exact (spreading_ask _).answers fun _ => rfl
  | back => exact (spreading_ask _).answers fun _ => rfl
  | toList => exact (spreading_ask _).answers fun _ => rfl
  | share => exact reaching_shareView.answers fun _ => rfl
  | isView view => exact (spreading_ask _).answers fun _ => rfl
  | writable => exact reaching_writableView.answers fun _ => rfl
  | set index value => exact (hedit (rewrites_setAt index value)).answers fun _ => rfl
  | push value => exact (hedit (rewrites_push value)).answers fun _ => rfl
  | pop => exact (hedit rewrites_pop).answers fun _ => rfl
  | resize length fill => exact (hedit (rewrites_resize length fill)).answers fun _ => rfl
  | swap array => exact (spreading_swapWith array).answers fun _ => rfl
  | clear =>
    refine Spreading.answers (spreading_of_after ?_) fun _ => rfl
    exact spreads_hold id w.promotions (m := w.memory) le_rfl fun _ _ he => nomatch he
  | iterate =>
    exact Spreading.answers (spreading_of_after (spreads_of_eq le_rfl rfl rfl rfl rfl)) fun _ => rfl

end Vectors

section Arrays

variable {id : Nat}

theorem spreading_changeArray {change : Memory → Growable → Except Fault (Growable × Memory)}
    (hc : ∀ m a a' m', change m a = .ok (a', m') → Growable.Updates m a m' a') :
    Spreading named (changeArray id change) w := by
  apply spreading_of_after
  cases hr : change w.memory (w.array id) with
  | error e =>
    rw [after_error (changeArray_error hr)]
    exact refl_of (Spreads named) w
  | ok r =>
    rw [after_ok (changeArray_ok hr)]
    exact spreads_of_eq (hc _ _ _ _ hr).grows.size_le rfl rfl rfl rfl

theorem spreading_reserve (extra : Binary64) : Spreading named (reserve id extra) w := by
  apply spreading_of_after
  cases hr : (w.array id).reserve w.memory extra with
  | error e =>
    rw [after_error (reserveArray_error hr)]
    exact refl_of (Spreads named) w
  | ok r =>
    rw [after_ok (reserveArray_ok hr)]
    exact spreads_of_eq (Growable.updates_reserve hr).grows.size_le rfl rfl rfl rfl

theorem spreading_swapArrays (other : Nat) : Spreading named (swapArrays id other) w :=
  Leads.get_bind (Leads.ofExcept_bind (fun _ _ => trivial) fun _ _ =>
    leads_set (spreads_of_eq le_rfl rfl rfl rfl rfl) trivial)

theorem spreading_arrayCommand {c : ArrayCommand} (hid : id < w.arrays.size) : Answering named (c.run id) w := by
  cases c with
  | reserve extra => exact (spreading_reserve extra).answers fun _ => rfl
  | push value =>
    exact Spreading.answers (leads_pushArray trivial
      (spreading_changeArray fun _ _ _ _ h => Growable.updates_push h) (spreading_reserve 1)) fun _ => rfl
  | pop =>
    exact Leads.get_bind (Spreading.answers (spreading_of_after (spreads_of_eq le_rfl rfl rfl rfl rfl)) fun _ => rfl)
  | resize length fill =>
    exact Spreading.answers (leads_resizeArray trivial
      (spreading_changeArray fun _ _ _ _ h => Growable.updates_resize h) (spreading_reserve _)) fun _ => rfl
  | share =>
    have hshare : Reaching named View.buffer (shareArray id) w :=
      leads_of_ok rfl (spreads_of_eq le_rfl rfl rfl rfl rfl) (Or.inl (reaches_storage (storage?_array hid)))
    exact hshare.answers fun _ => rfl
  | clear =>
    refine Spreading.answers (spreading_changeArray fun m a a' m' h => ?_) fun _ => rfl
    cases h
    exact Growable.updates_clear m a
  | release =>
    refine Spreading.answers (spreading_changeArray fun m a a' m' h => ?_) fun _ => rfl
    cases h
    exact Growable.updates_release m a
  | swap other => exact (spreading_swapArrays other).answers fun _ => rfl

end Arrays

theorem spreading_setElement (v : View) (index : Binary64) (value : Scalar) :
    Spreading named (setElement v index value) w :=
  Leads.demand_bind trivial fun _ =>
    leads_of_ok rfl (spreads_of_eq (Memory.grows_setElement ..).size_le rfl rfl rfl rfl) trivial

theorem spreading_addVec {a : Growable} {m : Memory} (checked : Bool) (h : Growable.Fresh w.memory m a) :
    Spreading named (addVec a m checked) w :=
  leads_of_ok rfl (spreads_pushVec h.grows.size_le fun _ _ he => nomatch he) trivial

theorem spreading_addArray {a : Growable} {m : Memory} (h : Growable.Fresh w.memory m a) :
    Spreading named (addArray a m) w := leads_of_ok rfl (spreads_of_eq h.grows.size_le rfl rfl rfl rfl) trivial

end World

/-- The arrays and readers that a command names are there, and it names no other buffers than these. -/
structure Command.Within (known : Nat → Prop) (w : World) (c : Command) : Prop where
  named : c.Named w
  reader : ∀ id command, c = .reader id command → id < w.readers.size
  buffers : ∀ b ∈ c.buffers, known b

namespace World

open LeaseVec.Action

variable {named known : Nat → Prop} {w w' : World} {b : Nat} {c : Command}

theorem spreading_command (hc : c.Within named w) : Answering named c.run w := by
  have hb : ∀ b ∈ c.buffers, named b := hc.buffers
  cases c with
  | alloc contents => exact (reaching_alloc contents).answers fun _ => rfl
  | duplicate range => exact Leads.get_bind ((reaching_alloc _).answers fun _ => rfl)
  | poke range index value =>
    exact (spreading_setElement ⟨.u8, range.buffer, range.offset, range.length, 0⟩ ..).answers fun _ => rfl
  | view kind buffer offset length =>
    exact (reaching_view kind offset length (hb buffer (List.mem_singleton_self _))).answers fun _ => rfl
  | setElement v index value => exact (spreading_setElement v index value).answers fun _ => rfl
  | lend range label =>
    exact (spreading_lend label (hb range.buffer (List.mem_singleton_self _))).answers fun _ => rfl
  | lentBytes region =>
    have hlent : Reaching named ByteRange.buffer (ask fun w => w.lentBytes region) w := by
      apply Leads.get_bind
      show Reaching named ByteRange.buffer (Action.ofExcept (w.lentBytes region)) w
      cases h : w.lentBytes region with
      | error e => exact leads_throw trivial
      | ok r => exact leads_pure (Or.inl (Or.inr (.held region (lentBytes_ok h))))
    exact hlent.answers fun _ => rfl
  | close region => exact Spreading.answers (spreading_of_after (spreads_close region)) fun _ => rfl
  | newVec kind checked =>
    have hnew : Spreading named (newVec kind checked) w :=
      leads_of_ok rfl (spreads_pushVec (m := w.memory) le_rfl fun _ _ he => nomatch he) trivial
    exact hnew.answers fun _ => rfl
  | vecOfList kind values checked =>
    exact Spreading.answers (Leads.demand_bind trivial fun _ =>
      Leads.get_bind (spreading_addVec checked (Growable.fresh_ofWords ..))) fun _ => rfl
  | vecOfView kind v checked =>
    exact Spreading.answers (Leads.demand_bind trivial fun _ =>
      Leads.get_bind (spreading_addVec checked (Growable.fresh_ofWords ..))) fun _ => rfl
  | vec id c => exact spreading_vecCommand hb
  | next iteration =>
    refine Leads.get_bind (Spreading.answers (spreading_of_after ?_) fun _ => rfl)
    rcases next_cases w iteration with h | ⟨i, h⟩
    · rw [h]
      exact refl_of (Spreads named) w
    · rw [h]
      exact spreads_of_eq le_rfl rfl rfl rfl rfl
  | newArray kind length fill =>
    exact Spreading.answers (Leads.get_bind (Leads.ofExcept_bind (fun _ _ => trivial) fun r hr =>
      spreading_addArray (Growable.fresh_create hr))) fun _ => rfl
  | arrayOfList kind values =>
    exact Spreading.answers (Leads.demand_bind trivial fun _ =>
      Leads.get_bind (spreading_addArray (Growable.fresh_ofWords ..))) fun _ => rfl
  | arrayOfView kind v =>
    exact Spreading.answers (Leads.demand_bind trivial fun _ =>
      Leads.get_bind (spreading_addArray (Growable.fresh_ofWords ..))) fun _ => rfl
  | array id c =>
    refine spreading_arrayCommand ?_
    have hnamed := hc.named
    cases c with
    | swap other => exact hnamed.1
    | _ => exact hnamed
  | newReader source =>
    have hsource := hb source.buffer (List.mem_singleton_self _)
    exact Spreading.answers (spreading_of_after (spreads_pushReader (Or.inr hsource))) fun _ => rfl
  | newBorrower region => exact (spreading_newBorrower region).answers fun _ => rfl
  | reader id c => exact spreading_readerCommand c (hc.reader id c rfl)
  | newWriter => exact Spreading.answers (spreading_of_after (spreads_of_eq le_rfl rfl rfl rfl rfl)) fun _ => rfl
  | writer id c => exact spreading_writerCommand id c
  | encode fields =>
    have hencode : Answering named (Action.ofExcept (Bundle.encode w fields) >>= fun contents =>
        alloc contents >>= fun r => pure (Reply.range r)) w :=
      Leads.ofExcept_bind (fun _ _ => trivial) fun contents _ => (reaching_alloc contents).answers fun _ => rfl
    exact hencode
  | decodeCopy source policy =>
    have hsource := hb source.buffer (List.mem_singleton_self _)
    exact Spreading.answers (leads_decodeCopy (spreads_pushReader (Or.inr hsource))
      (fun _ _ => spreads_of_takes hsource) policy) fun _ => rfl
  | newMemory files =>
    refine Spreading.answers ?_ fun _ => rfl
    refine leads_newMemory_keeping (P := fun u r => r.shares = true → u.Lent r.buffer ∨ named r.buffer)
      (I := fun _ => True) spreads_alloc (fun _ _ h => h)
      (fun u contents r h hr => (h hr).imp_left fun hl => ?_) (fun _ _ _ h => nomatch h)
      (fun _ _ h => spreads_pushStore h) trivial
      fun f hf _ _ => Or.inr (hb f.2.buffer (List.mem_map.2 ⟨f, hf, rfl⟩))
    exact hl.congr rfl rfl rfl rfl
  | newDisk disk =>
    exact Spreading.answers (spreading_of_after (spreads_pushStore (keptAs_disk _ disk))) fun _ => rfl
  | store id c =>
    exact spreading_storeCommand fun r hr => hb r.buffer (List.mem_map.2 ⟨r, Option.mem_toList.2 hr, rfl⟩)

theorem spreads_perform (hc : c.Within named w) : w.Spreads named (w.perform c).2 := by
  rw [perform_snd]
  exact (spreading_command hc).after

/-- What a command adopts was lent, or it is named. -/
theorem Adopts.reaches (h : w.Adopts c b) (hc : c.Within named w) : w.Lent b ∨ named b := by
  cases h with
  | field => exact Or.inl (.source _ (hc.reader _ _ rfl))
  | bundle => exact Or.inl (.source _ (hc.reader _ _ rfl))
  | decodeCopy => exact Or.inr (hc.buffers _ (List.mem_singleton_self _))
  | openInPlace files_eq found shares => exact Or.inl (.stored _ files_eq found shares)

/-- What a command is aimed at it names. -/
theorem named_of_target (hc : c.Within named w) (h : c.target? = some b) : named b := by
  cases c with
  | poke range => exact Option.some.inj h ▸ hc.buffers _ (List.mem_singleton_self _)
  | setElement v => exact Option.some.inj h ▸ hc.buffers _ (List.mem_singleton_self _)
  | _ => cases h

/-- What is known behind an outcome: what was known before it, and the buffer that the answer names. -/
def learned (known : Nat → Prop) (outcome : Except Fault Reply) (b : Nat) : Prop :=
  known b ∨ ∃ reply, outcome = .ok reply ∧ reply.buffer? = some b

/-- Every command of a history keeps within what is known, and each answer adds to that. -/
def Knowing (known : Nat → Prop) (w : World) : List Command → Prop
  | [] => True
  | c :: rest => c.Within known w ∧ (w.perform c).2.Knowing (learned known (w.perform c).1) rest

/-- What is known after a history. -/
def knownAfter (known : Nat → Prop) (w : World) : List Command → Nat → Prop
  | [] => known
  | c :: rest => (w.perform c).2.knownAfter (learned known (w.perform c).1) rest

theorem knowing_append {before after : List Command} : w.Knowing known (before ++ after) ↔
    w.Knowing known before ∧ (w.performAll before).2.Knowing (w.knownAfter known before) after := by
  induction before generalizing w known with
  | nil => exact ⟨fun h => ⟨trivial, h⟩, And.right⟩
  | cons c rest ih => exact (and_congr_right fun _ => ih).trans and_assoc.symm

theorem knownAfter_append (known : Nat → Prop) (w : World) (before after : List Command) :
    w.knownAfter known (before ++ after) =
      (w.performAll before).2.knownAfter (w.knownAfter known before) after := by
  induction before generalizing w known with
  | nil => rfl
  | cons c rest ih => exact ih ..

/-- Everything that can be reached or is known exists. -/
structure Contained (known : Nat → Prop) (w : World) : Prop where
  reached : ∀ b, w.Reaches b → b < w.memory.buffers.size
  known : ∀ b, known b → b < w.memory.buffers.size

theorem contained_empty (limit : AllocationLimit) : (empty limit).Contained fun _ => False where
  reached := by
    rintro b (⟨o, a, ha, rfl⟩ | hb)
    · exact stored_empty limit o a ha
    · cases hb with
      | held _ h => cases h
      | source _ lt => exact absurd lt (Nat.not_lt_zero _)
      | borrowed _ h => cases h
      | stored _ hf hr => cases hf; cases hr
  known := fun _ h => h.elim

theorem Contained.inReach_lt (h : w.Contained known) (hs : w.memory.buffers.size ≤ w'.memory.buffers.size)
    (hb : w.InReach known w' b) : b < w'.memory.buffers.size := by
  rcases hb with hreached | hknown | hnew
  · exact (h.reached b hreached).trans_le hs
  · exact (h.known b hknown).trans_le hs
  · exact hnew.2

/-- An answer names nothing but what was in reach. -/
theorem inReach_of_learned (hc : c.Within known w) (h : learned known (w.perform c).1 b) :
    w.InReach known (w.perform c).2 b := by
  rcases h with hknown | ⟨reply, hreply, hb⟩
  · exact Or.inr (Or.inl hknown)
  · have hanswer := spreading_command hc
    unfold Answering Leads at hanswer
    unfold perform at hreply ⊢
    cases hrun : c.run w with
    | ok answer w' =>
      rw [hrun] at hanswer hreply
      cases hreply
      exact hanswer.2 b hb
    | error e w' =>
      rw [hrun] at hreply
      cases hreply

theorem Contained.perform (h : w.Contained known) (hc : c.Within known w) :
    (w.perform c).2.Contained (learned known (w.perform c).1) := by
  have hspreads := spreads_perform hc
  refine ⟨fun b hb => ?_, fun b hb => h.inReach_lt hspreads.size_le (inReach_of_learned hc hb)⟩
  rcases hb with ⟨o, a, ha, rfl⟩ | hlent
  · have hstored : w.Stored := fun o a ha => h.reached _ (reaches_storage ha)
    refine (touches_perform hc.named).stored (fun b hb => ?_) hstored o a ha
    exact (hb.reaches hc).elim (fun hlent => h.reached b (Or.inr hlent)) (h.known b)
  · exact h.inReach_lt hspreads.size_le ((hspreads.lent b hlent).imp_left Or.inr)

theorem Contained.performAll (h : w.Contained known) {history : List Command} (hk : w.Knowing known history) :
    (w.performAll history).2.Contained (w.knownAfter known history) := by
  induction history generalizing w known with
  | nil => exact h
  | cons c rest ih => exact ih (h.perform hk.1) hk.2

/-- A buffer that exists and is neither reached by way of the world nor known. -/
structure Secret (known : Nat → Prop) (w : World) (b : Nat) : Prop where
  lt : b < w.memory.buffers.size
  unreached : ¬ w.Reaches b
  unknown : ¬ known b

theorem Secret.not_inReach (h : w.Secret known b) : ¬ w.InReach known w' b := by
  rintro (hreached | hknown | hnew)
  · exact h.unreached hreached
  · exact h.unknown hknown
  · exact absurd h.lt (not_lt.2 hnew.1)

/-- A command that keeps within what is known neither finds out a secret buffer nor writes it. -/
theorem Secret.perform (h : w.Secret known b) (hc : c.Within known w) :
    (w.perform c).2.Secret (learned known (w.perform c).1) b ∧
      (w.perform c).2.memory.buffer b = w.memory.buffer b := by
  have htouches := touches_perform hc.named
  have hspreads := spreads_perform hc
  have hadopted : ¬ w.Adopts c b := fun ha =>
    (ha.reaches hc).elim (fun hlent => h.unreached (Or.inr hlent)) h.unknown
  have hheld : ¬ w.InHands c.owners b := fun ⟨o, a, _, ha, he⟩ => h.unreached (Or.inl ⟨o, a, ha, he⟩)
  refine ⟨⟨h.lt.trans_le hspreads.size_le, ?_, fun hb => h.not_inReach (inReach_of_learned hc hb)⟩, ?_⟩
  · rintro (⟨o, a, ha, rfl⟩ | hlent)
    · rcases htouches.storage o a ha with hold | (⟨-, hhands⟩ | hgiven) | hnew
      · exact h.unreached (reaches_storage hold)
      · exact hheld hhands
      · exact hadopted hgiven
      · exact absurd h.lt (not_lt.2 hnew)
    · exact h.not_inReach ((hspreads.lent b hlent).imp_left Or.inr)
  · refine htouches.frame b h.lt ?_
    rintro (haimed | hhands | hgiven)
    · exact h.unknown (named_of_target hc haimed)
    · exact hheld hhands
    · exact hadopted hgiven

/-- Whatever is done by those who keep within what they know, a secret buffer stays secret and as it is. -/
theorem Secret.performAll (h : w.Secret known b) {history : List Command} (hk : w.Knowing known history) :
    (w.performAll history).2.Secret (w.knownAfter known history) b ∧
      (w.performAll history).2.memory.buffer b = w.memory.buffer b := by
  induction history generalizing w known with
  | nil => exact ⟨h, rfl⟩
  | cons c rest ih =>
    obtain ⟨hsecret, hsame⟩ := h.perform hk.1
    obtain ⟨hend, hsame'⟩ := ih hsecret hk.2
    exact ⟨hend, hsame'.trans hsame⟩

end World

end LeaseVec
