import LeaseVec.Proofs.Files.Replacing
import LeaseVec.Proofs.Memory.Frame
import LeaseVec.Proofs.World.Leads

/-!
# What stores do

A memory store and a disk have one thing in common: a path leads to bytes. What is fetched has these bytes, and
storing puts bytes there. The difference is where the bytes lie. A disk has them to itself. A memory store has
a range, which is new when it was sliced from plain bytes and is the caller's own when the bytes share.
-/

namespace LeaseVec

/-- The bytes that a store is given. -/
def StoreCommand.given? : StoreCommand → Option ByteRange
  | put _ contents | replace _ contents | replaceImposing _ contents _ => some contents
  | _ => none

namespace World

variable {w w' : World} {store : Nat} {path : Text} {bytes : Bytes}

/-- What a path leads to in a store, as bytes. -/
def fileBytes (w : World) (store : Nat) (path : Text) : Except Fault Bytes :=
  match w.store store with
  | .memory files => (Store.lookUp files path).map w.bytes
  | .disk d => d.read path

/-- How fetching a file can end: there is none, or the answer is the stored range itself, or new bytes. -/
inductive Fetching (w : World) (store : Nat) (path : Text) : EStateM.Result Fault World ByteRange → Prop where
  | missing {e : Fault} (read : w.fileBytes store path = .error e) : Fetching w store path (.error e w)
  | shared {files : List (Text × ByteRange)} {r : ByteRange} (files_eq : w.store store = .memory files)
      (found : Store.find? files path = some r) (shares : r.shares = true)
      (read : w.fileBytes store path = .ok (w.bytes r)) : Fetching w store path (.ok r w)
  | copied {contents : Bytes} (read : w.fileBytes store path = .ok contents) :
    Fetching w store path (.ok (w.memory.alloc contents).1 { w with memory := (w.memory.alloc contents).2 })

/-- Where what is fetched lies: it is the stored range itself, or it is in a new buffer. -/
inductive Fetched (w : World) (store : Nat) (path : Text) (r : ByteRange) : Prop where
  | shared {files : List (Text × ByteRange)} (files_eq : w.store store = .memory files)
      (found : Store.find? files path = some r) (shares : r.shares = true)
  | copied (plain : r.shares = false) (offset_eq : r.offset = 0) (fresh : w.memory.buffers.size ≤ r.buffer)

theorem fetching_fetch (w : World) (store : Nat) (path : Text) : w.Fetching store path (fetch store path w) := by
  unfold fetch
  rw [Action.bind_ok (x := get) rfl]
  cases hs : w.store store with
  | disk d =>
    have hread : w.fileBytes store path = d.read path := by simp only [fileBytes, hs]
    show w.Fetching store path ((Action.ofExcept (d.read path) >>= alloc) w)
    cases hd : d.read path with
    | error e => exact .missing (hread.trans hd)
    | ok contents => exact .copied (hread.trans hd)
  | memory files =>
    have hread : w.fileBytes store path = (Store.lookUp files path).map w.bytes := by
      simp only [fileBytes, hs]
    show w.Fetching store path ((Action.ofExcept (Store.lookUp files path) >>= slice) w)
    unfold Store.lookUp at hread ⊢
    cases hf : Store.find? files path with
    | none =>
      rw [hf] at hread
      exact .missing hread
    | some r =>
      rw [hf] at hread
      show w.Fetching store path (slice r w)
      rcases slice_cases w r with ⟨hshares, h⟩ | ⟨-, h⟩
      · rw [h]
        exact .shared hs hf hshares hread
      · rw [h]
        exact .copied hread

/-- Where there is a file it is fetched: memory is added to at most, and the answer has the bytes. -/
theorem fetch_ok (h : w.fileBytes store path = .ok bytes) : ∃ r m, fetch store path w = .ok r { w with memory := m } ∧
    w.memory.Grows m ∧ w.memory.Frame (fun _ => False) m ∧ m.read r = bytes := by
  have hfetch := w.fetching_fetch store path
  generalize fetch store path w = result at hfetch
  cases hfetch with
  | missing hread => exact nomatch h.symm.trans hread
  | @shared files r _ _ _ hread =>
    refine ⟨r, w.memory, rfl, Memory.Grows.refl _, Memory.Frame.refl _ _, ?_⟩
    exact Except.ok.inj (hread.symm.trans h)
  | copied hread =>
    cases h.symm.trans hread
    exact ⟨_, _, rfl, Memory.grows_alloc .., Memory.frame_alloc _ _ _, w.memory.read_alloc bytes⟩

theorem fetch_error {e : Fault} (h : w.fileBytes store path = .error e) : fetch store path w = .error e w := by
  have hfetch := w.fetching_fetch store path
  generalize fetch store path w = result at hfetch
  cases hfetch with
  | missing hread =>
    cases h.symm.trans hread
    rfl
  | shared _ _ _ hread => exact nomatch h.symm.trans hread
  | copied hread => exact nomatch h.symm.trans hread

/-- What is read from a store is in a store that there is. -/
theorem lt_of_fileBytes (h : w.fileBytes store path = .ok bytes) : store < w.stores.size := by
  by_contra hge
  have hnone : w.store store = default := by
    unfold World.store
    rw [Array.getD_eq_getD_getElem?, Array.getElem?_eq_none (not_lt.1 hge)]
    rfl
  unfold fileBytes at h
  rw [hnone] at h
  cases h

/-- How replacing a file can end: a memory store keeps a slice of the contents, and a disk takes them or fails. -/
inductive Replacing (w : World) (store : Nat) (path : Text) (contents : ByteRange) :
    EStateM.Result Fault World Unit → Prop where
  | kept {files : List (Text × ByteRange)} {r : ByteRange} {m : Memory} (files_eq : w.store store = .memory files)
      (sliced : slice contents w = .ok r { w with memory := m }) : Replacing w store path contents
    (.ok () ({ w with memory := m }.setStore store (.memory (Store.keep files path r))))
  | replaced {d : Disk} (disk_eq : w.store store = .disk d)
      (done : (d.replaceImposing path (w.bytes contents) []).1.outcome = .ok ()) : Replacing w store path contents
    (.ok () (w.setStore store (.disk (d.replaceImposing path (w.bytes contents) []).2)))
  | refused {d : Disk} {e : Fault} (disk_eq : w.store store = .disk d)
      (failed : (d.replaceImposing path (w.bytes contents) []).1.outcome = .error e) :
    Replacing w store path contents
    (.error e (w.setStore store (.disk (d.replaceImposing path (w.bytes contents) []).2)))

theorem replaceFileImposing_of_memory {files : List (Text × ByteRange)} (h : w.store store = .memory files)
    (contents : ByteRange) (imposed : List (Option Fault)) :
    replaceFileImposing store path contents imposed w =
      (keepFile store files path contents >>= fun _ => (pure ⟨.ok (), 0, []⟩ : Action Disk.ReplaceReport)) w := by
  unfold replaceFileImposing
  rw [Action.bind_ok (x := get) rfl]
  simp only [h]

theorem replaceFileImposing_of_disk {d : Disk} (h : w.store store = .disk d) (contents : ByteRange)
    (imposed : List (Option Fault)) :
    replaceFileImposing store path contents imposed w =
      .ok (d.replaceImposing path (w.bytes contents) imposed).1
        (w.setStore store (.disk (d.replaceImposing path (w.bytes contents) imposed).2)) := by
  unfold replaceFileImposing
  rw [Action.bind_ok (x := get) rfl]
  simp only [h]
  rfl

theorem replacing_replaceFile (w : World) (store : Nat) (path : Text) (contents : ByteRange) :
    w.Replacing store path contents (replaceFile store path contents w) := by
  unfold replaceFile
  cases hs : w.store store with
  | memory files =>
    have hkeep : ∀ {r : ByteRange} {m : Memory}, slice contents w = .ok r { w with memory := m } →
        replaceFileImposing store path contents [] w = .ok ⟨.ok (), 0, []⟩
          ({ w with memory := m }.setStore store (.memory (Store.keep files path r))) := fun h =>
      (replaceFileImposing_of_memory hs contents []).trans (Action.bind_ok (Action.bind_ok h))
    rcases slice_cases w contents with ⟨-, h⟩ | ⟨-, h⟩
    · rw [Action.bind_ok (hkeep h)]
      exact .kept hs h
    · rw [Action.bind_ok (hkeep h)]
      exact .kept hs h
  | disk d =>
    rw [Action.bind_ok (replaceFileImposing_of_disk hs contents [])]
    cases ho : (d.replaceImposing path (w.bytes contents) []).1.outcome with
    | ok u => exact .replaced hs ho
    | error e => exact .refused hs ho

/-- A slice has the bytes that it was made of, and making it at most adds to memory. -/
theorem slice_ok {r r' : ByteRange} {w' : World} (h : slice r w = .ok r' w') : ∃ m, w' = { w with memory := m } ∧
    w.memory.Grows m ∧ w.memory.Frame (fun _ => False) m ∧ m.read r' = w.bytes r := by
  rcases slice_cases w r with ⟨-, hs⟩ | ⟨-, hs⟩
  · cases h.symm.trans hs
    exact ⟨_, rfl, Memory.Grows.refl _, Memory.Frame.refl _ _, rfl⟩
  · cases h.symm.trans hs
    exact ⟨_, rfl, Memory.grows_alloc .., Memory.frame_alloc _ _ _, w.memory.read_alloc _⟩

theorem fileBytes_setStore (s : Store) (hlt : store < w.stores.size) (path : Text) :
    (w.setStore store s).fileBytes store path = match s with
      | .memory files => (Store.lookUp files path).map w.bytes
      | .disk d => d.read path := by
  unfold fileBytes
  rw [store_setStore, if_pos ⟨rfl, hlt⟩]
  cases s <;> rfl

/-- A path leads to what has been put in its place. -/
theorem Replacing.fileBytes_eq {contents : ByteRange} (h : w.Replacing store path contents (.ok () w'))
    (hlt : store < w.stores.size) : w'.fileBytes store path = .ok (w.bytes contents) := by
  cases h with
  | @kept files r m hs hslice =>
    obtain ⟨m', hm, -, -, hread⟩ := slice_ok hslice
    cases hm
    refine (fileBytes_setStore (w := { w with memory := m }) _ hlt path).trans ?_
    simp only [Store.lookUp, Store.find?_keep, if_true, Except.map]
    exact congrArg Except.ok hread
  | replaced hs hdone =>
    rw [fileBytes_setStore _ hlt]
    exact Disk.read_of_replace hdone

theorem storeBundle_error (store : Nat) (path : Text) {fields : List Bundle.Source} {e : Fault}
    (h : Bundle.encode w fields = .error e) : storeBundle store path fields w = .error e w := by
  unfold storeBundle
  rw [Action.bind_ok (x := get) rfl, h]
  rfl

/-- A bundle that has been encoded is stored as the bytes of a new buffer. -/
theorem storeBundle_eq (store : Nat) (path : Text) {fields : List Bundle.Source}
    (h : Bundle.encode w fields = .ok bytes) : storeBundle store path fields w =
      (replaceFile store path (w.memory.alloc bytes).1 >>= fun _ => (pure bytes.length : Action Nat))
        { w with memory := (w.memory.alloc bytes).2 } := by
  unfold storeBundle
  rw [Action.bind_ok (x := get) rfl, h]
  rfl

/-- A bundle is written only when it has been encoded. Then the path leads to it. -/
theorem storeBundle_ok {fields : List Bundle.Source} {size : Nat} (hlt : store < w.stores.size)
    (h : storeBundle store path fields w = .ok size w') :
    ∃ bytes, Bundle.encode w fields = .ok bytes ∧ size = bytes.length ∧
      w'.fileBytes store path = .ok bytes := by
  cases he : Bundle.encode w fields with
  | error e =>
    rw [storeBundle_error store path he] at h
    cases h
  | ok bytes =>
    rw [storeBundle_eq store path he] at h
    obtain ⟨u, w₁, hreplace, hdone⟩ := Action.bind_ok_iff.1 h
    cases hdone
    have hreplacing := replacing_replaceFile { w with memory := (w.memory.alloc bytes).2 } store path
      (w.memory.alloc bytes).1
    rw [hreplace] at hreplacing
    refine ⟨bytes, rfl, rfl, ?_⟩
    rw [hreplacing.fileBytes_eq hlt]
    exact congrArg Except.ok (w.memory.read_alloc bytes)

/-- What has been encoded is refused by a disk only. -/
theorem disk_of_storeBundle {fields : List Bundle.Source} {e : Fault} (he : Bundle.encode w fields = .ok bytes)
    (h : storeBundle store path fields w = .error e w') :
    ∃ d, w.store store = .disk d ∧ (d.replaceImposing path bytes []).1.outcome = .error e := by
  rw [storeBundle_eq store path he] at h
  have hreplacing := replacing_replaceFile { w with memory := (w.memory.alloc bytes).2 } store path
    (w.memory.alloc bytes).1
  cases hr : replaceFile store path (w.memory.alloc bytes).1 { w with memory := (w.memory.alloc bytes).2 } with
  | ok u w₁ =>
    rw [Action.bind_ok hr] at h
    cases h
  | error e' w₁ =>
    rw [Action.bind_error hr] at h
    cases h
    rw [hr] at hreplacing
    cases hreplacing with
    | @refused d _ hd hfailed =>
      refine ⟨d, hd, ?_⟩
      rwa [show ({ w with memory := (w.memory.alloc bytes).2 } : World).bytes (w.memory.alloc bytes).1 = bytes from
        w.memory.read_alloc bytes] at hfailed

/-- Something is known of every range that a memory store keeps. -/
def KeptAs (P : ByteRange → Prop) (s : Store) : Prop :=
  ∀ files path r, s = .memory files → Store.find? files path = some r → P r

section

variable {P Q : ByteRange → Prop} {files : List (Text × ByteRange)} {s : Store}

theorem keptAs_disk (P : ByteRange → Prop) (d : Disk) : KeptAs P (.disk d) := fun _ _ _ h => nomatch h

theorem KeptAs.mono (h : KeptAs P s) (hpq : ∀ r, P r → Q r) : KeptAs Q s :=
  fun files path r hs hr => hpq r (h files path r hs hr)

theorem KeptAs.keep (h : KeptAs P (.memory files)) (path : Text) {r : ByteRange} (hr : P r) :
    KeptAs P (.memory (Store.keep files path r)) := by
  rintro _ p r' ⟨⟩ hf
  rw [Store.find?_keep] at hf
  split_ifs at hf
  · cases hf
    exact hr
  · exact h files p r' rfl hf

theorem KeptAs.without (h : KeptAs P (.memory files)) (path : Text) :
    KeptAs P (.memory (Store.without files path)) := by
  rintro _ p r ⟨⟩ hf
  rw [Store.find?_without] at hf
  split_ifs at hf
  exact h files p r rfl hf

end

section Steps

open LeaseVec.Action

variable {α : Type} {R : World → World → Prop}

theorem leads_settle {step : Except Fault α × Disk}
    (hs : R w (w.setStore store (.disk step.2))) :
    Leads R (fun _ => True) (settle store step) w fun _ _ => True := by
  unfold settle
  cases step.1 with
  | ok a => exact leads_of_ok rfl hs trivial
  | error e => exact leads_of_error rfl hs trivial

variable [Std.Refl R]

/-- A slice adds to memory at most. -/
theorem leads_slice (hm : ∀ u contents, R u { u with memory := (u.memory.alloc contents).2 }) (r : ByteRange) :
    Leads R (fun _ => True) (slice r) w fun _ _ => True := by
  rcases slice_cases w r with ⟨-, h⟩ | ⟨-, h⟩
  · exact leads_of_ok h (refl_of R w) trivial
  · exact leads_of_ok h (hm w _) trivial

theorem leads_fetch (hm : ∀ u contents, R u { u with memory := (u.memory.alloc contents).2 }) (store : Nat)
    (path : Text) : Leads R (fun _ => True) (fetch store path) w fun r _ => w.Fetched store path r := by
  have hfetch := w.fetching_fetch store path
  unfold Leads
  cases hr : fetch store path w with
  | ok r w' =>
    rw [hr] at hfetch
    cases hfetch with
    | shared hs hf hshares => exact ⟨refl_of R w, .shared hs hf hshares⟩
    | copied => exact ⟨hm w _, .copied rfl rfl le_rfl⟩
  | error e w' =>
    rw [hr] at hfetch
    cases hfetch
    exact ⟨refl_of R w, trivial⟩

variable [IsTrans World R] {P : World → ByteRange → Prop} {I : World → Prop}

section Keeping

variable (hm : ∀ u contents, R u { u with memory := (u.memory.alloc contents).2 })
  (hi : ∀ (u : World) contents, I u → I { u with memory := (u.memory.alloc contents).2 })
  (hstay : ∀ u contents r, P u r → P { u with memory := (u.memory.alloc contents).2 } r)
  (hnew : ∀ (u : World) contents, I u →
    P { u with memory := (u.memory.alloc contents).2 } (u.memory.alloc contents).1)

include hm hi hstay hnew in
/-- The slices that a new store is to keep are made one after the other. -/
theorem leads_keepAll {files kept : List (Text × ByteRange)} (hw : I w)
    (hf : ∀ f ∈ files, f.2.shares = true → P w f.2) (hk : KeptAs (P w) (.memory kept)) :
    Leads R (fun _ => True) (files.foldlM (fun kept f => do return Store.keep kept f.1 (← slice f.2)) kept) w
      fun kept u => KeptAs (P u) (.memory kept) := by
  induction files generalizing w kept with
  | nil => exact leads_pure hk
  | cons f rest ih =>
    rw [List.foldlM_cons]
    have hrest : ∀ g ∈ rest, g.2.shares = true → P w g.2 := fun g hg => hf g (List.mem_cons_of_mem _ hg)
    refine Leads.bind (p := fun kept u => I u ∧ (∀ g ∈ rest, g.2.shares = true → P u g.2) ∧
      KeptAs (P u) (.memory kept)) ?_ fun _ u _ h => ih h.1 h.2.1 h.2.2
    rcases slice_cases w f.2 with ⟨hshares, h⟩ | ⟨-, h⟩
    · exact leads_of_ok (bind_ok h) (refl_of R w) ⟨hw, hrest, hk.keep f.1 (hf f (List.mem_cons_self ..) hshares)⟩
    · exact leads_of_ok (bind_ok h) (hm w _) ⟨hi w _ hw, fun g hg hs => hstay w _ _ (hrest g hg hs),
        (hk.mono (hstay w _)).keep f.1 (hnew w _ hw)⟩

include hm hi hstay hnew in
/-- A new memory store keeps the slices of what it is made of. -/
theorem leads_newMemory_keeping (hp : ∀ u s, KeptAs (P u) s → R u { u with stores := u.stores.push s })
    {files : List (Text × ByteRange)} (hw : I w) (hf : ∀ f ∈ files, f.2.shares = true → P w f.2) :
    Leads R (fun _ => True) (newMemory files) w fun _ _ => True :=
  (leads_keepAll hm hi hstay hnew hw hf fun _ _ _ h hr => by cases h; cases hr).bind fun _ u _ hk =>
    leads_of_ok rfl (hp u _ hk) trivial

variable (hheld : ∀ u, KeptAs (P u) (u.store store)) (hs : ∀ u s, KeptAs (P u) s → R u (u.setStore store s))

omit [Std.Refl R] in
include hm hstay hnew hheld hs in
theorem leads_keepFile {files : List (Text × ByteRange)} (path : Text) {r : ByteRange} (hw : I w)
    (hf : w.store store = .memory files) (hr : r.shares = true → P w r) :
    Leads R (fun _ => True) (keepFile store files path r) w fun _ _ => True := by
  have hkept : KeptAs (P w) (.memory files) := hf ▸ hheld w
  unfold keepFile
  rcases slice_cases w r with ⟨hshares, h⟩ | ⟨-, h⟩
  · exact leads_of_ok (bind_ok h) (hs w _ (hkept.keep path (hr hshares))) trivial
  · exact leads_of_ok (bind_ok h)
      (trans_of R (hm w _) (hs _ _ ((hkept.mono (hstay w _)).keep path (hnew w _ hw)))) trivial

omit [Std.Refl R] in
include hm hstay hnew hheld hs in
theorem leads_replaceFileImposing (path : Text) {r : ByteRange} (imposed : List (Option Fault)) (hw : I w)
    (hr : ∀ files, w.store store = .memory files → r.shares = true → P w r) :
    Leads R (fun _ => True) (replaceFileImposing store path r imposed) w fun _ _ => True := by
  apply Leads.get_bind
  cases hf : w.store store with
  | memory files => exact (leads_keepFile hm hstay hnew hheld hs path hw hf (hr files hf)).map
  | disk d => exact leads_settle (hs w _ (keptAs_disk _ _))

include hm hstay hnew hheld hs in
theorem leads_replaceFile (path : Text) {r : ByteRange} (hw : I w)
    (hr : ∀ files, w.store store = .memory files → r.shares = true → P w r) :
    Leads R (fun _ => True) (replaceFile store path r) w fun _ _ => True :=
  (leads_replaceFileImposing hm hstay hnew hheld hs path [] hw hr).bind fun report _ _ _ =>
    leads_ofExcept report.outcome

include hm hi hstay hnew hheld hs in
/-- A command of a store adds to memory, keeps what it is given and lends what it has read. -/
theorem leads_storeCommand_keeping {c : StoreCommand} (hw : I w)
    (hc : ∀ r ∈ c.given?, ∀ files, w.store store = .memory files → r.shares = true → P w r)
    (hlend : ∀ path, Leads R (fun _ => True) (lendFile store path) w fun _ _ => True)
    (hopen : ∀ path policy, c = .openInPlace path policy →
      Leads R (fun _ => True) (openInPlace store path policy) w fun _ _ => True) :
    Leads R (fun _ => True) (c.run store) w fun _ _ => True := by
  cases c with
  | fetch path => exact (leads_fetch hm store path).map
  | put path contents =>
    refine Leads.map (p := fun _ _ => True) (Leads.get_bind ?_)
    cases hf : w.store store with
    | memory files => exact leads_keepFile hm hstay hnew hheld hs path hw hf (hc contents rfl files hf)
    | disk d => exact leads_settle (hs w _ (keptAs_disk _ _))
  | replace path contents => exact (leads_replaceFile hm hstay hnew hheld hs path hw (hc contents rfl)).map
  | replaceImposing path contents imposed =>
    exact (leads_replaceFileImposing hm hstay hnew hheld hs path imposed hw (hc contents rfl)).map
  | discard path =>
    refine Leads.map (p := fun _ _ => True) (Leads.get_bind ?_)
    cases hf : w.store store with
    | memory files =>
      have hkept : KeptAs (P w) (.memory files) := hf ▸ hheld w
      exact leads_of_ok rfl (hs w _ (hkept.without path)) trivial
    | disk d => exact leads_settle (hs w _ (keptAs_disk _ _))
  | makeDir full =>
    refine Leads.map (p := fun _ _ => True) (Leads.get_bind ?_)
    cases w.store store with
    | memory files => exact leads_pure trivial
    | disk d => exact leads_settle (hs w _ (keptAs_disk _ _))
  | lend path => exact (hlend path).map
  | save path fields =>
    refine Leads.map (p := fun _ _ => True)
      (Leads.get_bind (Leads.ofExcept_bind (fun _ _ => trivial) fun bytes _ => ?_))
    refine Leads.bind (p := fun r u => I u ∧ P u r) (leads_of_ok rfl (hm w bytes) ⟨hi w bytes hw, hnew w bytes hw⟩)
      fun r u _ hr => ?_
    exact (leads_replaceFile hm hstay hnew hheld hs path hr.1 fun _ _ _ => hr.2).map
  | openInPlace path policy => exact (hopen path policy rfl).map

end Keeping

theorem leads_newMemory (hm : ∀ u contents, R u { u with memory := (u.memory.alloc contents).2 })
    (hp : ∀ u s, R u { u with stores := u.stores.push s }) (files : List (Text × ByteRange)) :
    Leads R (fun _ => True) (newMemory files) w fun _ _ => True :=
  leads_newMemory_keeping (P := fun _ _ => True) (I := fun _ => True) hm (fun _ _ h => h) (fun _ _ _ _ => trivial)
    (fun _ _ _ => trivial) (fun u s _ => hp u s) trivial fun _ _ _ => trivial

theorem leads_storeCommand (hm : ∀ u contents, R u { u with memory := (u.memory.alloc contents).2 })
    (hs : ∀ u s, R u (u.setStore store s)) (c : StoreCommand)
    (hlend : ∀ path, Leads R (fun _ => True) (lendFile store path) w fun _ _ => True)
    (hopen : ∀ path policy, c = .openInPlace path policy →
      Leads R (fun _ => True) (openInPlace store path policy) w fun _ _ => True) :
    Leads R (fun _ => True) (c.run store) w fun _ _ => True :=
  leads_storeCommand_keeping (P := fun _ _ => True) (I := fun _ => True) hm (fun _ _ h => h)
    (fun _ _ _ _ => trivial) (fun _ _ _ => trivial) (fun _ _ _ _ _ _ => trivial) (fun u s _ => hs u s) trivial
    (fun _ _ _ _ _ => trivial) hlend hopen

end Steps

end World

end LeaseVec
