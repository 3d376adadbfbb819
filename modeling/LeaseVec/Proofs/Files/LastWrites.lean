import LeaseVec.Proofs.Ownership.Bystanders
import LeaseVec.Proofs.Ownership.Reach
import Mathlib.Logic.Function.Basic

/-!
# A memory store has what was last written

A memory store that is given plain bytes keeps copies of them in buffers of its own. They are secret: nobody comes to
them by way of the world, and no answer names them, since reading a file gives out another copy. So whatever is done by
those who keep within what they know, what is read from a path is what has been written to it last, as it was then.
A store that is given bytes that share keeps the bytes themselves, and shows what becomes of them.
-/

namespace LeaseVec

open Number

/-- What a command to a store writes to a path: bytes as they are at that moment, or no file any more. -/
def StoreCommand.writes? (w : World) (path : Text) : StoreCommand → Option (Option Bytes)
  | put p contents | replace p contents | replaceImposing p contents _ =>
    if path = p then some (some (w.bytes contents)) else none
  | discard p => if path = p then some none else none
  | save p fields => if path = p then (Bundle.encode w fields).toOption.map some else none
  | _ => none

/-- What a command writes to a path of a store, if it does. -/
def Command.writes? (w : World) (store : Nat) (path : Text) : Command → Option (Option Bytes)
  | .store id c => if id = store then c.writes? w path else none
  | _ => none

/-- What a command gives to a store is plain. -/
def Command.PutsPlain (store : Nat) (c : Command) : Prop :=
  ∀ command, c = .store store command → ∀ r ∈ command.given?, r.shares = false

namespace World

open LeaseVec.Action

variable {known : Nat → Prop} {w w' : World} {store : Nat} {path : Text} {P Q : ByteRange → Prop}
  {fs : List (Text × ByteRange)} {files : Text → Option Bytes} {bytes : Bytes}

/-- The file of a path after a history: what was written to it last, or else what there was before. -/
def latest (w : World) (store : Nat) (path : Text) (file : Option Bytes) : List Command → Option Bytes
  | [] => file
  | c :: rest => (w.perform c).2.latest store path ((c.writes? w store path).getD file) rest

/-- A store is a memory store with these files, and something is known of the ranges that it keeps them in. -/
def KeepsFiles (w : World) (store : Nat) (P : ByteRange → Prop) (files : Text → Option Bytes) : Prop :=
  ∃ fs, w.solitary (.store store) = some (.inr (.inr (.memory fs))) ∧ KeptAs P (.memory fs) ∧
    ∀ path, (Store.find? fs path).map w.bytes = files path

theorem solitary_store {s : Store} (h : w.solitary (.store store) = some (.inr (.inr s))) :
    store < w.stores.size ∧ w.store store = s := by
  obtain ⟨x, hx, he⟩ := Option.map_eq_some_iff.1 (show (w.stores[store]?).map _ = _ from h)
  cases he
  refine ⟨(Array.getElem?_eq_some_iff.1 hx).1, ?_⟩
  unfold World.store
  rw [Array.getD_eq_getD_getElem?, hx]
  rfl

theorem solitary_setStore {s : Store} (hlt : store < w.stores.size) :
    (w.setStore store s).solitary (.store store) = some (.inr (.inr s)) := by
  change ((w.stores.setIfInBounds store s)[store]?).map _ = _
  rw [Array.getElem?_setIfInBounds_self_of_lt hlt]
  rfl

theorem map_find?_congr (hk : KeptAs P (.memory fs)) (hb : ∀ r, P r → w'.bytes r = w.bytes r) (path : Text) :
    (Store.find? fs path).map w'.bytes = (Store.find? fs path).map w.bytes := by
  cases hf : Store.find? fs path with
  | none => rfl
  | some r => exact congrArg some (hb r (hk fs path r rfl hf))

/-- A store that is as it was has the same files if the bytes of its ranges are. -/
theorem KeepsFiles.carry (h : w.KeepsFiles store P files)
    (hs : ∀ s, w.solitary (.store store) = some s → w'.solitary (.store store) = some s)
    (hb : ∀ r, P r → Q r ∧ w'.bytes r = w.bytes r) : w'.KeepsFiles store Q files := by
  obtain ⟨fs, hfs, hk, hfiles⟩ := h
  refine ⟨fs, hs _ hfs, hk.mono fun r hr => (hb r hr).1, fun path => ?_⟩
  rw [map_find?_congr hk (fun r hr => (hb r hr).2), hfiles]

theorem KeepsFiles.fileBytes_eq (h : w.KeepsFiles store P files) (path : Text) :
    w.fileBytes store path = match files path with
      | some bytes => .ok bytes
      | none => .error (.fileNotFound path) := by
  obtain ⟨fs, hfs, -, hfiles⟩ := h
  have hread : w.fileBytes store path = (Store.lookUp fs path).map w.bytes := by
    unfold fileBytes
    rw [(solitary_store hfs).2]
  rw [hread, ← hfiles path]
  unfold Store.lookUp
  cases Store.find? fs path <;> rfl

/-- The world in which a memory store with these files has put a copy of bytes in the place of a path. -/
def withFile (w : World) (store : Nat) (fs : List (Text × ByteRange)) (path : Text) (bytes : Bytes) : World :=
  { w with memory := (w.memory.alloc bytes).2 }.setStore store
    (.memory (Store.keep fs path (w.memory.alloc bytes).1))

theorem keepFile_of_plain {contents : ByteRange} (hc : contents.shares = false) :
    keepFile store fs path contents w = .ok () (w.withFile store fs path (w.bytes contents)) :=
  bind_ok (slice_of_plain hc)

theorem putFile_of_memory (path : Text) {contents : ByteRange} (hs : w.store store = .memory fs)
    (hc : contents.shares = false) :
    putFile store path contents w = .ok () (w.withFile store fs path (w.bytes contents)) := by
  unfold putFile
  rw [bind_ok (x := get) rfl]
  simp only [hs]
  exact keepFile_of_plain hc

theorem replaceFile_of_memory (path : Text) {contents : ByteRange} (hs : w.store store = .memory fs)
    (hc : contents.shares = false) :
    replaceFile store path contents w = .ok () (w.withFile store fs path (w.bytes contents)) := by
  unfold replaceFile
  rw [bind_ok ((replaceFileImposing_of_memory hs contents []).trans (bind_ok (keepFile_of_plain hc)))]
  rfl

/-- Fields that can be encoded are saved as a copy of their bundle. -/
theorem storeBundle_of_memory {fields : List Bundle.Source} (hs : w.store store = .memory fs)
    (h : Bundle.encode w fields = .ok bytes) : storeBundle store path fields w =
      .ok bytes.length ({ w with memory := (w.memory.alloc bytes).2 }.withFile store fs path bytes) := by
  have hcopy : (w.memory.alloc bytes).1.shares = false := rfl
  have hreplace := replaceFile_of_memory (w := { w with memory := (w.memory.alloc bytes).2 }) path hs hcopy
  have hread : ({ w with memory := (w.memory.alloc bytes).2 } : World).bytes (w.memory.alloc bytes).1 = bytes :=
    w.memory.read_alloc bytes
  rw [storeBundle_eq store path h, bind_ok hreplace, hread]
  rfl

/-- One file has another range, which is kept like the others. -/
theorem KeepsFiles.withFile (hfs : w.solitary (.store store) = some (.inr (.inr (.memory fs))))
    (hk : KeptAs P (.memory fs)) (hfiles : ∀ path, (Store.find? fs path).map w.bytes = files path)
    (path : Text) (bytes : Bytes)
    (hb : ∀ r, P r → Q r ∧ (w.withFile store fs path bytes).bytes r = w.bytes r) (hnew : Q (w.memory.alloc bytes).1) :
    (w.withFile store fs path bytes).KeepsFiles store Q (Function.update files path (some bytes)) := by
  have hlt := (solitary_store hfs).1
  refine ⟨_, solitary_setStore hlt, (hk.mono fun r hr => (hb r hr).1).keep path hnew, fun p => ?_⟩
  rw [Store.find?_keep, Function.update_apply]
  split_ifs with hp
  · exact congrArg some (w.memory.read_alloc bytes)
  · rw [map_find?_congr hk (fun r hr => (hb r hr).2), hfiles]

/-- A memory store has these files, in plain ranges that nobody else comes to; nothing that can be reached or is
known is out of bounds. -/
structure Hides (known : Nat → Prop) (w : World) (store : Nat) (files : Text → Option Bytes) : Prop where
  contained : w.Contained known
  kept : w.KeepsFiles store (fun r => r.shares = false ∧ w.Secret known r.buffer) files

/-- What is read from a path is this file, and it is read into a new buffer; without a file reading fails and changes
nothing. -/
structure Yields (w : World) (store : Nat) (path : Text) (file : Option Bytes) : Prop where
  found : ∀ bytes, file = some bytes → ∃ r w', w.perform (.store store (.fetch path)) = (.ok (.range r), w') ∧
    w'.bytes r = bytes ∧ r.buffer = w.memory.buffers.size
  missing : file = none → w.perform (.store store (.fetch path)) = (.error (.fileNotFound path), w)
  /-- The same of a region that is opened over it. -/
  lent : ∀ bytes, file = some bytes → ∃ region r w', w.perform (.store store (.lend path)) = (.ok (.made region), w') ∧
    w'.lentBytes region = .ok r ∧ w'.bytes r = bytes ∧ r.buffer = w.memory.buffers.size
  notLent : file = none → w.perform (.store store (.lend path)) = (.error (.fileNotFound path), w)

/-- The world in which a region has been opened over a copy of these bytes. -/
def withLent (w : World) (label : Text) (bytes : Bytes) : World :=
  { w with
    memory := (w.memory.alloc bytes).2
    regions := w.regions.push ⟨label, bytes.length, some (w.memory.alloc bytes).1⟩ }

/-- What a store keeps in plain ranges is fetched as a copy. -/
theorem fetch_of_plain (hfs : w.store store = .memory fs) (hk : KeptAs (fun r => r.shares = false) (.memory fs))
    (h : w.fileBytes store path = .ok bytes) :
    fetch store path w = .ok (w.memory.alloc bytes).1 { w with memory := (w.memory.alloc bytes).2 } := by
  have hfetch := w.fetching_fetch store path
  generalize fetch store path w = result at hfetch ⊢
  cases hfetch with
  | missing hread => exact nomatch h.symm.trans hread
  | shared hs hf hshares =>
    cases hfs.symm.trans hs
    exact nomatch hshares.symm.trans (hk _ _ _ rfl hf)
  | copied hread =>
    cases h.symm.trans hread
    rfl

/-- A new buffer starts on the boundary, so a region over it holds just that buffer. -/
theorem lendFile_of_plain (hfs : w.store store = .memory fs) (hk : KeptAs (fun r => r.shares = false) (.memory fs))
    (h : w.fileBytes store path = .ok bytes) : lendFile store path w = .ok w.regions.size (w.withLent path bytes) := by
  unfold lendFile
  rw [bind_ok (fetch_of_plain hfs hk h)]
  rcases lend_cases { w with memory := (w.memory.alloc bytes).2 } (w.memory.alloc bytes).1 path with
    ⟨-, hlend⟩ | ⟨⟨hoff, -⟩, -⟩
  · exact hlend
  · exact absurd (Nat.zero_mod boundary) hoff

theorem lendFile_error {e : Fault} (h : w.fileBytes store path = .error e) :
    lendFile store path w = .error e w := bind_error (fetch_error h)

theorem yields_of_keepsFiles (h : w.KeepsFiles store (fun r => r.shares = false) files) (path : Text) :
    w.Yields store path (files path) := by
  have hread := h.fileBytes_eq path
  obtain ⟨fs, hfs, hk, -⟩ := h
  have hstore := (solitary_store hfs).2
  have hfetch : (Command.store store (.fetch path)).run w =
    (fetch store path >>= fun r => pure (Reply.range r)) w := rfl
  have hlend : (Command.store store (.lend path)).run w =
    (lendFile store path >>= fun region => pure (Reply.made region)) w := rfl
  refine ⟨fun bytes hf => ?_, fun hf => ?_, fun bytes hf => ?_, fun hf => ?_⟩ <;> rw [hf] at hread
  · exact ⟨_, _, perform_ok hfetch (fetch_of_plain hstore hk hread), w.memory.read_alloc bytes, rfl⟩
  · exact perform_error hfetch (fetch_error hread)
  · exact ⟨_, _, _, perform_ok hlend (lendFile_of_plain hstore hk hread), lentBytes_push ..,
      w.memory.read_alloc bytes, rfl⟩
  · exact perform_error hlend (lendFile_error hread)

/-- Putting a copy into a store makes nothing reachable. -/
theorem reaches_of_withFile (hk : KeptAs (fun r => r.shares = false) (.memory fs)) {b : Nat}
    (h : (w.withFile store fs path bytes).Reaches b) : w.Reaches b := by
  have hkept : KeptAs (fun r => r.shares = false) (.memory (Store.keep fs path (w.memory.alloc bytes).1)) :=
    hk.keep path rfl
  have hspreads : ({ w with memory := (w.memory.alloc bytes).2 } : World).Spreads (fun _ => False)
      (w.withFile store fs path bytes) := spreads_setStore store (hkept.mono fun r hr hs => nomatch hr.symm.trans hs)
  exact reaches_of_memory (hspreads.reaches rfl rfl rfl h)

/-- A copy of bytes is put into a store: it is secret there, like all other files. -/
theorem Hides.withFile (h : w.Hides known store files) (hfs : w.store store = .memory fs) (path : Text)
    (bytes : Bytes) :
    (w.withFile store fs path bytes).KeepsFiles store
      (fun r => r.shares = false ∧ (w.withFile store fs path bytes).Secret known r.buffer)
      (Function.update files path (some bytes)) := by
  obtain ⟨fs', hfs', hk, hfiles⟩ := h.kept
  cases hfs.symm.trans (solitary_store hfs').2
  have hplain : KeptAs (fun r => r.shares = false) (.memory fs) := hk.mono fun _ hr => hr.1
  have hgrows := Memory.grows_alloc w.memory bytes
  refine KeepsFiles.withFile hfs' hk hfiles path bytes (fun r hr => ⟨⟨hr.1, ?_, ?_, hr.2.unknown⟩, ?_⟩)
    ⟨rfl, ?_, ?_, ?_⟩
  · exact hr.2.lt.trans_le hgrows.size_le
  · exact fun hreaches => hr.2.unreached (reaches_of_withFile hplain hreaches)
  · exact Memory.read_congr (Memory.frame_alloc (fun _ => False) w.memory bytes r.buffer hr.2.lt id)
  · exact w.memory.lt_size_alloc bytes
  · exact fun hreaches => (h.contained.reached _ (reaches_of_withFile hplain hreaches)).ne rfl
  · exact fun hknown => (h.contained.known _ hknown).ne rfl

theorem Hides.alloc (h : w.Hides known store files) (bytes : Bytes) :
    ({ w with memory := (w.memory.alloc bytes).2 } : World).Hides known store files := by
  have hgrows := Memory.grows_alloc w.memory bytes
  refine ⟨⟨fun b hb => ?_, fun b hb => ?_⟩,
    h.kept.carry (fun _ hs => hs) fun r hr => ⟨⟨hr.1, ?_, ?_, hr.2.unknown⟩, ?_⟩⟩
  · exact (h.contained.reached b (reaches_of_memory hb)).trans_le hgrows.size_le
  · exact (h.contained.known b hb).trans_le hgrows.size_le
  · exact hr.2.lt.trans_le hgrows.size_le
  · exact fun hb => hr.2.unreached (reaches_of_memory hb)
  · exact Memory.read_congr (Memory.frame_alloc (fun _ => False) w.memory bytes r.buffer hr.2.lt id)

/-- A file is taken out, and the others are as they were. -/
theorem Hides.withoutFile (h : w.Hides known store files) (hfs : w.store store = .memory fs) (path : Text) :
    (w.setStore store (.memory (Store.without fs path))).KeepsFiles store
      (fun r => r.shares = false ∧ (w.setStore store (.memory (Store.without fs path))).Secret known r.buffer)
      (Function.update files path none) := by
  obtain ⟨fs', hfs', hk, hfiles⟩ := h.kept
  obtain ⟨hlt, hstore⟩ := solitary_store hfs'
  cases hfs.symm.trans hstore
  have hplain : KeptAs (fun r => r.shares = false) (.memory (Store.without fs path)) :=
    (hk.mono fun _ hr => hr.1).without path
  have hspreads : w.Spreads (fun _ => False) (w.setStore store (.memory (Store.without fs path))) :=
    spreads_setStore store (hplain.mono fun r hr hs => nomatch hr.symm.trans hs)
  refine ⟨_, solitary_setStore hlt, (hk.without path).mono fun r hr => ⟨hr.1, hr.2.lt, fun hb => ?_, hr.2.unknown⟩,
    fun p => ?_⟩
  · exact hr.2.unreached (hspreads.reaches rfl rfl rfl hb)
  · rw [Store.find?_without, Function.update_apply]
    split_ifs with hp
    · rfl
    · exact hfiles p

/-- A command that is done with the store as it was leaves the files as they are. -/
theorem Hides.carry (h : w.Hides known store files) {c : Command} (hc : c.Within known w)
    (hs : ∀ s, w.solitary (.store store) = some s → (w.perform c).2.solitary (.store store) = some s) :
    (w.perform c).2.Hides (learned known (w.perform c).1) store files where
  contained := h.contained.perform hc
  kept := by
    refine h.kept.carry hs fun r hr => ?_
    obtain ⟨hsecret, hsame⟩ := hr.2.perform hc
    exact ⟨⟨hr.1, hsecret⟩, Memory.read_congr hsame⟩

theorem perform_of_run {c : Command} {reply : Reply} (h : c.run w = .ok reply w') : w.perform c = (.ok reply, w') := by
  unfold perform
  rw [h]

theorem perform_of_run_error {c : Command} {e : Fault} (h : c.run w = .error e w') : w.perform c = (.error e, w') := by
  unfold perform
  rw [h]

/-- An answer that names no buffer teaches nothing. -/
theorem learned_silent {reply : Reply} (h : reply.buffer? = none) : learned known (.ok reply) = known := by
  funext b
  refine propext ⟨?_, Or.inl⟩
  rintro (hknown | ⟨_, ⟨⟩, hb⟩)
  · exact hknown
  · exact nomatch h.symm.trans hb

/-- A command that puts a copy of bytes in the place of a path. -/
theorem Hides.puts (h : w.Hides known store files) {c : Command} (hc : c.Within known w)
    (hfs : w.store store = .memory fs) {reply : Reply} (hsilent : reply.buffer? = none)
    (hrun : c.run w = .ok reply (w.withFile store fs path bytes)) :
    (w.perform c).2.Hides (learned known (w.perform c).1) store (Function.update files path (some bytes)) := by
  refine ⟨h.contained.perform hc, ?_⟩
  rw [perform_of_run hrun, learned_silent hsilent]
  exact h.withFile hfs path bytes

/-- Reading and opening leave the store as it was. -/
theorem passesBy_lendFile (w : World) (store : Nat) (path : Text) :
    w.PassesBy (.store store) (fun _ => False) ((lendFile store path).after w) :=
  ((leads_lendFile passesBy_alloc fun u _ _ _ _ => passesBy_lent u _ u.readers).mono fun _ _ _ => trivial).after

theorem passesBy_openInPlace (w : World) (store : Nat) (path : Text) (policy : Bundle.Policy) :
    w.PassesBy (.store store) (fun _ => False) ((openInPlace store path policy).after w) := by
  refine (leads_openInPlace passesBy_alloc (fun u _ _ _ _ => passesBy_lent u _ u.readers)
    (fun u _ _ _ => passesBy_lent u u.regions _) (fun held _ _ _ => ?_) policy).after
  exact passesBy_of_takes fun _ => id

theorem update_eq (files : Text → Option Bytes) (p : Text) (file : Option Bytes) :
    (fun path => (if path = p then some file else none).getD (files path)) = Function.update files p file := by
  funext path
  rw [Function.update_apply]
  split_ifs <;> rfl

theorem Hides.storeCommand (h : w.Hides known store files) {c : StoreCommand}
    (hc : (Command.store store c).Within known w) (hp : ∀ r ∈ c.given?, r.shares = false) :
    (w.perform (.store store c)).2.Hides (learned known (w.perform (.store store c)).1) store
      fun path => (c.writes? w path).getD (files path) := by
  obtain ⟨fs, hsolitary, -, -⟩ := h.kept
  have hfs := (solitary_store hsolitary).2
  have hpasses : ∀ {α : Type} {x : Action α} (f : α → Reply),
      (Command.store store c).run.after w = (x >>= fun a => pure (f a) : Action Reply).after w →
      w.PassesBy (.store store) (fun _ => False) (x.after w) →
      (w.perform (.store store c)).2.Hides (learned known (w.perform (.store store c)).1) store files := by
    intro α x f hrun hx
    refine h.carry hc fun s hs => ?_
    rw [perform_snd, hrun, after_map]
    exact hx.solitary s hs
  cases c with
  | fetch path => exact hpasses Reply.range rfl (leads_fetch passesBy_alloc store path).after
  | lend path => exact hpasses Reply.made rfl (passesBy_lendFile w store path)
  | openInPlace path policy =>
    exact hpasses (fun opened : List Bundle.Field × Nat => Reply.opened opened.1 opened.2) rfl
      (passesBy_openInPlace w store path policy)
  | makeDir full =>
    have hrun : (makeDir store full).after w = w := by
      unfold Action.after makeDir
      rw [bind_ok (x := get) rfl]
      simp only [hfs]
      rfl
    refine hpasses (x := makeDir store full) (fun _ => Reply.done) rfl ?_
    rw [hrun]
    exact refl_of (PassesBy _ _) w
  | put path contents =>
    have hrun := bind_ok (f := fun _ => (pure Reply.done : Action Reply))
      (putFile_of_memory path hfs (hp contents rfl))
    simp only [StoreCommand.writes?, update_eq]
    exact h.puts hc hfs rfl hrun
  | replace path contents =>
    have hrun := bind_ok (f := fun _ => (pure Reply.done : Action Reply))
      (replaceFile_of_memory path hfs (hp contents rfl))
    simp only [StoreCommand.writes?, update_eq]
    exact h.puts hc hfs rfl hrun
  | replaceImposing path contents imposed =>
    have hrun : (Command.store store (.replaceImposing path contents imposed)).run w =
        .ok (.replaced ⟨.ok (), 0, []⟩) (w.withFile store fs path (w.bytes contents)) :=
      bind_ok ((replaceFileImposing_of_memory hfs contents imposed).trans
        (bind_ok (keepFile_of_plain (hp contents rfl))))
    simp only [StoreCommand.writes?, update_eq]
    exact h.puts hc hfs rfl hrun
  | discard path =>
    have hrun : (Command.store store (.discard path)).run w =
        .ok .done (w.setStore store (.memory (Store.without fs path))) := by
      have hdiscard : discardFile store path w = .ok () (w.setStore store (.memory (Store.without fs path))) := by
        unfold discardFile
        rw [bind_ok (x := get) rfl]
        simp only [hfs]
        rfl
      exact bind_ok hdiscard
    simp only [StoreCommand.writes?, update_eq]
    refine ⟨h.contained.perform hc, ?_⟩
    rw [perform_of_run hrun, learned_silent rfl]
    exact h.withoutFile hfs path
  | save path fields =>
    cases hencode : Bundle.encode w fields with
    | error e =>
      have hrun : (Command.store store (.save path fields)).run w = .error e w :=
        bind_error (storeBundle_error store path hencode)
      have hnone : ∀ p, ((StoreCommand.save path fields).writes? w p).getD (files p) = files p := by
        intro p
        simp only [StoreCommand.writes?, hencode]
        split_ifs <;> rfl
      simp only [hnone]
      refine h.carry hc fun s hs => ?_
      rwa [perform_of_run_error hrun]
    | ok contents =>
      have hrun : (Command.store store (.save path fields)).run w = .ok (.integer contents.length)
          ({ w with memory := (w.memory.alloc contents).2 }.withFile store fs path contents) :=
        bind_ok (storeBundle_of_memory hfs hencode)
      have hwrites : ∀ p, (StoreCommand.save path fields).writes? w p =
          if p = path then some (some contents) else none := fun p => by
        simp only [StoreCommand.writes?, hencode, Except.toOption, Option.map_some]
      simp only [hwrites, update_eq]
      refine ⟨h.contained.perform hc, ?_⟩
      rw [perform_of_run hrun, learned_silent rfl]
      exact (h.alloc contents).withFile hfs path contents

/-- A command does to the files of a memory store what it writes there, and nothing else, and the files stay
hidden. -/
theorem Hides.perform (h : w.Hides known store files) {c : Command} (hc : c.Within known w) (hp : c.PutsPlain store) :
    (w.perform c).2.Hides (learned known (w.perform c).1) store
      fun path => (c.writes? w store path).getD (files path) := by
  by_cases hs : c.solitary? = some (.store store)
  · cases c with
    | store id c =>
      cases hs
      simp only [Command.writes?, if_pos]
      exact h.storeCommand hc (hp c rfl)
    | _ => cases hs
  · have hnone : ∀ path, c.writes? w store path = none := by
      intro path
      cases c with
      | store id c => exact if_neg fun he => hs (by rw [he]; rfl)
      | _ => rfl
    simp only [hnone, Option.getD_none]
    exact h.carry hc (passesBy_perform w hs c.spares_nothing).solitary

/-- After every history of those who keep within what they know a memory store has the files that were last written to
it. -/
theorem Hides.performAll (h : w.Hides known store files) {history : List Command} (hk : w.Knowing known history)
    (hp : ∀ c ∈ history, c.PutsPlain store) :
    (w.performAll history).2.Hides (w.knownAfter known history) store
      fun path => w.latest store path (files path) history := by
  induction history generalizing w known files with
  | nil => exact h
  | cons c rest ih =>
    exact ih (h.perform hk.1 (hp c (List.mem_cons_self ..))) hk.2 fun c' hc' => hp c' (List.mem_cons_of_mem _ hc')

/-- The file of a path in a store that is made of these: the last of those that are given for it. -/
def sourceOf (w : World) (sources : List (Text × ByteRange)) (path : Text) : Option Bytes :=
  (sources.reverse.find? fun s => s.1 = path).map fun s => w.bytes s.2

/-- A range is kept as a plain copy that is new in this memory. -/
structure CopiedTo (w : World) (m : Memory) (source copy : ByteRange) : Prop where
  plain : copy.shares = false
  fresh : w.memory.buffers.size ≤ copy.buffer
  lt : copy.buffer < m.buffers.size
  read_eq : m.read copy = w.bytes source

/-- Plain ranges are copied one after the other, and of those for one path the last is kept. -/
theorem keepAll_of_plain (kept : List (Text × ByteRange)) {sources : List (Text × ByteRange)}
    (hs : ∀ s ∈ sources, s.2.shares = false ∧ s.2.buffer < w.memory.buffers.size) :
    ∃ kept' m, (sources.foldlM (fun kept f => do return Store.keep kept f.1 (← slice f.2)) kept :
        Action (List (Text × ByteRange))) w = .ok kept' { w with memory := m } ∧ w.memory.Grows m ∧
      w.memory.Frame (fun _ => False) m ∧
      ∀ path, match sources.reverse.find? fun s => s.1 = path with
        | some s => ∃ r, Store.find? kept' path = some r ∧ w.CopiedTo m s.2 r
        | none => Store.find? kept' path = Store.find? kept path := by
  induction sources generalizing w kept with
  | nil => exact ⟨kept, w.memory, rfl, Memory.Grows.refl _, Memory.Frame.refl _ _, fun _ => rfl⟩
  | cons f rest ih =>
    obtain ⟨hplain, hlt⟩ := hs f (List.mem_cons_self ..)
    have hgrows := Memory.grows_alloc w.memory (w.bytes f.2)
    have hframe := Memory.frame_alloc (fun _ => False) w.memory (w.bytes f.2)
    have hrest : ∀ s ∈ rest, s.2.shares = false ∧ s.2.buffer < (w.memory.alloc (w.bytes f.2)).2.buffers.size :=
      fun s hm => (hs s (List.mem_cons_of_mem _ hm)).imp_right fun h => h.trans_le hgrows.size_le
    obtain ⟨kept', m, hrun, hgrows', hframe', hfind⟩ := ih
      (w := { w with memory := (w.memory.alloc (w.bytes f.2)).2 })
      (Store.keep kept f.1 (w.memory.alloc (w.bytes f.2)).1) hrest
    refine ⟨kept', m, ?_, hgrows.trans hgrows', hframe.trans hframe' hgrows.size_le, fun path => ?_⟩
    · have hfirst : (slice f.2 >>= fun r => pure (Store.keep kept f.1 r) : Action (List (Text × ByteRange))) w =
          .ok (Store.keep kept f.1 (w.memory.alloc (w.bytes f.2)).1)
            { w with memory := (w.memory.alloc (w.bytes f.2)).2 } := bind_ok (slice_of_plain hplain)
      rw [List.foldlM_cons]
      exact (bind_ok hfirst).trans hrun
    · have hpath := hfind path
      rw [List.reverse_cons, List.find?_append]
      cases hlast : rest.reverse.find? fun s => s.1 = path with
      | some s =>
        rw [hlast] at hpath
        obtain ⟨r, hr, hcopy⟩ := hpath
        have hmem : s ∈ rest := List.mem_reverse.1 (List.mem_of_find?_eq_some hlast)
        refine ⟨r, hr, hcopy.plain, hgrows.size_le.trans hcopy.fresh, hcopy.lt, hcopy.read_eq.trans ?_⟩
        exact Memory.read_congr (hframe s.2.buffer (hs s (List.mem_cons_of_mem _ hmem)).2 id)
      | none =>
        rw [hlast] at hpath
        rw [Store.find?_keep] at hpath
        simp only [Option.none_or, List.find?_singleton]
        by_cases hp : f.1 = path
        · rw [if_pos hp.symm] at hpath
          simp only [hp, decide_true, if_true]
          refine ⟨_, hpath, rfl, le_rfl, ?_, ?_⟩
          · exact (w.memory.lt_size_alloc _).trans_le hgrows'.size_le
          · refine Eq.trans ?_ (w.memory.read_alloc (w.bytes f.2))
            exact Memory.read_congr (hframe' _ (w.memory.lt_size_alloc _) id)
        · rw [if_neg fun he => hp he.symm] at hpath
          simp only [hp, decide_false]
          exact hpath

/-- The files of a new store are copies of what it has been made of, and they are secret. -/
theorem hides_newMemory (hw : w.Contained known) {sources : List (Text × ByteRange)}
    (hs : ∀ s ∈ sources, s.2.shares = false ∧ known s.2.buffer) :
    (w.perform (.newMemory sources)).2.Hides (learned known (w.perform (.newMemory sources)).1) w.stores.size
      (w.sourceOf sources) := by
  obtain ⟨kept, m, hkeep, hgrows, -, hfind⟩ := keepAll_of_plain (w := w) []
    fun s hm => (hs s hm).imp_right (hw.known _)
  have hrun : (Command.newMemory sources).run w = .ok (.made w.stores.size)
      { w with memory := m, stores := w.stores.push (.memory kept) } := bind_ok (bind_ok hkeep)
  have hcopied : KeptAs (fun r => ∃ source, w.CopiedTo m source r) (.memory kept) := by
    rintro _ path r ⟨⟩ hr
    have hpath := hfind path
    cases hlast : sources.reverse.find? fun s => s.1 = path with
    | some s =>
      rw [hlast] at hpath
      obtain ⟨r', hr', hcopy⟩ := hpath
      cases hr.symm.trans hr'
      exact ⟨_, hcopy⟩
    | none =>
      rw [hlast] at hpath
      cases hr.symm.trans hpath
  have hreaches : ∀ b, ({ w with memory := m, stores := w.stores.push (.memory kept) } : World).Reaches b →
      w.Reaches b := by
    intro b hb
    have hspreads : ({ w with memory := m } : World).Spreads (fun _ => False)
        { w with memory := m, stores := w.stores.push (.memory kept) } :=
      spreads_pushStore (hcopied.mono fun r ⟨_, hcopy⟩ hshares => nomatch hcopy.plain.symm.trans hshares)
    exact reaches_of_memory (hspreads.reaches rfl rfl rfl hb)
  rw [perform_of_run hrun, learned_silent rfl]
  refine ⟨⟨fun b hb => ?_, fun b hb => (hw.known b hb).trans_le hgrows.size_le⟩, kept, ?_, ?_, fun path => ?_⟩
  · exact (hw.reached b (hreaches b hb)).trans_le hgrows.size_le
  · change ((w.stores.push (.memory kept))[w.stores.size]?).map _ = _
    rw [Array.getElem?_push_size]
    rfl
  · refine hcopied.mono fun r ⟨_, hcopy⟩ => ⟨hcopy.plain, hcopy.lt, fun hb => ?_, fun hb => ?_⟩
    · exact absurd (hw.reached _ (hreaches _ hb)) (not_lt.2 hcopy.fresh)
    · exact absurd (hw.known _ hb) (not_lt.2 hcopy.fresh)
  · have hpath := hfind path
    unfold sourceOf
    cases hlast : sources.reverse.find? fun s => s.1 = path with
    | some s =>
      rw [hlast] at hpath
      obtain ⟨r, hr, hcopy⟩ := hpath
      rw [hr]
      exact congrArg some hcopy.read_eq
    | none =>
      rw [hlast] at hpath
      rw [hpath]
      rfl

end World

end LeaseVec
