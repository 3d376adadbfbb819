import LeaseVec.Proofs.Bundle.Lodging
import LeaseVec.Proofs.Files.LastWrites
import LeaseVec.Proofs.Lifetime.Leases
import LeaseVec.Proofs.Lifetime.Rounds
import LeaseVec.Proofs.Ownership.Reports

/-!
# An opened bundle is a snapshot

A bundle that is opened from a memory store has a region over a new buffer, which nothing but its own fields knows of.
So a field that is not changed itself shows the same elements as long as its region is open and nobody writes the
bytes of that region: no other command can reach them, whatever it does to the store, to other fields and vectors, or
to any other buffer. A field that was copied is in the same position with its own storage.
-/

namespace LeaseVec

open Number

namespace World

open LeaseVec.Action

variable {w w' u : World} {store region vec b : Nat} {path : Text} {c : Command} {later : List Command}
  {fs : List (Text × ByteRange)}

/-- A buffer that a field opened from a region is read from: the one that the region holds, or the field's own
storage. -/
def Backs (w : World) (region vec b : Nat) : Prop :=
  (∃ r, (w.region region).held = some r ∧ r.buffer = b) ∨ ∃ a, w.storage? (.vec vec) = some a ∧ a.buffer = b

/-- A command does not close the region, is no change of the vector, writes nothing to the bytes behind it on its
caller's account, and does not give them to a vector to own. -/
structure LeavesField (region vec : Nat) (w : World) (c : Command) : Prop where
  named : c.Named w
  opened : c ≠ .close region
  unchanged : c.subject? ≠ some vec
  unwritten : ∀ b, c.target? = some b → w.Backs region vec b →
    (w.perform c).2.memory.buffer b = w.memory.buffer b
  adopts : ∀ b, w.Adopts c b → ¬ w.Backs region vec b

/-- A vector has elements, and it has the same ones after every history that leaves it. -/
def KeepsField (w : World) (region vec : Nat) : Prop :=
  ∃ values, w.contents (.vec vec) = .ok values ∧ ∀ later, w.Throughout (LeavesField region vec) later →
    (w.performAll later).2.contents (.vec vec) = .ok values

/-- The bytes that a vector shows and the region that it borrows from are as they were. -/
structure Lasting (w : World) (region vec : Nat) (u : World) : Prop where
  lt : vec < u.vecs.size
  vec_eq : u.vec vec = w.vec vec
  region_lt : region < u.regions.size
  region_eq : u.region region = w.region region
  shown : ∀ b, w.Shows (.vec vec) b → u.Reserved (.vec vec) b ∧ u.memory.buffer b = w.memory.buffer b

/-- A region stays as it is unless it is closed. -/
theorem region_perform (hlt : region < w.regions.size) (hc : c ≠ .close region) :
    region < (w.perform c).2.regions.size ∧ (w.perform c).2.region region = w.region region := by
  by_cases hclose : ∃ other, c = .close other
  · obtain ⟨other, rfl⟩ := hclose
    rw [perform_close, region_close, if_neg fun h => hc (by rw [h.1])]
    exact ⟨hlt.trans_eq (Array.size_modify ..).symm, rfl⟩
  · rw [perform_snd]
    exact region_of_comesTo (moves_command fun other h => hclose ⟨other, h⟩) hlt

/-- A change of somebody else's elements is no business of a vector. -/
theorem not_owners_of_subject (hc : c.subject? ≠ some vec) : ¬ c.owners (.vec vec) := by
  cases c with
  | vec id c =>
    rintro ⟨hm, ho⟩
    rcases ho with ho | ho
    · cases ho
      exact hc (subject?_of_mutates hm vec)
    · cases c with
      | swap array => cases ho
      | _ => cases ho
  | array id c =>
    cases c with
    | swap other => rintro (ho | ho) <;> cases ho
    | _ => exact fun ho => by cases ho
  | _ => exact fun ho => ho

theorem Lasting.backs (h : w.Lasting region vec u) (hb : w.Backs region vec b) : u.Backs region vec b := by
  rcases hb with ⟨r, hr, rfl⟩ | ⟨a, ha, rfl⟩
  · exact Or.inl ⟨r, by rw [h.region_eq, hr], rfl⟩
  · refine Or.inr ⟨a, storage?_vec_of_owned ?_, rfl⟩
    rw [h.vec_eq]
    exact owned_of_storage? ha

theorem Lasting.perform (h : w.Lasting region vec u) (hshown : ∀ b, w.Shows (.vec vec) b → w.Backs region vec b)
    (hc : LeavesField region vec u c) : w.Lasting region vec (u.perform c).2 := by
  obtain ⟨hregion, hsame⟩ := region_perform h.region_lt hc.opened
  refine ⟨h.lt.trans_le (u.size_vecs_perform c), (vec_perform_of_ne h.lt hc.unchanged).trans h.vec_eq, hregion,
    hsame.trans h.region_eq, fun b hb => ?_⟩
  obtain ⟨hreserved, hbuffer⟩ := h.shown b hb
  have htouches := touches_perform hc.named
  have howners := not_owners_of_subject hc.unchanged
  have hbacks := h.backs (hshown b hb)
  have hadopted : ¬ u.Adopts c b := fun ha => hc.adopts b ha hbacks
  refine ⟨hreserved.of_touches htouches howners hadopted, Eq.trans ?_ hbuffer⟩
  by_cases htarget : c.target? = some b
  · exact hc.unwritten b htarget hbacks
  · exact hreserved.buffer_eq htouches howners hadopted htarget

theorem Lasting.performAll (h : w.Lasting region vec u)
    (hshown : ∀ b, w.Shows (.vec vec) b → w.Backs region vec b) (hl : u.Throughout (LeavesField region vec) later) :
    w.Lasting region vec (u.performAll later).2 := by
  induction later generalizing u with
  | nil => exact h
  | cons c rest ih => exact ih (h.perform hshown hl.1) hl.2

/-- A vector shows the same as long as what is behind it stays. -/
theorem Lasting.contents (h : w.Lasting region vec u)
    (hlender : ∀ view lender, (w.vec vec).holding = .borrowed view lender → lender = region) :
    u.contents (.vec vec) = w.contents (.vec vec) := by
  refine contents_vec_congr h.vec_eq (fun view lender hh => ?_) fun b hb => (h.shown b hb).2
  rw [hlender view lender hh]
  exact h.region_eq

/-- The world in which a region has been opened over a copy of these bytes, with a reader that may borrow them. -/
def withBorrower (w : World) (label : Text) (bytes : Bytes) : World :=
  { w.withLent label bytes with
    readers := w.readers.push ⟨(w.memory.alloc bytes).1, 0, some w.regions.size⟩ }

/-- A bundle that is opened from plain bytes has been decoded from a copy of its file. -/
theorem openInPlace_ok (hfs : w.store store = .memory fs) (hk : KeptAs (fun r => r.shares = false) (.memory fs))
    {policy : Bundle.Policy} {opened : List Bundle.Field × Nat} (h : openInPlace store path policy w = .ok opened w') :
    ∃ bytes, w.fileBytes store path = .ok bytes ∧ opened.2 = w.regions.size ∧
      Bundle.decode w.readers.size policy (w.withBorrower path bytes) = .ok opened.1 w' := by
  obtain ⟨region, w₁, hlend, h⟩ := bind_ok_iff.1 h
  cases hread : w.fileBytes store path with
  | error e =>
    rw [lendFile_error hread] at hlend
    cases hlend
  | ok bytes =>
    rw [lendFile_of_plain hfs hk hread] at hlend
    cases hlend
    have hborrower : newBorrower w.regions.size (w.withLent path bytes) =
        .ok w.readers.size (w.withBorrower path bytes) :=
      newBorrower_ok (lentBytes_push w path bytes.length (w.memory.alloc bytes).1)
    rw [bind_ok hborrower] at h
    obtain ⟨fields, w₂, hdecode, h⟩ := bind_ok_iff.1 h
    cases h
    exact ⟨bytes, rfl, rfl, hdecode⟩

theorem run_openInPlace (store : Nat) (path : Text) (policy : Bundle.Policy) (w : World) :
    (Command.store store (.openInPlace path policy)).run w =
      (openInPlace store path policy >>= fun opened => pure (Reply.opened opened.1 opened.2)) w := rfl

/-- What opening a bundle has brought about. -/
structure Opening (w : World) (bytes : Bytes) (fields : List Bundle.Field) (region : Nat) (w' : World) : Prop where
  lent : w'.lentBytes region = .ok (w.memory.alloc bytes).1
  kept : w'.bytes (w.memory.alloc bytes).1 = bytes
  foreign : w'.Foreign w.memory.buffers.size
  lodged : ∀ field ∈ fields, w'.Lodged (w.memory.alloc bytes).1 (some region) field.vec

theorem stored_withBorrower (hs : w.Stored) (label : Text) (bytes : Bytes) : (w.withBorrower label bytes).Stored := by
  intro o a ha
  have hold := hs o a ((storage?_congr rfl rfl o).symm.trans ha)
  exact hold.trans_le (Memory.grows_alloc w.memory bytes).size_le

theorem opening_of_openInPlace (hs : w.Stored) (hfs : w.store store = .memory fs)
    (hk : KeptAs (fun r => r.shares = false) (.memory fs)) {policy : Bundle.Policy} {opened : List Bundle.Field × Nat}
    (h : openInPlace store path policy w = .ok opened w') :
    ∃ bytes, w.fileBytes store path = .ok bytes ∧ w.Opening bytes opened.1 opened.2 w' := by
  obtain ⟨bytes, hread, hregion, hdecode⟩ := openInPlace_ok hfs hk h
  refine ⟨bytes, hread, ?_⟩
  rw [hregion]
  -- the new buffer is nobody's storage before the fields are decoded
  have hforeign : (w.withBorrower path bytes).Foreign w.memory.buffers.size := by
    refine ⟨?_, fun o a ha => ?_⟩
    · exact w.memory.lt_size_alloc bytes
    · exact (hs o a ((storage?_congr rfl rfl o).symm.trans ha)).ne
  have hreader : (w.withBorrower path bytes).reader w.readers.size =
      ⟨(w.memory.alloc bytes).1, 0, some w.regions.size⟩ := by
    refine (reader_push (w := w) ⟨(w.memory.alloc bytes).1, 0, some w.regions.size⟩ w.readers.size).trans ?_
    rw [if_pos rfl]
  have hover : (w.withBorrower path bytes).Over w.readers.size (w.memory.alloc bytes).1 :=
    congrArg Reader.source hreader
  have hpasses : (w.withBorrower path bytes).PassesBy (.writer 0) (fun _ => True) w' := by
    rw [← after_ok hdecode]
    have hstep : ∀ u u', TakesFrom (w.memory.alloc bytes).1 u u' → PassesBy (.writer 0) (fun _ => True) u u' :=
      fun _ _ => passesBy_of_takes fun hshares => absurd hshares Bool.false_ne_true
    exact (taking_decode hstep policy hover).after
  obtain ⟨hforeign', hbuffer⟩ := hpasses.shared _ trivial hforeign
  have hlt : w.regions.size < (w.withBorrower path bytes).regions.size :=
    Array.size_push (α := Region) .. ▸ Nat.lt_succ_self _
  obtain ⟨-, hkept⟩ := region_of_comesTo ((moves_decode _ _).of_ok hdecode) hlt
  refine ⟨?_, ?_, hforeign', ?_⟩
  · have hheld : ((w.withBorrower path bytes).region w.regions.size).held = some (w.memory.alloc bytes).1 :=
      lentBytes_ok (lentBytes_push w path bytes.length (w.memory.alloc bytes).1)
    unfold lentBytes
    rw [hkept, hheld]
  · exact (Memory.read_congr hbuffer).trans (w.memory.read_alloc bytes)
  · have hreaders : w.readers.size < (w.withBorrower path bytes).readers.size :=
      Array.size_push (α := Reader) .. ▸ Nat.lt_succ_self _
    have hlodged := lodged_of_decode (stored_withBorrower hs path bytes) hreaders (by rw [hreader]; rfl) hdecode
    rwa [hreader] at hlodged

/-- The fields of a bundle that has been opened keep what they have. -/
theorem Opening.keepsField {bytes : Bytes} {fields : List Bundle.Field} (h : w.Opening bytes fields region w')
    {field : Bundle.Field} (hf : field ∈ fields) : w'.KeepsField region field.vec := by
  have hlodged := h.lodged field hf
  have hheld := lentBytes_ok h.lent
  have hopen : w'.isOpen region = true := by
    unfold isOpen Region.isOpen
    rw [hheld]
    rfl
  have hlender : ∀ view lender, (w'.vec field.vec).holding = .borrowed view lender → lender = region := by
    intro view lender hh
    exact (Option.some.inj (hlodged.borrowed view lender hh).1).symm
  have hshown : ∀ b, w'.Shows (.vec field.vec) b → w'.Reserved (.vec field.vec) b ∧ w'.Backs region field.vec b := by
    intro b hb
    cases hb with
    | stored o a ha => exact ⟨hlodged.owned a ha, Or.inr ⟨a, ha, rfl⟩⟩
    | borrowed id view lender hh =>
      obtain ⟨-, hbuffer⟩ := hlodged.borrowed view lender hh
      rw [hbuffer]
      exact ⟨h.foreign.reserved _, Or.inl ⟨_, hheld, rfl⟩⟩
  have hlasting : w'.Lasting region field.vec w' :=
    ⟨hlodged.lt, rfl, lt_of_isOpen hopen, rfl, fun b hb => ⟨(hshown b hb).1, rfl⟩⟩
  obtain ⟨values, hvalues⟩ : ∃ values, w'.contents (.vec field.vec) = .ok values := by
    change ∃ values, w'.elements (w'.vec field.vec) = .ok values
    cases hh : (w'.vec field.vec).holding with
    | empty => exact ⟨_, elements_eq_of_empty hh⟩
    | owned a => exact ⟨_, elements_eq_of_owned hh⟩
    | borrowed view lender =>
      refine ⟨w'.memory.elements view, ?_⟩
      rw [elements_eq_of_borrowed hh, hlender view lender hh, if_pos hopen]
  refine ⟨values, hvalues, fun later hl => ?_⟩
  exact ((hlasting.performAll (fun b hb => (hshown b hb).2) hl).contents hlender).trans hvalues

/-- A memory store with these files is a map of its own: what it keeps nobody else comes to, what is read from a path is
its file, and a bundle that is opened from a path lies over a copy of that file, of which the fields that are left alone
keep what they show. -/
structure Isolates (known : Nat → Prop) (w : World) (store : Nat) (files : Text → Option Bytes) : Prop where
  secret : KeptAs (fun r => w.Secret known r.buffer) (w.store store)
  reads : ∀ path, w.Yields store path (files path)
  opens : ∀ path policy fields region w',
    w.perform (.store store (.openInPlace path policy)) = (.ok (.opened fields region), w') →
    (∃ bytes r, files path = some bytes ∧ w'.lentBytes region = .ok r ∧ r.buffer = w.memory.buffers.size ∧
      w'.bytes r = bytes) ∧ ∀ field ∈ fields, w'.KeepsField region field.vec

theorem Hides.isolates {known : Nat → Prop} {files : Text → Option Bytes} (h : w.Hides known store files) :
    w.Isolates known store files where
  secret := by
    obtain ⟨fs, hfs, hk, -⟩ := h.kept
    rw [(solitary_store hfs).2]
    exact hk.mono fun r hr => hr.2
  reads := yields_of_keepsFiles (h.kept.carry (fun _ hs => hs) fun r hr => ⟨hr.1, rfl⟩)
  opens path policy fields region w' hopen := by
    obtain ⟨opened, hok, hreply⟩ := reply_of_ok (run_openInPlace ..) hopen
    cases hreply
    obtain ⟨fs, hfs, hk, -⟩ := h.kept
    have hstored : w.Stored := fun o a ha => h.contained.reached _ (reaches_storage ha)
    obtain ⟨bytes, hread, hopening⟩ := opening_of_openInPlace hstored (solitary_store hfs).2
      (hk.mono fun r hr => hr.1) hok
    refine ⟨⟨bytes, _, ?_, hopening.lent, rfl, hopening.kept⟩, fun field hf => hopening.keepsField hf⟩
    rw [h.kept.fileBytes_eq path] at hread
    cases hfile : files path with
    | some contents =>
      rw [hfile] at hread
      cases hread
      rfl
    | none =>
      rw [hfile] at hread
      cases hread

/-- The world in which a memory store has been made of these ranges. -/
def withStore (w : World) (sources : List (Text × ByteRange)) : World := (w.perform (.newMemory sources)).2

/-- Whatever has been done before, and whatever is done then by those who keep within what they know, a memory store
that is given plain bytes has for each path what was last written to it, as it was then, and the bundles that are opened
from it are snapshots. -/
theorem memory_store_isolated {limit : AllocationLimit} {before between : List Command}
    {sources : List (Text × ByteRange)} (hw : ((empty limit).performAll before).2 = w)
    (hk : (empty limit).Knowing (fun _ => False) (before ++ .newMemory sources :: between))
    (hs : ∀ s ∈ sources, s.2.shares = false) (hp : ∀ c ∈ between, c.PutsPlain w.stores.size) :
    ((w.withStore sources).performAll between).2.Isolates
      ((empty limit).knownAfter (fun _ => False) (before ++ .newMemory sources :: between)) w.stores.size
      fun path => (w.withStore sources).latest w.stores.size path (w.sourceOf sources path) between := by
  obtain ⟨hbefore, hmade, hbetween⟩ := knowing_append.1 hk
  have hcontained := (contained_empty limit).performAll hbefore
  rw [knownAfter_append]
  rw [hw] at hmade hbetween hcontained ⊢
  have hsources : ∀ s ∈ sources, s.2.shares = false ∧
      (empty limit).knownAfter (fun _ => False) before s.2.buffer := fun s hm =>
    ⟨hs s hm, hmade.buffers _ (List.mem_map.2 ⟨s, hm, rfl⟩)⟩
  exact ((hides_newMemory hcontained hsources).performAll hbetween hp).isolates

/-- A bundle with a field of two bytes and one without elements. -/
def bundleBytes : Bytes :=
  (⟨0, [⟨[97], .u8, 1, [0, 0, 0], 2, [7, 9]⟩, ⟨[98], .f64, 3, [0], 0, []⟩]⟩ : Bundle.Reading).bytes

/-- A bundle has been put in a store, and then the bytes that it came from have been written over and put there too. -/
def spoiledSource : World :=
  (((empty.performAll [.alloc bundleBytes]).2.withStore [([97], ⟨0, 0, 64, false⟩)]).performAll
    [.poke ⟨0, 0, 64, false⟩ 0 (.number 0), .store 0 (.put [98] ⟨0, 0, 8, false⟩)]).2

/-- What has been done names nothing but what it has been handed. -/
theorem knowing_spoiledSource : empty.Knowing (fun _ => False) ([.alloc bundleBytes] ++
    .newMemory [([97], ⟨0, 0, 64, false⟩)] ::
      [.poke ⟨0, 0, 64, false⟩ 0 (.number 0), .store 0 (.put [98] ⟨0, 0, 8, false⟩)]) := by
  have hknown : learned (fun _ => False) (empty.perform (.alloc bundleBytes)).1 0 := Or.inr ⟨_, rfl, rfl⟩
  refine ⟨⟨trivial, nofun, nofun⟩, ⟨trivial, nofun, fun b hb => ?_⟩, ⟨trivial, nofun, fun b hb => ?_⟩,
    ⟨trivial, nofun, fun b hb => ?_⟩, trivial⟩ <;> cases List.mem_singleton.1 hb
  · exact hknown
  · exact Or.inl hknown
  · exact Or.inl (Or.inl hknown)

theorem memory_store_isolated_spoiledSource :
    (∃ known files, files [97] = some bundleBytes ∧ files [98] = some (0 :: (bundleBytes.take 8).tail) ∧
      files [99] = none ∧ spoiledSource.Isolates known 0 files) ∧
    ∃ fields region w', spoiledSource.perform (.store 0 (.openInPlace [97] {})) = (.ok (.opened fields region), w') ∧
      fields.length = 2 ∧ ∀ field ∈ fields, w'.KeepsField region field.vec := by
  have hisolated := @memory_store_isolated (empty.performAll [.alloc bundleBytes]).2 default [.alloc bundleBytes]
    [.poke ⟨0, 0, 64, false⟩ 0 (.number 0), .store 0 (.put [98] ⟨0, 0, 8, false⟩)] [([97], ⟨0, 0, 64, false⟩)] rfl
    knowing_spoiledSource (fun s hs => by cases List.mem_singleton.1 hs; rfl) (by
      rintro c hc _ rfl r hr
      simp only [List.mem_cons, List.not_mem_nil, or_false, reduceCtorEq, false_or] at hc
      cases hc
      cases hr
      rfl)
  refine ⟨⟨_, _, ?_, ?_, ?_, hisolated⟩, ?_⟩
  · decide +kernel
  · decide +kernel
  · decide +kernel
  · have hanswer : answer? (openInPlace 0 [97] {} spoiledSource) =
        some ([⟨[97], 1, 0, .borrowed⟩, ⟨[98], 3, 1, .borrowed⟩], 0) := by decide +kernel
    obtain ⟨w', hok⟩ := exists_of_answer? hanswer
    have hperform := perform_ok (run_openInPlace ..) hok
    exact ⟨_, _, w', hperform, rfl, (hisolated.opens _ _ _ _ _ hperform).2⟩

/-- The path is written and deleted, the other field is cleared, and a copy of what was read is written over. -/
example : (((spoiledSource.perform (.store 0 (.openInPlace [97] {}))).2.performAll
    [.store 0 (.fetch [97]), .poke ⟨4, 0, 64, false⟩ 56 (.number 1), .store 0 (.put [97] ⟨4, 0, 8, false⟩),
      .store 0 (.discard [97]), .vec 1 .clear]).2.contents (.vec 0)).toOption =
    some [.number (.ofNat 7), .number (.ofNat 9)] := by
  decide +kernel

/-- Bytes that share have been put in a store, and then the first of them has been written over. -/
def sharedFile : World :=
  (((empty.performAll [.alloc [1, 2, 3]]).2.withStore []).performAll
    [.store 0 (.put [97] ⟨0, 0, 3, true⟩), .poke ⟨0, 0, 3, true⟩ 0 (.number (.ofNat 9))]).2

/-- Of bytes that share the store has no copy: it shows what has been written to them since. -/
theorem shared_file_is_written_over :
    empty.Knowing (fun _ => False) ([.alloc [1, 2, 3]] ++ .newMemory [] ::
      [.store 0 (.put [97] ⟨0, 0, 3, true⟩), .poke ⟨0, 0, 3, true⟩ 0 (.number (.ofNat 9))]) ∧
    ((empty.performAll [.alloc [1, 2, 3]]).2.withStore []).latest 0 [97] none
      [.store 0 (.put [97] ⟨0, 0, 3, true⟩), .poke ⟨0, 0, 3, true⟩ 0 (.number (.ofNat 9))] = some [1, 2, 3] ∧
    (sharedFile.perform (.store 0 (.fetch [97]))).1 = .ok (.range ⟨0, 0, 3, true⟩) ∧
    sharedFile.bytes ⟨0, 0, 3, true⟩ = [9, 2, 3] ∧ ¬ sharedFile.Yields 0 [97] (some [1, 2, 3]) := by
  have hfetch : fetch 0 [97] sharedFile = .ok ⟨0, 0, 3, true⟩ sharedFile := rfl
  have hperform := perform_ok (c := .store 0 (.fetch [97])) (f := Reply.range) rfl hfetch
  have hbytes : sharedFile.bytes ⟨0, 0, 3, true⟩ = [9, 2, 3] := by decide +kernel
  refine ⟨?_, by decide +kernel, congrArg Prod.fst hperform, hbytes, fun h => ?_⟩
  · have hknown : learned (fun _ => False) (empty.perform (.alloc [1, 2, 3])).1 0 := Or.inr ⟨_, rfl, rfl⟩
    refine ⟨⟨trivial, nofun, nofun⟩, ⟨trivial, nofun, nofun⟩, ⟨trivial, nofun, fun b hb => ?_⟩,
      ⟨trivial, nofun, fun b hb => ?_⟩, trivial⟩ <;> cases List.mem_singleton.1 hb
    · exact Or.inl hknown
    · exact Or.inl (Or.inl hknown)
  · obtain ⟨r, w', hfound, hread, -⟩ := h.found _ rfl
    cases hperform.symm.trans hfound
    exact absurd (hbytes.symm.trans hread) (by decide)

end World

end LeaseVec
