import LeaseVec.Proofs.Files.LastWrites
import LeaseVec.Proofs.Pack.Opening
import LeaseVec.Proofs.Pack.Validity

/-!
# Bundles are saved whole or not at all

All fields are encoded before the store is asked for anything, and packing reads, checks and builds before it saves.
So whatever goes wrong, in reading the document, in a field far behind others or in a vector that has lost its
region, has gone wrong before any file has changed. Saving that succeeds changes one file, and nothing of what there
was besides.
-/

namespace LeaseVec

namespace World

variable {w w' w'' : World} {store : Nat} {path : Text} {files : Text → Option Bytes}

/-- A store is a memory store with these files. -/
def HasFiles (w : World) (store : Nat) (files : Text → Option Bytes) : Prop :=
  w.KeepsFiles store (fun r => r.buffer < w.memory.buffers.size) files

/-- Apart from a store only new things have come: memory that was there and every vector are as they were, nothing has
been reported, and the other stores are as they were. -/
structure ChangesOnly (w : World) (store : Nat) (w' : World) : Prop where
  extended : w.Extends w.vecs.size w'
  promotions_eq : w'.promotions = w.promotions
  store_eq : ∀ other, other ≠ store → w'.store other = w.store other

theorem ChangesOnly.trans (h : w.ChangesOnly store w') (h' : w'.ChangesOnly store w'') :
    w.ChangesOnly store w'' where
  extended := h.extended.trans (h'.extended.mono h.extended.vecs_le)
  promotions_eq := h'.promotions_eq.trans h.promotions_eq
  store_eq := fun other hne => (h'.store_eq other hne).trans (h.store_eq other hne)

theorem changesOnly_of_stores (hx : w.Extends w.vecs.size w') (hp : w'.promotions = w.promotions)
    (hs : w'.stores = w.stores) : w.ChangesOnly store w' where
  extended := hx
  promotions_eq := hp
  store_eq := by
    intro other _
    unfold World.store
    rw [hs]

theorem changesOnly_setStore (w : World) (store : Nat) (s : Store) :
    w.ChangesOnly store (w.setStore store s) where
  extended := ⟨le_rfl, fun _ _ => rfl, rfl, le_rfl, fun _ _ => rfl, rfl, fun _ => rfl, fun _ => rfl⟩
  promotions_eq := rfl
  store_eq := by
    intro other hne
    unfold World.store setStore
    rw [Array.getD_eq_getD_getElem?, Array.getD_eq_getD_getElem?, Array.getElem?_setIfInBounds_ne hne.symm]

/-- What has been added to memory changes no file. -/
theorem HasFiles.of_extends {n : Nat} (h : w.HasFiles store files) (hx : w.Extends n w') (hs : w'.stores = w.stores) :
    w'.HasFiles store files := by
  refine h.carry (fun s hsolitary => ?_) fun r hr => ⟨hr.trans_le hx.size_le, Memory.read_congr (hx.buffer _ hr)⟩
  show (w'.stores[store]?).map _ = _
  rw [hs]
  exact hsolitary

theorem changesOnly_alloc (w : World) (store : Nat) (bytes : Bytes) :
    w.ChangesOnly store { w with memory := (w.memory.alloc bytes).2 } :=
  changesOnly_of_stores (extends_alloc w w.vecs.size bytes) rfl rfl

theorem changesOnly_withFile (w : World) (store : Nat) (fs : List (Text × ByteRange)) (path : Text) (bytes : Bytes) :
    w.ChangesOnly store (w.withFile store fs path bytes) :=
  (w.changesOnly_alloc store bytes).trans (changesOnly_setStore _ store _)

theorem HasFiles.withFile {fs : List (Text × ByteRange)} (h : w.HasFiles store files)
    (hfs : w.store store = .memory fs) (path : Text) (bytes : Bytes) :
    (w.withFile store fs path bytes).HasFiles store (Function.update files path (some bytes)) := by
  obtain ⟨fs', hsolitary, hk, hfiles⟩ := h
  cases hfs.symm.trans (solitary_store hsolitary).2
  have hgrows := Memory.grows_alloc w.memory bytes
  refine KeepsFiles.withFile hsolitary hk hfiles path bytes (fun r hr => ⟨hr.trans_le hgrows.size_le, ?_⟩)
    (w.memory.lt_size_alloc bytes)
  exact Memory.read_congr (Memory.buffer_alloc_of_lt bytes hr)

/-- How saving fields to a path of a memory store ends: the fields cannot be encoded and the world is the same, or
their bundle is the file of that path and no other file is different. -/
inductive SaveEnds (w : World) (store : Nat) (path : Text) (files : Text → Option Bytes)
    (fields : List Bundle.Source) : EStateM.Result Fault World Nat → Prop where
  | failed {e : Fault} (h : Bundle.encode w fields = .error e) : SaveEnds w store path files fields (.error e w)
  | saved {bytes : Bytes} {w' : World} (h : Bundle.encode w fields = .ok bytes)
      (written : w'.HasFiles store (Function.update files path (some bytes))) (rest : w.ChangesOnly store w') :
    SaveEnds w store path files fields (.ok bytes.length w')

theorem HasFiles.saveEnds (h : w.HasFiles store files) (path : Text) (fields : List Bundle.Source) :
    w.SaveEnds store path files fields (storeBundle store path fields w) := by
  cases hencode : Bundle.encode w fields with
  | error e =>
    rw [storeBundle_error store path hencode]
    exact .failed hencode
  | ok bytes =>
    obtain ⟨fs, hsolitary, -⟩ := id h
    have hfs := (solitary_store hsolitary).2
    rw [storeBundle_of_memory hfs hencode]
    refine .saved hencode ?_ ((w.changesOnly_alloc store bytes).trans (changesOnly_withFile _ store fs path bytes))
    exact (h.of_extends (extends_alloc w 0 bytes) rfl).withFile hfs path bytes

end World

namespace Pack

open World

section

variable {w w' : World} {store : Nat} {input output : Text} {files : Text → Option Bytes} {contents : Bytes}

theorem promotions_of_mapM_build {specs : List FieldSpec} {vectors : List Nat}
    (h : specs.mapM FieldSpec.build w = .ok vectors w') : w'.promotions = w.promotions := by
  induction specs generalizing w vectors with
  | nil =>
    cases h
    rfl
  | cons f specs ih =>
    rw [List.mapM_cons] at h
    obtain ⟨vec, w₁, hfirst, h⟩ := Action.bind_ok_iff.1 h
    obtain ⟨rest, w₂, hrest, h⟩ := Action.bind_ok_iff.1 h
    cases h
    have hbuild : w₁.promotions = w.promotions := by
      obtain ⟨-, hadd⟩ := Action.demand_bind_ok_iff.1 hfirst
      cases hadd
      rfl
    exact (ih hrest).trans hbuild

/-- A value is refused, or its fields are built, and no store knows of it. -/
theorem accept_cases (raw : Json) (w : World) (store : Nat) :
    (∃ fault, fields raw = .error fault ∧ accept raw w = .error (.document fault) w) ∨
      ∃ got w', accept raw w = .ok got w' ∧ w'.stores = w.stores ∧ w.ChangesOnly store w' := by
  cases hfields : fields raw with
  | error fault => exact Or.inl ⟨fault, rfl, accept_error hfields w⟩
  | ok specs =>
    obtain ⟨w', hbuild, hx, hstores, -⟩ := mapM_build_ok (accepted_of_fields hfields).1 w
    exact Or.inr ⟨_, w', accept_ok hfields hbuild, hstores,
      changesOnly_of_stores hx (promotions_of_mapM_build hbuild) hstores⟩

/-- The contents of a file have been read, which at most adds to memory. -/
structure Fetches (w : World) (store : Nat) (input : Text) (contents : Bytes) (w' : World) : Prop where
  fetched : ∃ r, fetch store input w = .ok r w' ∧ w'.bytes r = contents
  stores_eq : w'.stores = w.stores
  rest : w.ChangesOnly store w'

theorem exists_fetches (h : w.fileBytes store input = .ok contents) : ∃ w', Fetches w store input contents w' := by
  obtain ⟨r, m, hfetch, hgrows, hframe, hread⟩ := fetch_ok h
  refine ⟨_, ⟨r, hfetch, hread⟩, rfl, changesOnly_of_stores ⟨hgrows.size_le, fun b hb => hframe b hb id, rfl, le_rfl,
    fun _ _ => rfl, rfl, fun _ => rfl, fun _ => rfl⟩ rfl rfl⟩

/-- Why nothing is packed: there is no document, it is no JSON text, it is refused, or the fields that it describes
cannot be encoded. -/
inductive PackFails (w : World) (store : Nat) (input : Text) (files : Text → Option Bytes) : Fault → Prop where
  | missing (h : files input = none) : PackFails w store input files (.fileNotFound input)
  | noValue {contents : Bytes} {e : Fault} (hfile : files input = some contents) (h : parsed contents = .error e) :
    PackFails w store input files e
  | refused {contents : Bytes} {raw : Json} {fault : DocumentFault} (hfile : files input = some contents)
      (hparsed : parsed contents = .ok raw) (h : fields raw = .error fault) :
    PackFails w store input files (.document fault)
  | unencoded {contents : Bytes} {raw : Json} {got : List Bundle.Source} {w₁ w₂ : World} {e : Fault}
      (hfile : files input = some contents) (hfetch : Fetches w store input contents w₁)
      (hparsed : parsed contents = .ok raw) (haccept : accept raw w₁ = .ok got w₂)
      (h : Bundle.encode w₂ got = .error e) : PackFails w store input files e

/-- How packing one file of a memory store into another ends. When it fails every file is as it was. When it
succeeds the bundle of the fields that the document describes is the file of the output, no other file is
different, and the vectors of the fields are as they were built. -/
inductive PackEnds (w : World) (store : Nat) (input output : Text) (files : Text → Option Bytes) :
    EStateM.Result Fault World (Nat × Nat) → Prop where
  | failed {e : Fault} {w' : World} (why : PackFails w store input files e) (same : w'.HasFiles store files)
      (rest : w.ChangesOnly store w') : PackEnds w store input output files (.error e w')
  | packed {contents bytes : Bytes} {raw : Json} {got : List Bundle.Source} {w₁ w₂ w' : World}
      (hfile : files input = some contents) (hfetch : Fetches w store input contents w₁)
      (hparsed : parsed contents = .ok raw) (haccept : accept raw w₁ = .ok got w₂)
      (h : Bundle.encode w₂ got = .ok bytes)
      (written : w'.HasFiles store (Function.update files output (some bytes)))
      (built : w₂.ChangesOnly store w') (rest : w.ChangesOnly store w') :
    PackEnds w store input output files (.ok (got.length, bytes.length) w')

theorem run_of_missing (h : w.HasFiles store files) (hfile : files input = none) :
    run store input output w = .error (.fileNotFound input) w := by
  have hread := h.fileBytes_eq input
  rw [hfile] at hread
  rw [run_eq_accept]
  exact Action.bind_error (fetch_error hread)

/-- Behind the reading of the document a run goes on with its contents. -/
theorem run_of_found {w₁ : World} (h : Fetches w store input contents w₁) :
    run store input output w = (Action.ofExcept (parsed contents) >>= fun raw => accept raw >>= fun got =>
      storeBundle store output got >>= fun bytes => pure (got.length, bytes)) w₁ := by
  obtain ⟨r, hfetch, hread⟩ := h.fetched
  rw [run_eq_accept, Action.bind_ok hfetch]
  show (Action.ofExcept (parsed (w₁.bytes r)) >>= _) _ = _
  rw [hread]

theorem packEnds_run (h : w.HasFiles store files) (input output : Text) :
    PackEnds w store input output files (run store input output w) := by
  have hread := h.fileBytes_eq input
  cases hfile : files input with
  | none =>
    rw [run_of_missing h hfile]
    exact .failed (.missing hfile) h (changesOnly_of_stores (.refl ..) rfl rfl)
  | some contents =>
    rw [hfile] at hread
    obtain ⟨w₁, hfetch⟩ := exists_fetches hread
    rw [run_of_found hfetch]
    have hread := hfetch.rest
    have hfiles : w₁.HasFiles store files := h.of_extends hread.extended hfetch.stores_eq
    cases hparsed : parsed contents with
    | error e => exact .failed (.noValue hfile hparsed) hfiles hread
    | ok raw =>
      show PackEnds w store input output files ((accept raw >>= _) w₁)
      rcases accept_cases raw w₁ store with ⟨fault, hfields, haccept⟩ | ⟨got, w₂, haccept, hstores, hbuilt⟩
      · rw [Action.bind_error haccept]
        exact .failed (.refused hfile hparsed hfields) hfiles hread
      · have hfiles₂ := hfiles.of_extends hbuilt.extended hstores
        have hends := hfiles₂.saveEnds output got
        rw [Action.bind_ok haccept]
        generalize hsave : storeBundle store output got w₂ = result at hends
        cases hends with
        | failed hencode =>
          rw [Action.bind_error hsave]
          exact .failed (.unencoded hfile hfetch hparsed haccept hencode) hfiles₂ (hread.trans hbuilt)
        | saved hencode hwritten hrest =>
          rw [Action.bind_ok hsave]
          exact .packed hfile hfetch hparsed haccept hencode hwritten hrest ((hread.trans hbuilt).trans hrest)

/-- Saving fields and packing a document are all or nothing. Whatever the files of a memory store, the fields and
the two paths are, equal or not: saving and packing leave every file as it was when they fail, and when they succeed
one file is different, which is the bundle. The answers are its length and the number of its fields, and of the
vectors, of memory and of what has been reported nothing is different. -/
theorem saved_whole_or_not (h : w.HasFiles store files) :
    (∀ path fields, w.SaveEnds store path files fields (storeBundle store path fields w)) ∧
      ∀ input output, PackEnds w store input output files (run store input output w) :=
  ⟨h.saveEnds, packEnds_run h⟩

end

/-- A memory store with a document, a vector of two bytes, and a vector that has borrowed them from a region which
is closed. -/
def closedLender : World :=
  { holdingDocument pairAndNone with
    memory := ⟨#[Text.Utf8.encode (Text.ofString pairAndNone), [7, 9]], 0, default⟩
    regions := #[⟨[], 2, none⟩]
    vecs := #[⟨.u8, false, .owned ⟨.u8, 1, 0, 2, 2, false⟩⟩, ⟨.u8, false, .borrowed ⟨.u8, 1, 0, 2, 0⟩ 0⟩] }

/-- The files of the store. -/
def documentOnly (path : Text) : Option Bytes :=
  if path = input then some (Text.Utf8.encode (Text.ofString pairAndNone)) else none

theorem hasFiles_closedLender : closedLender.HasFiles 0 documentOnly := by
  let document : ByteRange := ⟨0, 0, (Text.Utf8.encode (Text.ofString pairAndNone)).length, false⟩
  have hfind : ∀ path, Store.find? [(input, document)] path = if path = input then some document else none :=
    fun path => Store.find?_keep [] input path document
  refine ⟨[(input, document)], rfl, ?_, fun path => ?_⟩
  · rintro _ path r ⟨⟩ hr
    rw [hfind] at hr
    split_ifs at hr
    cases hr
    exact Nat.zero_lt_two
  · rw [hfind]
    unfold documentOnly
    split_ifs
    · exact congrArg some (List.take_length ..)
    · rfl

/-- Saving both vectors fails behind the first one, and saving the first or packing the document over itself
succeeds. -/
theorem saved_whole_or_not_closedLender :
    let first : Bundle.Source := ⟨[97], 0, 1⟩
    let second : Bundle.Source := ⟨[98], 1, 1⟩
    closedLender.HasFiles 0 documentOnly ∧
      (∃ e, storeBundle 0 output [first, second] closedLender = .error e closedLender) ∧
      (∃ bytes w', storeBundle 0 output [first] closedLender = .ok bytes.length w' ∧
        w'.HasFiles 0 (Function.update documentOnly output (some bytes))) ∧
      ∃ bytes w', run 0 input input closedLender = .ok (2, bytes.length) w' ∧
        w'.HasFiles 0 (Function.update documentOnly input (some bytes)) := by
  intro first second
  have hfiles := hasFiles_closedLender
  have hboth : answer? (storeBundle 0 output [first, second] closedLender) = none := by decide +kernel
  have hone : (answer? (storeBundle 0 output [first] closedLender)).isSome = true := by decide +kernel
  have hrun : (answer? (run 0 input input closedLender)).map Prod.fst = some 2 := by decide +kernel
  obtain ⟨hsave, hpack⟩ := saved_whole_or_not hfiles
  refine ⟨hfiles, ?_, ?_, ?_⟩
  · have hends := hsave output [first, second]
    generalize storeBundle 0 output [first, second] closedLender = result at hends hboth
    cases hends with
    | failed _ => exact ⟨_, rfl⟩
    | saved _ _ _ => cases hboth
  · have hends := hsave output [first]
    generalize storeBundle 0 output [first] closedLender = result at hends hone
    cases hends with
    | failed _ => cases hone
    | saved _ hwritten _ => exact ⟨_, _, rfl, hwritten⟩
  · have hends := hpack input input
    generalize run 0 input input closedLender = result at hends hrun
    cases hends with
    | failed _ _ _ => cases hrun
    | @packed _ bytes _ got _ _ w' _ _ _ _ _ hwritten _ _ =>
      have hcount : got.length = 2 := Option.some.inj hrun
      rw [hcount]
      exact ⟨bytes, w', rfl, hwritten⟩

end Pack

end LeaseVec
