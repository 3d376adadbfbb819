import LeaseVec.Proofs.Lifetime.Walks
import LeaseVec.Proofs.Ownership.Promotion
import LeaseVec.Proofs.World.Leads

/-!
# What a vector holds is of its own kind

A vector makes its storage for its own kind and exchanges it for storage of that kind only, and a field is
read as elements of the vector's kind. The one way to elements of another kind is a view that is attached.
As long as every view that is attached is of the vector's own kind, every command keeps all vectors uniform.
Nothing is asked about who shares which bytes: views may overlap each other and the storage of any vector.
-/

namespace LeaseVec

open Number

namespace World

open LeaseVec.Action

variable {α : Type} {w w' : World}

/-- Every vector holds what is there and of its kind, and iterations deliver elements of their vector's
kind. -/
structure Uniform (w : World) : Prop where
  vecs : ∀ id, (w.vec id).Sound w.memory
  arrays : ∀ (id : Nat) a, w.arrays[id]? = some a → a.Stored w.memory
  held : ∀ id r, (w.region id).held = some r → w.memory.Covers r
  sources : ∀ id, id < w.readers.size → w.memory.Covers (w.reader id).source
  kept : ∀ id, KeptAs w.memory.Covers (w.store id)
  walks : ∀ it id view position, w.iteration it = .running id view position →
    id < w.vecs.size ∧ view.kind = (w.vec id).kind

/-- Memory only grows, and a uniform world stays so. -/
structure Retains (w w' : World) : Prop where
  grows : w.memory.Grows w'.memory
  uniform : w'.memory.Addressable → w.Uniform → w'.Uniform

instance : Std.Refl Retains := ⟨fun _ => ⟨Memory.Grows.refl _, fun _ hu => hu⟩⟩

instance : IsTrans World Retains := ⟨fun _ _ _ h h' =>
  ⟨h.grows.trans h'.grows, fun hm hu => h'.uniform hm (h.uniform (hm.of_grows h'.grows) hu)⟩⟩

/-- However a step ends, a uniform world stays so. -/
abbrev Retaining {α : Type} (x : Action α) (w : World) (post : α → World → Prop) : Prop :=
  Leads Retains (fun _ => True) x w post

theorem Retaining.ofExcept_bind {α β : Type} {w : World} {e : Except Fault α} {f : α → Action β}
    {q : β → World → Prop} (h : ∀ a, e = .ok a → Retaining (f a) w q) :
    Retaining (Action.ofExcept e >>= f) w q := Leads.ofExcept_bind (fun _ _ => trivial) h

theorem retaining_ofExcept {α : Type} {w : World} (e : Except Fault α) :
    Retaining (Action.ofExcept e) w fun _ _ => True := by
  cases e with
  | ok a => exact leads_pure trivial
  | error e => exact leads_throw trivial

theorem retaining_ask {α : Type} {w : World} (question : World → Except Fault α) :
    Retaining (ask question) w fun _ _ => True := by
  apply Leads.get_bind
  exact retaining_ofExcept _

theorem retains_of_eq (hg : w.memory.Grows w'.memory) (hv : w'.vecs = w.vecs)
    (ha : w'.arrays = w.arrays) (hr : w'.regions = w.regions) (hd : w'.readers = w.readers)
    (hi : w'.iterations = w.iterations) (hs : w'.stores = w.stores) : w.Retains w' := by
  cases w
  cases w'
  simp only at hv ha hr hd hi hs
  subst hv ha hr hd hi hs
  exact ⟨hg, fun _ hu => ⟨fun id => (hu.vecs id).of_grows hg, fun id a h => (hu.arrays id a h).of_grows hg,
    fun id r h => (hu.held id r h).of_grows hg, fun id h => (hu.sources id h).of_grows hg,
    fun id => (hu.kept id).mono fun _ h => h.of_grows hg, hu.walks⟩⟩

theorem retains_memory {m : Memory} (hg : w.memory.Grows m) : w.Retains { w with memory := m } :=
  retains_of_eq hg rfl rfl rfl rfl rfl rfl

/-- A vector holds something else. -/
theorem retains_hold (id : Nat) {h : Holding} {m : Memory} (p : Array Promotion) (hg : w.memory.Grows m)
    (hs : m.Addressable → w.Uniform → Vec.Sound m { w.vec id with holding := h }) :
    w.Retains ({ w with memory := m, promotions := p }.setHolding id h) := by
  refine ⟨hg, fun hm hu => ?_⟩
  refine ⟨fun j => ?_, fun j a ha => (hu.arrays j a ha).of_grows hg,
    fun j r hr => (hu.held j r hr).of_grows hg, fun j hj => (hu.sources j hj).of_grows hg,
    fun j => (hu.kept j).mono fun _ h => h.of_grows hg, fun it j view position hit => ?_⟩
  · rw [vec_setHolding]
    split_ifs with hj
    · exact hs hm hu
    · exact (hu.vecs j).of_grows hg
  · rw [kind_vec_setHolding, size_vecs_setHolding]
    exact hu.walks it j view position hit

theorem retains_pushVec {v : Vec} {m : Memory} (hg : w.memory.Grows m) (hs : v.Sound m) :
    w.Retains { w with vecs := w.vecs.push v, memory := m } := by
  refine ⟨hg, fun _ hu => ?_⟩
  have hvec : ∀ j, ({ w with vecs := w.vecs.push v, memory := m } : World).vec j =
      if j = w.vecs.size then v else w.vec j := fun j => w.vec_push v j
  refine ⟨fun j => ?_, fun j a ha => (hu.arrays j a ha).of_grows hg,
    fun j r hr => (hu.held j r hr).of_grows hg, fun j hj => (hu.sources j hj).of_grows hg,
    fun j => (hu.kept j).mono fun _ h => h.of_grows hg, fun it j view position hit => ?_⟩
  · rw [hvec]
    split_ifs
    · exact hs
    · exact (hu.vecs j).of_grows hg
  · obtain ⟨hlt, hk⟩ := hu.walks it j view position hit
    rw [hvec, if_neg (by omega)]
    refine ⟨?_, hk⟩
    show j < (w.vecs.push v).size
    rw [Array.size_push]
    omega

theorem retains_arrays {arrays : Array Growable} {m : Memory} (hg : w.memory.Grows m)
    (hs : m.Addressable → w.Uniform → ∀ (id : Nat) a, arrays[id]? = some a → a.Stored m) :
    w.Retains { w with arrays := arrays, memory := m } := by
  refine ⟨hg, fun hm hu => ?_⟩
  exact ⟨fun j => (hu.vecs j).of_grows hg, hs hm hu, fun j r hr => (hu.held j r hr).of_grows hg,
    fun j hj => (hu.sources j hj).of_grows hg,
    fun j => (hu.kept j).mono fun _ h => h.of_grows hg, hu.walks⟩

theorem retains_pushArray {a : Growable} {m : Memory} (hg : w.memory.Grows m) (hs : a.Stored m) :
    w.Retains { w with arrays := w.arrays.push a, memory := m } := by
  refine retains_arrays hg fun _ hu id b hb => ?_
  rw [Array.getElem?_push] at hb
  split_ifs at hb
  · cases hb
    exact hs
  · exact (hu.arrays id b hb).of_grows hg

theorem retains_setArray (id : Nat) {a : Growable} {m : Memory} (hg : w.memory.Grows m)
    (hs : m.Addressable → w.Uniform → id < w.arrays.size → a.Stored m) :
    w.Retains ({ w with memory := m }.setArray id a) := by
  refine retains_arrays hg fun hm hu j b hb => ?_
  have hset := getElem?_setArray w id a j
  unfold setArray at hset
  rw [hset] at hb
  split_ifs at hb with hj
  · cases hb
    exact hs hm hu hj.2
  · exact (hu.arrays j b hb).of_grows hg

theorem retains_pushRegion {label : Text} {n : Nat} {r : ByteRange} (hc : w.Uniform → w.memory.Covers r) :
    w.Retains { w with regions := w.regions.push ⟨label, n, some r⟩ } := by
  refine ⟨Memory.Grows.refl _, fun _ hu => ⟨hu.vecs, hu.arrays, fun id held h => ?_, hu.sources, hu.kept, hu.walks⟩⟩
  rw [region_push] at h
  split_ifs at h
  · cases h
    exact hc hu
  · exact hu.held id held h

theorem retains_close (id : Nat) : w.Retains ((close id).after w) := by
  refine ⟨Memory.Grows.refl _, fun _ hu => ⟨hu.vecs, hu.arrays, fun j r h => ?_, hu.sources, hu.kept, hu.walks⟩⟩
  rw [region_close] at h
  split_ifs at h
  exact hu.held j r h

theorem retains_pushReader {source : ByteRange} {lender : Option Nat}
    (hc : w.Uniform → w.memory.Covers source) :
    w.Retains { w with readers := w.readers.push ⟨source, 0, lender⟩ } := by
  refine ⟨Memory.Grows.refl _, fun _ hu => ⟨hu.vecs, hu.arrays, hu.held, fun id hid => ?_, hu.kept, hu.walks⟩⟩
  rw [reader_push]
  split_ifs with hnew
  · exact hc hu
  · apply hu.sources
    have hle : id < w.readers.size + 1 := by simpa using hid
    omega

theorem retains_setOffset (reader offset : Nat) :
    w.Retains (w.setReader reader { w.reader reader with offset := offset }) := by
  refine ⟨Memory.Grows.refl _, fun _ hu => ⟨hu.vecs, hu.arrays, hu.held, fun id hid => ?_, hu.kept, hu.walks⟩⟩
  rw [source_setOffset]
  exact hu.sources id (by simpa using hid)

theorem retains_pushIteration (id : Nat) :
    w.Retains { w with iterations := w.iterations.push (.fresh id) } := by
  refine ⟨Memory.Grows.refl _, fun _ hu => ⟨hu.vecs, hu.arrays, hu.held, hu.sources, hu.kept, ?_⟩⟩
  intro it vec view position h
  rw [iteration_push] at h
  split_ifs at h
  exact hu.walks it vec view position h

theorem retains_setIteration (it : Nat) {i : Iteration}
    (hi : w.Uniform → ∀ id view position, i = .running id view position →
      id < w.vecs.size ∧ view.kind = (w.vec id).kind) : w.Retains (w.setIteration it i) := by
  refine ⟨Memory.Grows.refl _, fun _ hu => ⟨hu.vecs, hu.arrays, hu.held, hu.sources, hu.kept, ?_⟩⟩
  intro other id view position h
  rw [iteration_setIteration] at h
  split_ifs at h
  · exact hi hu id view position h
  · exact hu.walks other id view position h

/-- A store keeps other files. -/
theorem retains_stores {stores : Array Store}
    (hs : w.Uniform → ∀ id, KeptAs w.memory.Covers (stores.getD id default)) : w.Retains { w with stores := stores } :=
  ⟨Memory.Grows.refl _, fun _ hu => ⟨hu.vecs, hu.arrays, hu.held, hu.sources, hs hu, hu.walks⟩⟩

theorem retains_setStore (id : Nat) {s : Store} (hs : w.Uniform → KeptAs w.memory.Covers s) :
    w.Retains (w.setStore id s) := by
  refine retains_stores fun hu j => ?_
  have hstore := store_setStore w id s j
  unfold store setStore at hstore
  rw [hstore]
  split_ifs
  · exact hs hu
  · exact hu.kept j

theorem retains_pushStore {s : Store} (hs : w.Uniform → KeptAs w.memory.Covers s) :
    w.Retains { w with stores := w.stores.push s } := by
  refine retains_stores fun hu j => ?_
  have hstore := store_push w s j
  unfold store at hstore
  rw [hstore]
  split_ifs
  · exact hs hu
  · exact hu.kept j

theorem retaining_of_eq {x : Action α} (h : w.Retains (x.after w)) : Retaining x w fun _ _ => True :=
  leads_of_after h

theorem retaining_alloc (contents : Bytes) :
    Retaining (alloc contents) w fun r w' => w'.memory.Covers r :=
  leads_of_ok rfl (retains_memory (Memory.grows_alloc ..)) (w.memory.covers_alloc contents)

theorem retaining_nextSerial : Retaining nextSerial w fun _ _ => True :=
  retaining_of_eq (retains_memory (grows_countView w.memory))

theorem retaining_view (kind : Kind) (buffer : Nat) (offset : Binary64) (length : Option Binary64) :
    Retaining (view kind buffer offset length) w fun v w' => w'.vecs = w.vecs ∧ v.kind = kind ∧
      (buffer < w.memory.buffers.size → w'.memory.Covers v.range) := by
  cases h : w.memory.view? kind buffer offset length with
  | error e =>
    have hstop : view kind buffer offset length w = .error e w := by
      unfold view
      rw [h]
    exact leads_of_error hstop (refl_of Retains w) trivial
  | ok r =>
    obtain ⟨v, m⟩ := r
    obtain ⟨hkind, hbuffer, hle, rfl⟩ := view?_ok h
    have hview : view kind buffer offset length w = .ok v { w with memory := countView w.memory } := by
      unfold view
      rw [h]
    refine leads_of_ok hview (retains_memory (grows_countView _)) ⟨rfl, hkind, fun hlt => ⟨?_, ?_⟩⟩
    · show v.buffer < w.memory.buffers.size
      rwa [hbuffer]
    · show v.offset + v.byteLength ≤ (w.memory.buffer v.buffer).length
      rwa [hbuffer]

theorem retaining_lend {r : ByteRange} (label : Text) (hc : w.Uniform → w.memory.Covers r) :
    Retaining (lend r label) w fun _ _ => True := by
  rcases lend_cases w r label with ⟨-, h⟩ | ⟨-, h⟩
  · exact leads_of_ok h (retains_pushRegion hc) trivial
  · obtain ⟨hcopy, hcovers⟩ := retaining_alloc (w := w) (w.bytes r)
    exact leads_of_ok h (trans_of Retains hcopy (retains_pushRegion fun _ => hcovers)) trivial

theorem retaining_newReader {source : ByteRange} (hc : w.memory.Covers source) :
    Retaining (newReader source) w fun _ _ => True :=
  retaining_of_eq (retains_pushReader fun _ => hc)

theorem retaining_newBorrower (region : Nat) : Retaining (newBorrower region) w fun _ _ => True := by
  refine Leads.get_bind (Retaining.ofExcept_bind fun source h => ?_)
  exact leads_of_ok rfl (retains_pushReader fun hu => hu.held region source (lentBytes_ok h)) trivial

theorem retaining_scan (reader : Nat) (s : Scan α) : Retaining (scan reader s) w fun a w' => ∃ offset,
    s (w.bytes (w.reader reader).source) (w.reader reader).offset = .ok a offset ∧
      w' = w.setReader reader { w.reader reader with offset := offset } := by
  cases h : s (w.bytes (w.reader reader).source) (w.reader reader).offset with
  | ok a offset => exact leads_of_ok (scan_ok h) (retains_setOffset reader offset) ⟨offset, rfl, rfl⟩
  | error e offset => exact leads_of_error (scan_error h) (retains_setOffset reader offset) trivial

variable {id : Nat}

theorem retains_owns {words : List Nat} (h : w.Owns id words w') : w.Retains w' := by
  obtain ⟨a, m, p, rfl, hg, hk, hs⟩ := h
  exact retains_hold id p hg fun hm _ => ⟨hk, (hs hm).1⟩

/-- What grows memory retains uniform worlds if it retains this one when it is uniform. -/
theorem retains_of_uniform (hg : w.memory.Grows w'.memory) (h : w.Uniform → w.Retains w') : w.Retains w' :=
  ⟨hg, fun hm hu => (h hu).uniform hm hu⟩

theorem retaining_edit {c : VecCommand} (hc : c.Edits) : Retaining (c.run id) w fun _ _ => True := by
  have hg : w.memory.Grows ((c.run id).after w).memory := by
    cases c with
    | writable => exact (safe_map rewrites_writableView.advances).after.grows
    | set index value => exact (safe_done (rewrites_setAt index value).advances).after.grows
    | push value => exact (safe_done (rewrites_push value).advances).after.grows
    | pop => exact (safe_map rewrites_pop.advances).after.grows
    | resize length fill => exact (safe_done (rewrites_resize length fill).advances).after.grows
    | _ => exact hc.elim
  refine retaining_of_eq (retains_of_uniform hg fun hu => ?_)
  have hafter : (w.perform (.vec id c)).2 = (c.run id).after w := perform_snd w (.vec id c)
  have h := changed_perform (hu.vecs id) hc
  cases hp : w.perform (.vec id c) with
  | mk outcome w' =>
    rw [hp] at h hafter
    rw [← hafter]
    cases h with
    | refused e => exact refl_of Retains w
    | failed e hv howns => exact retains_owns howns
    | done reply hv howns => exact retains_owns howns

theorem retaining_attach {view : View} {region : Nat} (hs : w.Uniform →
    view.kind = (w.vec id).kind ∧ w.memory.Covers view.range) :
    Retaining (attach id view region) w fun _ _ => True := by
  apply retaining_of_eq
  unfold Action.after
  rw [attach_eq]
  by_cases hm : (w.vec id).mode = .owned
  · rw [if_pos hm]
    exact refl_of Retains w
  · rw [if_neg hm]
    by_cases ho : w.isOpen region = true
    · rw [if_pos ho]
      exact retains_hold id w.promotions (Memory.Grows.refl _) fun _ hu => hs hu
    · rw [if_neg ho]
      exact refl_of Retains w

theorem retaining_swapWith {array : Nat} (harray : array < w.arrays.size) :
    Retaining (swapWith id array) w fun _ _ => True := by
  apply retaining_of_eq
  by_cases hk : (w.vec id).kind = (w.array array).kind
  · have hgrows : w.memory.Grows ((own id).after w).memory := rewrites_own.advances.grows
    cases hown : own id w with
    | error e w₁ =>
      rw [Action.after_error (swapWith_of_error hk hown), own_error hown]
      exact refl_of Retains w
    | ok a w₁ =>
      rw [Action.after_ok (swapWith_ok hk hown)]
      rw [Action.after_ok hown] at hgrows
      refine retains_of_uniform hgrows fun hu => ?_
      obtain ⟨m, p, rfl, hp⟩ := own_promoted (hu.vecs id) hown
      have hstored : (w.array array).Stored m :=
        (hu.arrays array _ (w.getElem?_arrays harray)).of_grows hp.grows
      -- first the vector takes what the array has, then the array what the vector had
      have hfirst : w.Retains ((w.withOwned id a m p).setHolding id (.owned (w.array array))) := by
        unfold withOwned
        rw [setHolding_setHolding]
        exact retains_hold id p hp.grows fun _ _ => ⟨hk.symm, hstored⟩
      exact trans_of Retains hfirst (retains_setArray array (Memory.Grows.refl _) fun _ _ _ => hp.stored)
  · rw [Action.after_error (swapWith_of_ne hk)]
    exact refl_of Retains w

theorem retaining_shareView (id : Nat) : Retaining (shareView id) w fun _ _ => True := by
  refine Leads.get_bind (Retaining.ofExcept_bind fun view _ => ?_)
  have hserial : ∀ u : World, Retaining (nextSerial >>= fun _ => (pure view : Action View)) u
      fun _ _ => True := fun u => retaining_nextSerial.bind fun _ _ _ _ => leads_pure trivial
  by_cases hm : (w.vec id).mode = .empty
  · rw [if_pos hm]
    exact (retaining_alloc []).bind fun _ u _ _ => hserial u
  · rw [if_neg hm]
    exact hserial w

/-- The view of what a vector holds is of the vector's kind. -/
theorem kind_of_viewOf {m : Memory} {v : Vec} {view : View} (hs : v.Sound m) (h : w.viewOf v = .ok view) :
    view.kind = v.kind := by
  unfold Vec.Sound at hs
  cases viewing_of_viewOf h with
  | empty => rfl
  | borrowed hh =>
    rw [hh] at hs
    exact hs.1
  | owned hh =>
    rw [hh] at hs
    exact hs.1

theorem byteLength_of_viewOf {m : Memory} {v : Vec} {view : View} (hs : v.Sound m) (h : w.viewOf v = .ok view) :
    view.byteLength = v.size * v.kind.width := by
  unfold View.byteLength
  rw [length_of_viewOf h, kind_of_viewOf hs h]

/-- The bytes under a vector's elements are all there. -/
theorem length_read_of_viewOf {v : Vec} {view : View} (hs : v.Sound w.memory) (h : w.viewOf v = .ok view) :
    (w.memory.read view.range).length = view.byteLength := by
  unfold Vec.Sound at hs
  cases viewing_of_viewOf h with
  | empty =>
    show ((w.memory.buffer w.memory.buffers.size).slice 0 (0 * v.kind.width)).length = 0 * v.kind.width
    simp
  | borrowed hh =>
    rw [hh] at hs
    exact length_bytes hs.2
  | @owned a hh =>
    rw [hh] at hs
    have hle := Nat.mul_le_mul_right a.kind.width hs.2.fits.length_le
    show ((w.memory.buffer a.buffer).slice a.offset (a.length * a.kind.width)).length = a.length * a.kind.width
    have hend := hs.2.fits.end_le
    rw [Bytes.length_slice]
    omega

/-- A vector that shows elements exists. -/
theorem lt_of_viewOf {view : View} (h : w.viewOf (w.vec id) = .ok view) (hl : 0 < view.length) :
    id < w.vecs.size := by
  by_contra hge
  have hlength := length_of_viewOf h
  rw [vec_of_size_le w (by omega)] at hlength
  have hnone : view.length = 0 := hlength
  omega

theorem retaining_deliver (it : Nat) {vec : Nat} {view : View} (position : Nat)
    (hv : w.Uniform → 0 < view.length → vec < w.vecs.size ∧ view.kind = (w.vec vec).kind) :
    Retaining (deliver it vec view position) w fun _ _ => True := by
  rcases Nat.lt_or_ge position view.length with hlt | hge
  · obtain ⟨x, hx⟩ := deliver_of_lt w it vec hlt
    refine leads_of_ok hx (retains_setIteration it fun hu id' view' position' hi => ?_) trivial
    cases hi
    exact hv hu (by omega)
  · exact leads_of_ok (deliver_of_le hge) (retains_setIteration it fun _ _ _ _ hi => by cases hi) trivial

theorem retaining_next (it : Nat) : Retaining (next it) w fun _ _ => True := by
  apply Leads.get_bind
  cases hi : w.iteration it with
  | finished vec => exact leads_pure trivial
  | running vec view position =>
    exact retaining_deliver it position fun hu _ => hu.walks it vec view position hi
  | fresh vec =>
    simp only
    cases hv : w.viewOf (w.vec vec) with
    | ok view =>
      exact retaining_deliver it 0 fun hu hl => ⟨lt_of_viewOf hv hl, kind_of_viewOf (hu.vecs vec) hv⟩
    | error e =>
      have hset : w.Retains (w.setIteration it (.finished vec)) :=
        retains_setIteration it fun _ _ _ _ h => by cases h
      exact leads_of_error rfl hset trivial

end World

/-- A view that is attached is there, as every view is, and of the vector's own kind, and a swap needs an
array. -/
def VecCommand.OwnKind (w : World) (id : Nat) : VecCommand → Prop
  | attach view _ => view.kind = (w.vec id).kind ∧ w.memory.Covers view.range
  | swap array => array < w.arrays.size
  | _ => True

/-- What a command asks of its caller: the arrays and bytes that it names are there, and a view that is
attached is of the vector's own kind. -/
def Command.OwnKind (w : World) : Command → Prop
  | vec id c => c.OwnKind w id
  | array id c => id < w.arrays.size ∧ c.Lawful w
  | newMemory files => ∀ f ∈ files, w.memory.Covers f.2
  | store _ c => ∀ r ∈ c.given?, w.memory.Covers r
  | c => ∀ r ∈ c.sources, w.memory.Covers r

namespace World

open LeaseVec.Action

variable {α : Type} {w w' : World} {id : Nat}

theorem retaining_vecCommand {c : VecCommand} (hc : c.OwnKind w id) :
    Retaining (c.run id) w fun _ _ => True := by
  cases c with
  | attach view region => exact Leads.get_bind (retaining_attach fun _ => hc).map
  | item index => exact Leads.get_bind (retaining_ask _).map
  | unchecked index => exact Leads.get_bind (retaining_ask _).map
  | front => exact Leads.get_bind (retaining_ask _).map
  | back => exact Leads.get_bind (retaining_ask _).map
  | toList => exact Leads.get_bind (retaining_ask _).map
  | share => exact Leads.get_bind (retaining_shareView id).map
  | isView view => exact Leads.get_bind (retaining_ask _).map
  | writable => exact retaining_edit trivial
  | set index value => exact retaining_edit trivial
  | push value => exact retaining_edit trivial
  | pop => exact retaining_edit trivial
  | resize length fill => exact retaining_edit trivial
  | swap array => exact Leads.get_bind (retaining_swapWith hc).map
  | clear =>
    have hclear : w.Retains ((clear id).after w) :=
      retains_hold id w.promotions (Memory.Grows.refl _) fun _ _ => trivial
    exact Leads.get_bind (retaining_of_eq hclear).map
  | iterate => exact Leads.get_bind (retaining_of_eq (retains_pushIteration id)).map

theorem retaining_changeArray (hid : id < w.arrays.size)
    {change : Memory → Growable → Except Fault (Growable × Memory)}
    (hc : ∀ m a a' m', change m a = .ok (a', m') → Growable.Updates m a m' a') :
    Retaining (changeArray id change) w fun _ _ => True := by
  refine Leads.get_bind (Retaining.ofExcept_bind fun r hr => ?_)
  have hu := hc _ _ _ _ hr
  refine leads_set (retains_setArray id hu.grows fun hm hw _ => ?_) trivial
  exact (hw.arrays id _ (w.getElem?_arrays hid)).update hu hm

theorem retaining_reserve (hid : id < w.arrays.size) (extra : Binary64) :
    Retaining (reserve id extra) w fun _ _ => True := by
  refine Leads.get_bind (Retaining.ofExcept_bind fun r hr => ?_)
  have hu := Growable.updates_reserve hr
  have hset : w.Retains ({ w with memory := r.2.2 }.setArray id r.2.1) :=
    retains_setArray id hu.grows fun hm hw _ => (hw.arrays id _ (w.getElem?_arrays hid)).update hu hm
  exact leads_of_ok rfl hset trivial

theorem retaining_arrayCommand (hid : id < w.arrays.size) {c : ArrayCommand} (hc : c.Lawful w) :
    Retaining (c.run id) w fun _ _ => True := by
  cases c with
  | reserve extra => exact (retaining_reserve hid extra).map
  | push value => exact (leads_pushArray trivial (retaining_changeArray hid fun _ _ _ _ h => Growable.updates_push h)
      (retaining_reserve hid 1)).map
  | pop =>
    have hset : w.Retains (w.setArray id ((w.array id).pop w.memory).2) :=
      retains_setArray id (Memory.Grows.refl _) fun hm hw _ =>
        (hw.arrays id _ (w.getElem?_arrays hid)).update (Growable.updates_pop ..) hm
    exact Leads.get_bind (leads_of_ok rfl hset trivial)
  | resize length fill =>
    exact (leads_resizeArray trivial (retaining_changeArray hid fun _ _ _ _ h => Growable.updates_resize h)
      (retaining_reserve hid _)).map
  | share => exact Leads.map (retaining_of_eq (retains_memory (grows_countView w.memory)))
  | clear =>
    refine (retaining_changeArray hid fun m a a' m' h => ?_).map
    cases h
    exact Growable.updates_clear m a
  | release =>
    refine (retaining_changeArray hid fun m a a' m' h => ?_).map
    cases h
    exact Growable.updates_release m a
  | swap other =>
    refine Leads.map (p := fun _ _ => True) (Leads.get_bind (Retaining.ofExcept_bind fun r hr => ?_))
    unfold Growable.swap at hr
    split_ifs at hr
    cases hr
    have hgrows := Memory.Grows.refl w.memory
    refine leads_set (retains_of_uniform hgrows fun hu => ?_) trivial
    have hfirst : w.Retains (w.setArray id (w.array other)) :=
      retains_setArray id hgrows fun _ _ _ => hu.arrays other _ (w.getElem?_arrays hc)
    exact trans_of Retains hfirst
      (retains_setArray other hgrows fun _ _ _ => hu.arrays id _ (w.getElem?_arrays hid))

theorem retaining_passNext (reader : Nat) (n : Binary64) :
    Retaining (passNext reader n) w fun _ _ => True := by
  refine (retaining_scan reader _).bind fun start w₁ _ _ => ?_
  exact Leads.get_bind (leads_pure trivial)

theorem retaining_adoptCopy {vec : Nat} {r : ByteRange}
    (hr : w.memory.Addressable → w.Uniform → w.Holds (w.vec vec).kind r) :
    Retaining (adoptCopy vec r) w fun _ _ => True := by
  have hg := Memory.grows_alloc w.memory (w.bytes r)
  have hadopting := w.adopting_adoptCopy vec r
  unfold Retaining Leads
  generalize adoptCopy vec r w = result at hadopting
  cases hadopting with
  | copied =>
    refine ⟨retains_hold vec w.promotions hg fun hm hu => ⟨rfl, ?_, ?_⟩, trivial⟩
    · exact w.memory.lt_size_alloc (w.bytes r)
    · exact fits_copy (hr (hm.of_grows hg) hu)
  | shared =>
    refine ⟨retains_hold vec w.promotions (Memory.Grows.refl _) fun hm hu => ?_, trivial⟩
    exact ⟨rfl, (hr hm hu).1.buffer_lt, fits_over (hr hm hu).1⟩
  | refused => exact ⟨refl_of Retains w, trivial⟩

theorem retaining_takeElements {vec : Nat} {r : ByteRange} {lender : Option Nat} {inPlace : Bool}
    (hb : r.buffer < w.memory.buffers.size)
    (hr : w.memory.Addressable → w.Uniform → w.Holds (w.vec vec).kind r) :
    Retaining (takeElements vec r lender inPlace) w fun _ _ => True := by
  unfold takeElements
  apply Leads.get_bind
  cases lender with
  | none => exact retaining_adoptCopy hr
  | some region =>
    simp only
    split_ifs
    · refine (retaining_view ..).bind fun v w₁ _ hv => retaining_attach fun _ => ⟨?_, hv.2.2 hb⟩
      unfold World.vec
      rw [hv.1]
      exact hv.2.1
    · exact retaining_adoptCopy hr

/-- Only in bytes of a buffer is a field found. -/
theorem lt_of_field {kind : Kind} {stride : Binary64} {bound : Option Scalar} {source : ByteRange}
    {found : Nat × Nat} {offset offset' : Nat}
    (h : Scan.field kind stride bound (w.bytes source) offset = .ok found offset') :
    source.buffer < w.memory.buffers.size ∧ 0 < source.length := by
  have hle := Scan.field_le h
  have hlength : (w.bytes source).length =
      min source.length ((w.memory.buffer source.buffer).length - source.offset) :=
    Bytes.length_slice ..
  constructor
  · by_contra hge
    rw [Memory.buffer_of_size_le (by omega), List.length_nil] at hlength
    omega
  · omega

theorem retaining_readField (reader vec : Nat) (stride : Binary64) (policy : ReadPolicy) :
    Retaining (readField reader vec stride policy) w fun _ _ => True := by
  refine Retaining.ofExcept_bind fun s hstride => Leads.get_bind ?_
  obtain ⟨hwhole, -⟩ := acceptStride_ok.1 hstride
  refine (retaining_scan reader _).bind fun found w₁ _ hfound => ?_
  obtain ⟨start, span⟩ := found
  obtain ⟨offset, hfield, rfl⟩ := hfound
  obtain ⟨hbuffer, hlength⟩ := lt_of_field hfield
  refine Leads.get_bind (Leads.bind (p := fun _ _ => True) (retaining_takeElements ?_ ?_) ?_)
  · rw [source_setOffset]
    exact hbuffer
  · intro hm hu
    -- a reader that does not exist reads nothing
    have hreader : reader < w.readers.size := by
      by_contra hge
      have hnone : (w.reader reader).source.length = 0 := by
        unfold World.reader
        rw [Array.getD_eq_getD_getElem?, Array.getElem?_eq_none (by omega)]
        rfl
      omega
    have hc := hu.sources reader (by simpa using hreader)
    rw [source_setOffset] at hc ⊢
    exact holds_of_field (w := w) hwhole (hm _) hc hfield
  · intro _ w₂ _ _
    exact Leads.get_bind (leads_pure trivial)

theorem retaining_newVec (kind : Kind) (checked : Bool) :
    Retaining (newVec kind checked) w fun _ _ => True :=
  leads_of_ok rfl (retains_pushVec (Memory.Grows.refl _) trivial) trivial

theorem retaining_decodeField (reader : Nat) (policy : Bundle.Policy) :
    Retaining (Bundle.decodeField reader policy) w fun _ _ => True := by
  refine (retaining_scan reader _).bind fun head w₁ _ _ => ?_
  refine (retaining_newVec head.kind policy.checked).bind fun vec w₂ _ _ => ?_
  exact (retaining_readField ..).map

theorem retaining_decodeFields (reader : Nat) (policy : Bundle.Policy) (count : Nat) :
    Retaining (Bundle.decodeFields reader policy count) w fun _ _ => True := by
  induction count generalizing w with
  | zero => exact leads_pure trivial
  | succ count ih => exact (retaining_decodeField reader policy).bind fun field w₁ _ _ => ih.map

theorem retaining_decode (reader : Nat) (policy : Bundle.Policy) :
    Retaining (Bundle.decode reader policy) w fun _ _ => True :=
  (retaining_scan reader _).bind fun count _ _ _ => retaining_decodeFields reader policy count

theorem retaining_readerCommand (id : Nat) (c : ReaderCommand) :
    Retaining (c.run id) w fun _ _ => True := by
  cases c with
  | u32 => exact (retaining_scan id _).map
  | i32 => exact (retaining_scan id _).map
  | u64 => exact (retaining_scan id _).map
  | copy n =>
    refine Leads.map (p := fun _ _ => True) ((retaining_passNext id n).bind fun r w₁ _ _ => ?_)
    exact leads_slice (fun _ _ => retains_memory (Memory.grows_alloc ..)) r
  | borrow n =>
    refine Leads.bind (p := fun _ _ => True) ?_ fun _ _ _ _ => leads_pure trivial
    refine (retaining_passNext id n).bind fun r w₁ _ _ => ?_
    exact Leads.get_bind (leads_pure trivial)
  | align n => exact (retaining_scan id _).map
  | field vec stride policy => exact (retaining_readField id vec stride policy).map
  | bundle policy => exact (retaining_decode id policy).map

theorem retaining_changeWriter (id : Nat) (change : World → Writer → Except Fault Writer) :
    Retaining (changeWriter id change) w fun _ _ => True := by
  refine Leads.get_bind (Retaining.ofExcept_bind fun writer _ => ?_)
  exact leads_set (retains_of_eq (Memory.Grows.refl _) rfl rfl rfl rfl rfl rfl) trivial

theorem retaining_writerCommand (id : Nat) (c : WriterCommand) :
    Retaining (c.run id) w fun _ _ => True := by
  cases c with
  | word32 value => exact (retaining_changeWriter id _).map
  | word64 value => exact (retaining_changeWriter id _).map
  | bytes range => exact (retaining_changeWriter id _).map
  | align n => exact (retaining_changeWriter id _).map
  | field vec stride => exact (retaining_changeWriter id _).map
  | join => exact Leads.map (Leads.get_bind (retaining_alloc _))

/-- What is fetched is a new buffer, or it is a file that the store keeps. -/
theorem retaining_fetch (store : Nat) (path : Text) :
    Retaining (fetch store path) w fun r w' => w'.Uniform → w'.memory.Covers r := by
  have hfetching := w.fetching_fetch store path
  unfold Retaining Leads
  generalize fetch store path w = result at hfetching
  cases hfetching with
  | missing => exact ⟨refl_of Retains w, trivial⟩
  | shared hs hf => exact ⟨refl_of Retains w, fun hu => hu.kept store _ path _ hs hf⟩
  | copied => exact ⟨retains_memory (Memory.grows_alloc ..), fun _ => w.memory.covers_alloc _⟩

theorem retaining_lendFile (store : Nat) (path : Text) :
    Retaining (lendFile store path) w fun _ _ => True :=
  (retaining_fetch store path).bind fun _ _ _ hr => retaining_lend path hr

theorem retaining_openInPlace (store : Nat) (path : Text) (policy : Bundle.Policy) :
    Retaining (openInPlace store path policy) w fun _ _ => True := by
  refine (retaining_lendFile store path).bind fun region w₁ _ _ => ?_
  refine (retaining_newBorrower region).bind fun reader w₂ _ _ => ?_
  exact (retaining_decode reader policy).map

theorem retaining_newMemory {files : List (Text × ByteRange)} (hf : ∀ f ∈ files, w.memory.Covers f.2) :
    Retaining (newMemory files) w fun _ _ => True :=
  leads_newMemory_keeping (P := fun u => u.memory.Covers) (I := fun _ => True)
    (fun _ _ => retains_memory (Memory.grows_alloc ..)) (fun _ _ h => h)
    (fun _ _ _ h => h.of_grows (Memory.grows_alloc ..)) (fun u contents _ => u.memory.covers_alloc contents)
    (fun _ _ h => retains_pushStore fun _ => h) trivial fun f hm _ => hf f hm

/-- A range is there, or the store keeps it. -/
def AtHand (store : Nat) (w : World) (r : ByteRange) : Prop :=
  w.memory.Covers r ∨ ∃ files path, w.store store = .memory files ∧ Store.find? files path = some r

theorem retaining_storeCommand (id : Nat) {c : StoreCommand} (hc : ∀ r ∈ c.given?, w.memory.Covers r) :
    Retaining (c.run id) w fun _ _ => True := by
  refine leads_storeCommand_keeping (P := AtHand id) (I := fun _ => True)
    (fun _ _ => retains_memory (Memory.grows_alloc ..)) (fun _ _ h => h)
    (fun u contents r h => h.imp_left fun hcovers => hcovers.of_grows (Memory.grows_alloc ..))
    (fun u contents _ => Or.inl (u.memory.covers_alloc contents))
    (fun u files path r hs hf => Or.inr ⟨files, path, hs, hf⟩) (fun u s h => retains_setStore id fun hu => ?_) trivial
    (fun r hr _ _ _ => Or.inl (hc r hr)) (fun path => retaining_lendFile id path)
    fun path policy _ => retaining_openInPlace id path policy
  refine h.mono fun r hr => ?_
  rcases hr with hcovers | ⟨files, path, hs, hf⟩
  · exact hcovers
  · exact hu.kept id files path r hs hf

theorem retaining_setElement (v : View) (index : Binary64) (value : Scalar) :
    Retaining (setElement v index value) w fun _ _ => True := by
  refine Leads.demand_bind trivial fun _ => ?_
  exact leads_of_ok rfl (retains_memory (Memory.grows_setElement ..)) trivial

theorem retaining_addVec {a : Growable} {m : Memory} (checked : Bool) (h : Growable.Fresh w.memory m a) :
    Retaining (addVec a m checked) w fun _ _ => True :=
  leads_of_ok rfl (retains_pushVec h.grows ⟨rfl, h.stored⟩) trivial

theorem retaining_addArray {a : Growable} {m : Memory} (h : Growable.Fresh w.memory m a) :
    Retaining (addArray a m) w fun _ _ => True :=
  leads_of_ok rfl (retains_pushArray h.grows h.stored) trivial

theorem retaining_command {c : Command} (hc : c.OwnKind w) : Retaining c.run w fun _ _ => True := by
  cases c with
  | alloc contents => exact (retaining_alloc contents).map
  | duplicate range => exact Leads.get_bind (retaining_alloc (w.bytes range)).map
  | poke range index value => exact (retaining_setElement _ index value).map
  | view kind buffer offset length => exact (retaining_view kind buffer offset length).map
  | setElement v index value => exact (retaining_setElement v index value).map
  | lend range label => exact (retaining_lend label fun _ => hc range (List.mem_singleton_self _)).map
  | lentBytes region => exact (retaining_ask _).map
  | close region => exact Leads.map (retaining_of_eq (retains_close region))
  | newVec kind checked => exact (retaining_newVec kind checked).map
  | vecOfList kind values checked =>
    refine Leads.map (p := fun _ _ => True) (Leads.demand_bind trivial fun _ => Leads.get_bind ?_)
    exact retaining_addVec checked (Growable.fresh_ofWords ..)
  | vecOfView kind v checked =>
    refine Leads.map (p := fun _ _ => True) (Leads.demand_bind trivial fun _ => Leads.get_bind ?_)
    exact retaining_addVec checked (Growable.fresh_ofWords ..)
  | vec id c => exact retaining_vecCommand hc
  | next iteration => exact Leads.get_bind (retaining_next iteration).map
  | newArray kind length fill =>
    refine Leads.map (p := fun _ _ => True) (Leads.get_bind (Retaining.ofExcept_bind fun r hr => ?_))
    exact retaining_addArray (Growable.fresh_create hr)
  | arrayOfList kind values =>
    refine Leads.map (p := fun _ _ => True) (Leads.demand_bind trivial fun _ => Leads.get_bind ?_)
    exact retaining_addArray (Growable.fresh_ofWords ..)
  | arrayOfView kind v =>
    refine Leads.map (p := fun _ _ => True) (Leads.demand_bind trivial fun _ => Leads.get_bind ?_)
    exact retaining_addArray (Growable.fresh_ofWords ..)
  | array id c => exact retaining_arrayCommand hc.1 hc.2
  | newReader source => exact (retaining_newReader (hc source (List.mem_singleton_self _))).map
  | newBorrower region => exact (retaining_newBorrower region).map
  | reader id c => exact retaining_readerCommand id c
  | newWriter => exact Leads.map (retaining_of_eq (retains_of_eq (Memory.Grows.refl _) rfl rfl rfl rfl rfl rfl))
  | writer id c => exact retaining_writerCommand id c
  | encode fields => exact (retaining_ask _).bind fun contents _ _ _ => (retaining_alloc contents).map
  | decodeCopy source policy =>
    refine Leads.map (p := fun _ _ => True) ?_
    refine (retaining_newReader (hc source (List.mem_singleton_self _))).bind fun reader _ _ _ => ?_
    exact retaining_decode reader policy
  | newMemory files => exact (retaining_newMemory hc).map
  | newDisk d => exact Leads.map (retaining_of_eq (retains_pushStore fun _ => keptAs_disk _ d))
  | store id c => exact retaining_storeCommand id hc

/-- Every command of a history asks in its world for what is there, and attaches views of the vector's own
kind only. -/
def OwnKindAll (w : World) : List Command → Prop
  | [] => True
  | c :: rest => c.OwnKind w ∧ (w.perform c).2.OwnKindAll rest

theorem retains_performAll {history : List Command} (h : w.OwnKindAll history) :
    w.Retains (w.performAll history).2 := by
  induction history generalizing w with
  | nil => exact refl_of Retains w
  | cons c rest ih =>
    have hstep : w.Retains (w.perform c).2 := by
      rw [perform_snd]
      exact (retaining_command h.1).after
    exact trans_of Retains hstep (ih h.2)

theorem uniform_empty (limit : AllocationLimit) : (empty limit).Uniform where
  vecs := fun _ => trivial
  arrays := fun id a h => by cases h
  held := fun id r h => by cases h
  sources := fun id h => by cases h
  kept := fun id files path r h hf => by
    cases h
    cases hf
  walks := fun it id view position h => by cases h

end World

end LeaseVec
