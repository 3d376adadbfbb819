import LeaseVec.Proofs.World.Stores
import Mathlib.Logic.Relation

/-!
# What reading fields takes

Reading fields is made of few steps, however it ends: a reader goes on, a vector is made, and a vector borrows
or gets storage of its own. That storage is a new buffer, or the slices of the source share its buffer. What all
of these steps keep is kept by whatever is read from the source.
-/

namespace LeaseVec.World

open Number LeaseVec.Action

/-- One step of reading fields from a source. -/
inductive TakesFrom (source : ByteRange) : World → World → Prop where
  | offset {w : World} (reader offset : Nat) :
      TakesFrom source w (w.setReader reader { w.reader reader with offset := offset })
  | viewed {w : World} : TakesFrom source w { w with memory := countView w.memory }
  | made {w : World} (kind : Kind) (checked : Bool) :
      TakesFrom source w { w with vecs := w.vecs.push (.new kind checked) }
  | borrowed {w : World} (vec : Nat) {view : View} {region : Nat} (buffer_eq : view.buffer = source.buffer)
      (lends : w.isOpen region = true) : TakesFrom source w (w.setHolding vec (.borrowed view region))
  | copied {w : World} (vec : Nat) (r : ByteRange) : TakesFrom source w (w.withOwned vec
      (.over (w.vec vec).kind ⟨w.memory.buffers.size, 0, r.length, false⟩)
      (w.memory.alloc (w.bytes r)).2 w.promotions)
  | shared {w : World} (vec : Nat) {r : ByteRange} (shares : source.shares = true)
      (buffer_eq : r.buffer = source.buffer) :
      TakesFrom source w (w.withOwned vec (.over (w.vec vec).kind r) w.memory w.promotions)

/-- A command may give the bytes of this buffer to a vector to own, since it reads fields from bytes that
share. -/
inductive Adopts (w : World) : Command → Nat → Prop where
  | field {id vec : Nat} {stride : Binary64} {policy : ReadPolicy} (shares : (w.reader id).source.shares = true) :
      Adopts w (.reader id (.field vec stride policy)) (w.reader id).source.buffer
  | bundle {id : Nat} {policy : Bundle.Policy} (shares : (w.reader id).source.shares = true) :
      Adopts w (.reader id (.bundle policy)) (w.reader id).source.buffer
  | decodeCopy {source : ByteRange} {policy : Bundle.Policy} (shares : source.shares = true) :
      Adopts w (.decodeCopy source policy) source.buffer
  | openInPlace {store : Nat} {path : Text} {policy : Bundle.Policy} {files : List (Text × ByteRange)}
      {r : ByteRange} (files_eq : w.store store = .memory files) (found : Store.find? files path = some r)
      (shares : r.shares = true) : Adopts w (.store store (.openInPlace path policy)) r.buffer

variable {R : World → World → Prop} {w : World} {source : ByteRange} {reader : Nat}

/-- The reader is over the source, before and after each step. -/
abbrev Over (reader : Nat) (source : ByteRange) (w : World) : Prop := (w.reader reader).source = source

theorem over_pushReader (w : World) (held : ByteRange) (lender : Option Nat) :
    ({ w with readers := w.readers.push ⟨held, 0, lender⟩ } : World).Over w.readers.size held :=
  congrArg Reader.source ((w.reader_push _ _).trans (if_pos rfl))

/-- A step of reading keeps a relation, and the reader stays over its source. -/
abbrev Taking {α : Type} (R : World → World → Prop) (reader : Nat) (source : ByteRange) (x : Action α) (w : World) :
    Prop := Leads R (fun _ => True) x w fun _ w' => w'.Over reader source

section Steps

variable (hstep : ∀ u u', TakesFrom source u u' → R u u')

include hstep in
theorem taking_scan {α : Type} (s : Scan α) (h : w.Over reader source) :
    Taking R reader source (scan reader s) w := by
  cases hs : s (w.bytes (w.reader reader).source) (w.reader reader).offset with
  | ok a offset => exact leads_of_ok (scan_ok hs) (hstep _ _ (.offset reader offset)) ((source_setOffset ..).trans h)
  | error e offset => exact leads_of_error (scan_error hs) (hstep _ _ (.offset reader offset)) trivial

include hstep in
theorem taking_newVec (kind : Kind) (checked : Bool) (h : w.Over reader source) :
    Taking R reader source (newVec kind checked) w :=
  leads_of_ok rfl (hstep _ _ (.made kind checked)) h

variable [Std.Refl R]

include hstep in
theorem taking_adoptCopy (vec : Nat) {r : ByteRange} (hr : r.shares = source.shares)
    (hb : r.buffer = source.buffer) (h : w.Over reader source) :
    Taking R reader source (adoptCopy vec r) w := by
  have hadopting := w.adopting_adoptCopy vec r
  unfold Taking Leads
  generalize adoptCopy vec r w = result at hadopting
  cases hadopting with
  | copied => exact ⟨hstep _ _ (.copied vec r), h⟩
  | shared hshares => exact ⟨hstep _ _ (.shared vec (hr.symm.trans hshares) hb), h⟩
  | refused => exact ⟨refl_of R w, trivial⟩

variable [IsTrans World R]

include hstep in
/-- A view of the source, given to a vector. -/
theorem taking_borrow (vec region : Nat) (kind : Kind) (offset : Binary64) (length : Option Binary64)
    (h : w.Over reader source) : Taking R reader source (do
      let elements ← view kind source.buffer offset length
      attach vec elements region) w := by
  have hview : Leads R (fun _ => True) (view kind source.buffer offset length) w
      fun v w' => v.buffer = source.buffer ∧ w'.Over reader source := by
    cases hv : w.memory.view? kind source.buffer offset length with
    | error e =>
      have hrun : view kind source.buffer offset length w = .error e w := by
        unfold view
        rw [hv]
      exact leads_of_error hrun (refl_of R w) trivial
    | ok result =>
      obtain ⟨v, m⟩ := result
      have hrun : view kind source.buffer offset length w = .ok v { w with memory := m } := by
        unfold view
        rw [hv]
      obtain ⟨-, hbuffer, -, rfl⟩ := view?_ok hv
      exact leads_of_ok hrun (hstep _ _ .viewed) ⟨hbuffer, h⟩
  refine hview.bind fun v w₁ _ hv => ?_
  unfold Leads
  rw [attach_eq]
  split_ifs with _ hopen
  · exact ⟨refl_of R w₁, trivial⟩
  · exact ⟨hstep _ _ (.borrowed vec hv.1 hopen), hv.2⟩
  · exact ⟨refl_of R w₁, trivial⟩

include hstep in
theorem taking_takeElements (vec start span : Nat) (lender : Option Nat) (inPlace : Bool)
    (h : w.Over reader source) :
    Taking R reader source (takeElements vec (source.sub start span) lender inPlace) w := by
  unfold takeElements
  apply Leads.get_bind
  cases lender with
  | none => exact taking_adoptCopy hstep vec rfl rfl h
  | some region =>
    simp only
    split_ifs
    · exact taking_borrow hstep vec region _ _ _ h
    · exact taking_adoptCopy hstep vec rfl rfl h

include hstep in
theorem taking_readField (vec : Nat) (stride : Binary64) (policy : ReadPolicy) (h : w.Over reader source) :
    Taking R reader source (readField reader vec stride policy) w := by
  refine Leads.ofExcept_bind (fun _ _ => trivial) fun s _ => Leads.get_bind ?_
  refine (taking_scan hstep _ h).bind fun found w₁ _ h₁ => Leads.get_bind ?_
  simp only [show (w₁.reader reader).source = source from h₁]
  refine (taking_takeElements hstep vec _ _ _ _ h₁).bind fun _ w₂ _ h₂ => Leads.get_bind ?_
  exact leads_pure h₂

include hstep in
theorem taking_decodeField (policy : Bundle.Policy) (h : w.Over reader source) :
    Taking R reader source (Bundle.decodeField reader policy) w := by
  refine (taking_scan hstep _ h).bind fun head w₁ _ h₁ => ?_
  refine (taking_newVec hstep head.kind policy.checked h₁).bind fun vec w₂ _ h₂ => ?_
  exact (taking_readField hstep vec _ policy.read h₂).bind fun _ w₃ _ h₃ => leads_pure h₃

include hstep in
theorem taking_decodeFields (policy : Bundle.Policy) (count : Nat) (h : w.Over reader source) :
    Taking R reader source (Bundle.decodeFields reader policy count) w := by
  induction count generalizing w with
  | zero => exact leads_pure h
  | succ count ih =>
    refine (taking_decodeField hstep policy h).bind fun field w₁ _ h₁ => ?_
    exact (ih h₁).bind fun _ w₂ _ h₂ => leads_pure h₂

include hstep in
theorem taking_decode (policy : Bundle.Policy) (h : w.Over reader source) :
    Taking R reader source (Bundle.decode reader policy) w :=
  (taking_scan hstep _ h).bind fun count _ _ h₁ => taking_decodeFields hstep policy count h₁

end Steps

variable [Std.Refl R] [IsTrans World R]

theorem leads_decodeCopy (hreader : R w { w with readers := w.readers.push ⟨source, 0, none⟩ })
    (hstep : ∀ u u', TakesFrom source u u' → R u u') (policy : Bundle.Policy) :
    Leads R (fun _ => True) (Bundle.decodeCopy source policy) w fun _ _ => True := by
  have hnew : Taking R w.readers.size source (newReader source) w :=
    leads_of_ok rfl hreader (over_pushReader ..)
  unfold Bundle.decodeCopy
  refine Leads.bind (p := fun reader w' => w'.Over reader source) ?_ fun reader w₁ _ h₁ =>
    (taking_decode hstep policy h₁).mono fun _ _ _ => trivial
  exact hnew

/-- A command may give what it has fetched to vectors when that shares. -/
theorem Fetched.adopts {store : Nat} {path : Text} {held : ByteRange} (h : w.Fetched store path held)
    (hs : held.shares = true) (policy : Bundle.Policy) :
    w.Adopts (.store store (.openInPlace path policy)) held.buffer := by
  cases h with
  | shared files_eq found => exact .openInPlace files_eq found hs
  | copied plain => exact absurd (plain.symm.trans hs) Bool.false_ne_true

section Opening

variable {store : Nat} {path : Text} (hm : ∀ u contents, R u { u with memory := (u.memory.alloc contents).2 })
  (hregion : ∀ u label n held, w.Fetched store path held →
    R u { u with regions := u.regions.push ⟨label, n, some held⟩ })

include hm hregion in
/-- What is fetched is lent where it is. -/
theorem leads_lendFile : Leads R (fun _ => True) (lendFile store path) w
    fun region w' => ∃ held, w.Fetched store path held ∧ w'.lentBytes region = .ok held := by
  refine (leads_fetch hm store path).bind fun r w₁ _ hr => ?_
  have hstays : ¬ (r.offset % boundary ≠ 0 ∧ r.shares = false) := by
    cases hr with
    | shared _ _ hs => exact fun h => nomatch hs.symm.trans h.2
    | copied _ ho => exact fun h => h.1 (by rw [ho]; rfl)
  rcases lend_cases w₁ r path with ⟨-, h⟩ | ⟨hmoves, -⟩
  · exact leads_of_ok h (hregion w₁ path r.length r hr) ⟨r, hr, lentBytes_push ..⟩
  · exact absurd hmoves hstays

include hm hregion in
theorem leads_openInPlace
    (hreader : ∀ u region held, w.Fetched store path held →
      R u { u with readers := u.readers.push ⟨held, 0, some region⟩ })
    (hstep : ∀ held, w.Fetched store path held → ∀ u u', TakesFrom held u u' → R u u') (policy : Bundle.Policy) :
    Leads R (fun _ => True) (openInPlace store path policy) w fun _ _ => True := by
  refine (leads_lendFile hm hregion).bind fun region w₁ _ hlent => ?_
  obtain ⟨held, hfetched, hopen⟩ := hlent
  have hborrower : Leads R (fun _ => True) (newBorrower region) w₁ fun reader w' => w'.Over reader held :=
    leads_of_ok (newBorrower_ok hopen) (hreader w₁ region held hfetched) (over_pushReader ..)
  refine hborrower.bind fun reader w₂ _ hover => ?_
  exact (taking_decode (hstep held hfetched) policy hover).map

end Opening

end LeaseVec.World
