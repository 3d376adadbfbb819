import LeaseVec.Proofs.Bundle.Decoding
import LeaseVec.Proofs.Ownership.Footprints
import LeaseVec.Proofs.World.Moves

/-!
# What decoded vectors hold

A vector that has been decoded from plain bytes either borrows from the lender of its reader, and then it sees the
buffer that the reader reads, or it has a new buffer that is in no other hands. Nothing else is asked of the input:
this follows from the decoding having succeeded, whatever has been decoded.
-/

namespace LeaseVec.World

open Number LeaseVec.Action LeaseVec.Bundle

variable {α : Type} {w w' : World} {reader region vec : Nat} {source : ByteRange} {lender : Option Nat}

/-- Nobody's storage is touched, and none is adopted. -/
abbrev LeavesAll : World → World → Prop := Touches (fun _ => False) none fun _ => False

theorem LeavesAll.of_ok {x : Action α} {p : α → World → Prop} {a : α} (h : Leads LeavesAll (fun _ => True) x w p)
    (hx : x w = .ok a w') : w.LeavesAll w' := by
  rw [← after_ok hx]
  exact h.after

/-- An action that touches nobody's storage leaves all storage in buffers that exist. -/
theorem Stored.of_ok (hs : w.Stored) {x : Action α} {p : α → World → Prop} {a : α}
    (h : Leads LeavesAll (fun _ => True) x w p) (hx : x w = .ok a w') : w'.Stored :=
  (LeavesAll.of_ok h hx).stored (fun _ hno => hno.elim) hs

theorem leavesAll_of_takes (hplain : source.shares = false) :
    ∀ u u', TakesFrom source u u' → LeavesAll u u' :=
  fun _ _ => touches_of_takes fun hs => absurd (hplain.symm.trans hs) Bool.false_ne_true

theorem Moves.of_ok {x : Action α} {a : α} (h : Moves x w) (hx : x w = .ok a w') : w.ComesTo w' := by
  rw [← after_ok hx]
  exact h

theorem region_of_comesTo (h : w.ComesTo w') (hlt : region < w.regions.size) :
    region < w'.regions.size ∧ w'.region region = w.region region := by
  refine h.keep (I := fun u => region < u.regions.size ∧ u.region region = w.region region) ?_ ⟨hlt, rfl⟩
  rintro u u' hmove ⟨hlt, hsame⟩
  cases hmove with
  | aside hr hd hl =>
    refine ⟨by rwa [hr], ?_⟩
    rw [← hsame]
    unfold World.region
    rw [hr]
  | lend label n held hb =>
    rw [Array.size_push, region_push, if_neg hlt.ne]
    exact ⟨hlt.trans (Nat.lt_succ_self _), hsame⟩
  | reader source => exact ⟨hlt, hsame⟩
  | borrower region source hopen => exact ⟨hlt, hsame⟩
  | offset reader offset => exact ⟨hlt, hsame⟩

/-- A reader that is there goes on reading the same bytes for the same lender. -/
theorem reader_of_comesTo (h : w.ComesTo w') (hlt : reader < w.readers.size) :
    reader < w'.readers.size ∧ (w'.reader reader).source = (w.reader reader).source ∧
      (w'.reader reader).lender = (w.reader reader).lender := by
  refine h.keep (I := fun u => reader < u.readers.size ∧ (u.reader reader).source = (w.reader reader).source ∧
    (u.reader reader).lender = (w.reader reader).lender) ?_ ⟨hlt, rfl, rfl⟩
  rintro u u' hmove ⟨hlt, hsource, hlender⟩
  cases hmove with
  | aside hr hd hl =>
    have hsame : u'.reader reader = u.reader reader := by
      unfold World.reader
      rw [hd]
    rw [hd, hsame]
    exact ⟨hlt, hsource, hlender⟩
  | lend label n held hb => exact ⟨hlt, hsource, hlender⟩
  | reader source =>
    rw [Array.size_push, reader_push, if_neg hlt.ne]
    exact ⟨hlt.trans (Nat.lt_succ_self _), hsource, hlender⟩
  | borrower region source hopen =>
    rw [Array.size_push, reader_push, if_neg hlt.ne]
    exact ⟨hlt.trans (Nat.lt_succ_self _), hsource, hlender⟩
  | offset other offset =>
    rw [size_readers_setReader, source_setOffset, lender_setOffset]
    exact ⟨hlt, hsource, hlender⟩

/-- The vector borrows from the lender and sees the buffer of the source, or its storage is in its hands alone. -/
structure Lodged (w : World) (source : ByteRange) (lender : Option Nat) (vec : Nat) : Prop where
  lt : vec < w.vecs.size
  borrowed : ∀ view region, (w.vec vec).holding = .borrowed view region →
    lender = some region ∧ view.buffer = source.buffer
  owned : ∀ a, w.storage? (.vec vec) = some a → w.Reserved (.vec vec) a.buffer

/-- A step that touches nobody's storage and leaves the vector alone leaves it lodged. -/
theorem Lodged.touches (h : w.Lodged source lender vec) (hv : w'.vec vec = w.vec vec)
    (hlt : w.vecs.size ≤ w'.vecs.size) (ht : w.LeavesAll w') :
    w'.Lodged source lender vec where
  lt := h.lt.trans_le hlt
  borrowed view region hh := h.borrowed view region (by rwa [← hv])
  owned a ha := by
    have hold : w.storage? (.vec vec) = some a := by
      have hown := owned_of_storage? ha
      rw [hv] at hown
      exact storage?_vec_of_owned hown
    exact (h.owned a hold).of_touches ht (fun hno => hno) fun hno => hno

/-- New storage is in nobody else's hands. -/
theorem lodged_withOwned (hs : w.Stored) (hlt : vec < w.vecs.size) {a : Growable} {m : Memory} (p : Array Promotion)
    (hnew : w.memory.buffers.size ≤ a.buffer) (ha : a.buffer < m.buffers.size) :
    (w.withOwned vec a m p).Lodged source lender vec := by
  have hholding : ((w.withOwned vec a m p).vec vec).holding = .owned a := by rw [vec_withOwned_self a m p hlt]
  refine ⟨by rwa [size_vecs_withOwned], fun view region hh => ?_, fun b hb => ⟨?_, fun o c hc he => ?_⟩⟩
  · rw [hholding] at hh
    cases hh
  · rw [owned_of_storage? hb] at hholding
    cases hholding
    exact ha
  · rw [owned_of_storage? hb] at hholding
    cases hholding
    rcases storage?_setHolding hc with ⟨ho, -⟩ | ⟨-, hold⟩
    · exact ho
    · have hold' := hs o c ((storage?_congr rfl rfl o).symm.trans hold)
      omega

theorem lodged_adoptCopy (hs : w.Stored) (hlt : vec < w.vecs.size) {r : ByteRange} {u : Unit}
    (hplain : r.shares = false) (h : adoptCopy vec r w = .ok u w') : w'.Lodged source lender vec := by
  have hnew := w.memory.lt_size_alloc (w.bytes r)
  -- the copy is named, since it is not found from the buffer that it lies in
  have hlodged : World.Lodged _ source lender vec := lodged_withOwned
    (a := .over (w.vec vec).kind ⟨w.memory.buffers.size, 0, r.length, false⟩) hs hlt w.promotions le_rfl hnew
  rw [adoptCopy_of_plain vec hplain] at h
  cases h
  exact hlodged

theorem lodged_attach (hlt : vec < w.vecs.size) {view : View} {u : Unit} (hb : view.buffer = source.buffer)
    (h : attach vec view region w = .ok u w') : w'.Lodged source (some region) vec := by
  rw [attach_eq] at h
  split_ifs at h
  cases h
  have hholding : ((w.setHolding vec (.borrowed view region)).vec vec).holding = .borrowed view region := by
    rw [vec_setHolding_self _ _ hlt]
  refine ⟨by rwa [size_vecs_setHolding], fun v reg hh => ?_, fun a ha => ?_⟩
  · rw [hholding] at hh
    cases hh
    exact ⟨rfl, hb⟩
  · rw [owned_of_storage? ha] at hholding
    cases hholding

theorem buffer_of_view {kind : Kind} {buffer : Nat} {offset : Binary64} {length : Option Binary64} {v : View}
    (h : view kind buffer offset length w = .ok v w') : v.buffer = buffer ∧ w'.vecs = w.vecs := by
  unfold view at h
  cases hv : w.memory.view? kind buffer offset length with
  | error e =>
    rw [hv] at h
    cases h
  | ok found =>
    rw [hv] at h
    cases h
    exact ⟨(view?_ok hv).2.1, rfl⟩

theorem lodged_takeElements (hs : w.Stored) (hlt : vec < w.vecs.size) {r : ByteRange} {inPlace : Bool} {u : Unit}
    (hplain : r.shares = false) (hb : r.buffer = source.buffer)
    (h : takeElements vec r lender inPlace w = .ok u w') :
    w'.Lodged source lender vec := by
  unfold takeElements at h
  rw [bind_ok (x := get) rfl] at h
  cases lender with
  | none => exact lodged_adoptCopy hs hlt hplain h
  | some region =>
    simp only at h
    split_ifs at h
    · obtain ⟨v, w₁, hview, hattach⟩ := bind_ok_iff.1 h
      obtain ⟨hbuffer, hvecs⟩ := buffer_of_view hview
      exact lodged_attach (by rwa [hvecs]) (hbuffer.trans hb) hattach
    · exact lodged_adoptCopy hs hlt hplain h

theorem lodged_readField (hs : w.Stored) (hlt : vec < w.vecs.size)
    (hplain : (w.reader reader).source.shares = false) {stride : Binary64} {policy : ReadPolicy} {mode : Mode}
    (h : readField reader vec stride policy w = .ok mode w') :
    w'.Lodged (w.reader reader).source (w.reader reader).lender vec := by
  rw [readField_eq] at h
  obtain ⟨s, -, h⟩ := ofExcept_bind_ok_iff.1 h
  change (scan reader (Scan.field (w.vec vec).kind stride policy.bound) >>= _) w = _ at h
  obtain ⟨found, w₁, hscan, h⟩ := bind_ok_iff.1 h
  change (takeElements vec ((w₁.reader reader).source.sub found.1 found.2) (w₁.reader reader).lender
    policy.inPlace >>= _) w₁ = _ at h
  obtain ⟨u, w₂, htake, h⟩ := bind_ok_iff.1 h
  cases h
  have hsource : (w₁.reader reader).source = (w.reader reader).source ∧
      (w₁.reader reader).lender = (w.reader reader).lender ∧ w₁.vecs = w.vecs := by
    obtain ⟨offset, -, rfl⟩ := scan_ok_iff.1 hscan
    exact ⟨source_setOffset .., lender_setOffset .., rfl⟩
  have hstored := hs.of_ok (touching_scan ..) hscan
  rw [hsource.2.1] at htake
  have hbuffer : ((w₁.reader reader).source.sub found.1 found.2).buffer = (w.reader reader).source.buffer := by
    rw [← hsource.1]
    rfl
  have hclass : ((w₁.reader reader).source.sub found.1 found.2).shares = false := by
    rw [← hplain, ← hsource.1]
    rfl
  exact lodged_takeElements hstored (by rwa [hsource.2.2]) hclass hbuffer htake

/-- A field is decoded into a new vector. -/
theorem lodged_of_decodeField (hs : w.Stored) (hreader : reader < w.readers.size)
    (hplain : (w.reader reader).source.shares = false) {policy : Policy} {field : Bundle.Field}
    (h : decodeField reader policy w = .ok field w') :
    w'.Lodged (w.reader reader).source (w.reader reader).lender field.vec := by
  rw [decodeField_eq] at h
  obtain ⟨head, w₁, hscan, h⟩ := bind_ok_iff.1 h
  obtain ⟨vec, w₂, hnew, h⟩ := bind_ok_iff.1 h
  obtain ⟨mode, w₃, hread, h⟩ := bind_ok_iff.1 h
  cases h
  have hcomes : w.ComesTo w₂ := ((moves_scan reader _).of_ok hscan).trans ((moves_newVec ..).of_ok hnew)
  have hstored := (hs.of_ok (touching_scan ..) hscan).of_ok
    (leads_of_after (touches_newVec w₁ head.kind policy.checked)) hnew
  obtain ⟨-, hsource, hlender⟩ := reader_of_comesTo hcomes hreader
  have hlt : vec < w₂.vecs.size := by
    cases hnew
    exact Array.size_push (α := Vec) .. ▸ Nat.lt_succ_self _
  have hlodged := lodged_readField hstored hlt (by rwa [hsource]) hread
  rwa [hsource, hlender] at hlodged

theorem lodged_of_decodeFields (hs : w.Stored) (hreader : reader < w.readers.size)
    (hplain : (w.reader reader).source.shares = false) {policy : Policy} {count : Nat} {fields : List Bundle.Field}
    (h : decodeFields reader policy count w = .ok fields w') :
    ∀ field ∈ fields, w'.Lodged (w.reader reader).source (w.reader reader).lender field.vec := by
  induction count generalizing w fields with
  | zero =>
    cases h
    simp
  | succ count ih =>
    rw [decodeFields_succ] at h
    obtain ⟨field, w₁, hfirst, h⟩ := bind_ok_iff.1 h
    obtain ⟨fields', w₂, hrest, h⟩ := bind_ok_iff.1 h
    cases h
    have hstored := hs.of_ok (taking_decodeField (leavesAll_of_takes hplain) policy rfl) hfirst
    obtain ⟨hreader₁, hsource, hlender⟩ := reader_of_comesTo ((moves_decodeField reader policy).of_ok hfirst) hreader
    have hothers := ih hstored hreader₁ (by rwa [hsource]) hrest
    rw [hsource, hlender] at hothers
    -- the other fields are decoded into vectors behind the first
    have hquiet : w₁.Quiet (fun id => id < w₁.vecs.size) w' := by
      rw [← after_ok hrest]
      exact (quietly_decodeFields reader policy count fun _ hid => hid).after
    have hlodged := lodged_of_decodeField hs hreader hplain hfirst
    have htouched : w₁.LeavesAll w' :=
      LeavesAll.of_ok (taking_decodeFields (leavesAll_of_takes hplain) policy count hsource) hrest
    have hkept : w'.Lodged (w.reader reader).source (w.reader reader).lender field.vec :=
      hlodged.touches (hquiet.vec _ hlodged.lt) hquiet.size_le htouched
    exact List.forall_mem_cons.2 ⟨hkept, hothers⟩

/-- So it is with all vectors of a bundle. -/
theorem lodged_of_decode (hs : w.Stored) (hreader : reader < w.readers.size)
    (hplain : (w.reader reader).source.shares = false) {policy : Policy} {fields : List Bundle.Field}
    (h : Bundle.decode reader policy w = .ok fields w') :
    ∀ field ∈ fields, w'.Lodged (w.reader reader).source (w.reader reader).lender field.vec := by
  rw [decode_eq] at h
  obtain ⟨count, w₁, hscan, h⟩ := bind_ok_iff.1 h
  have hstored := hs.of_ok (touching_scan ..) hscan
  obtain ⟨hreader₁, hsource, hlender⟩ := reader_of_comesTo ((moves_scan reader _).of_ok hscan) hreader
  rw [← hsource, ← hlender]
  exact lodged_of_decodeFields hstored hreader₁ (by rwa [hsource]) h

end LeaseVec.World
