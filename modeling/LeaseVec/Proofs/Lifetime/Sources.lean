import LeaseVec.Proofs.Lifetime.Regions
import LeaseVec.Proofs.Ownership.Fields

/-!
# What readers of a region read

A reader that may borrow reads the very bytes that its region holds, from the moment it is made until the
region is closed, and these bytes start on the boundary, whatever offset the bytes that were lent started at,
unless they share their slices and could not be moved.
-/

namespace LeaseVec.World

open Number

variable {w w' : World}

/-- What regions lend starts on the boundary or shares, and readers with a lender read just that. -/
structure LendsOnBoundary (w : World) : Prop where
  held : ∀ region r, (w.region region).held = some r → r.offset % boundary = 0 ∨ r.shares = true
  lender_lt : ∀ reader region, (w.reader reader).lender = some region → region < w.regions.size
  source : ∀ reader region, (w.reader reader).lender = some region →
    (w.reader reader).source.offset % boundary = 0 ∨ (w.reader reader).source.shares = true
  source_eq : ∀ reader region r, (w.reader reader).lender = some region →
    (w.region region).held = some r → (w.reader reader).source = r

/-- A new reader without a lender, or one over what an open region holds. -/
theorem LendsOnBoundary.pushReader (h : w.LendsOnBoundary) {source : ByteRange} {lender : Option Nat}
    (hl : ∀ region, lender = some region → w.lentBytes region = .ok source) :
    ({ w with readers := w.readers.push ⟨source, 0, lender⟩ } : World).LendsOnBoundary where
  held := h.held
  lender_lt := by
    intro reader region hreader
    rw [reader_push] at hreader
    split_ifs at hreader
    · have hheld := lentBytes_ok (hl region hreader)
      refine lt_of_isOpen (w := w) ?_
      unfold isOpen Region.isOpen
      rw [hheld]
      rfl
    · exact h.lender_lt reader region hreader
  source := by
    intro reader region hreader
    rw [reader_push] at hreader ⊢
    split_ifs at hreader ⊢
    · exact h.held region source (lentBytes_ok (hl region hreader))
    · exact h.source reader region hreader
  source_eq := by
    intro reader region r hreader hheld
    rw [reader_push] at hreader ⊢
    split_ifs at hreader ⊢
    · exact Option.some.inj ((lentBytes_ok (hl region hreader)).symm.trans hheld)
    · exact h.source_eq reader region r hreader hheld

/-- A new region has no readers yet. -/
theorem LendsOnBoundary.pushRegion (h : w.LendsOnBoundary) (label : Text) (n : Nat) {held : ByteRange}
    (hb : held.offset % boundary = 0 ∨ held.shares = true) :
    ({ w with regions := w.regions.push ⟨label, n, some held⟩ } : World).LendsOnBoundary where
  held := by
    intro region r hheld
    rw [region_push] at hheld
    split_ifs at hheld
    · cases hheld
      exact hb
    · exact h.held region r hheld
  lender_lt := by
    intro reader region hreader
    have hlt := h.lender_lt reader region hreader
    rw [Array.size_push]
    omega
  source := h.source
  source_eq := by
    intro reader region r hreader hheld
    have hlt := h.lender_lt reader region hreader
    rw [region_push, if_neg hlt.ne] at hheld
    exact h.source_eq reader region r hreader hheld

theorem Move.lendsOnBoundary (hmove : Move w w') (h : w.LendsOnBoundary) : w'.LendsOnBoundary := by
  cases hmove with
  | aside hr hd hl =>
    have hregion : ∀ region, w'.region region = w.region region := by
      intro region
      unfold World.region
      rw [hr]
    have hreader : ∀ reader, w'.reader reader = w.reader reader := by
      intro reader
      unfold World.reader
      rw [hd]
    refine ⟨?_, ?_, ?_, ?_⟩
    · simpa only [hregion] using h.held
    · simpa only [hreader, hr] using h.lender_lt
    · simpa only [hreader] using h.source
    · simpa only [hreader, hregion] using h.source_eq
  | lend label n held hb => exact h.pushRegion label n hb
  | reader source => exact h.pushReader fun region hl => by cases hl
  | borrower region source hopen =>
    refine h.pushReader fun region' hl => ?_
    cases hl
    exact hopen
  | offset reader offset =>
    refine ⟨h.held, ?_, ?_, ?_⟩
    · intro j region hj
      exact h.lender_lt j region ((lender_setOffset ..).symm.trans hj)
    · intro j region hj
      rw [source_setOffset]
      exact h.source j region ((lender_setOffset ..).symm.trans hj)
    · intro j region r hj hheld
      rw [source_setOffset]
      exact h.source_eq j region r ((lender_setOffset ..).symm.trans hj) hheld

/-- Closing leaves readers alone, and the region that is closed holds nothing. -/
theorem LendsOnBoundary.close (h : w.LendsOnBoundary) (id : Nat) :
    ((World.close id).after w).LendsOnBoundary := by
  have hheld : ∀ region r, (((World.close id).after w).region region).held = some r →
      (w.region region).held = some r := by
    intro region r hr
    rw [region_close] at hr
    split_ifs at hr
    exact hr
  refine ⟨fun region r hr => h.held region r (hheld region r hr), ?_, h.source,
    fun reader region r hl hr => h.source_eq reader region r hl (hheld region r hr)⟩
  intro reader region hl
  have hsize : ((World.close id).after w).regions.size = w.regions.size := Array.size_modify ..
  rw [hsize]
  exact h.lender_lt reader region hl

theorem lendsOnBoundary_performAll {limit : AllocationLimit} (history : List Command) :
    ((empty limit).performAll history).2.LendsOnBoundary := by
  have hempty : (empty limit).LendsOnBoundary := by
    refine ⟨fun region r h => ?_, fun reader region h => ?_, fun reader region h => ?_,
      fun reader region r h => ?_⟩ <;> cases h
  exact performAll_of_moves (fun _ _ hmove h => hmove.lendsOnBoundary h)
    (fun _ region h => h.close region) history hempty

end LeaseVec.World
