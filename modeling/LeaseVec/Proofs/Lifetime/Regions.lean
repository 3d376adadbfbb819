import LeaseVec.Proofs.World.Moves

/-!
# What becomes of regions

Regions are lent and closed, and nothing else ever happens to them. Lending adds an open region, closing ends
the one that is named, and every other command leaves all regions alone, whatever it does to vectors and
whether it fails or not. So a region is closed in the world that a history reaches exactly when the history
has closed it. A vector can only come to borrow from a region that is open, so the lender of a vector always
exists.
-/

namespace LeaseVec.World

open Number

variable {w w₁ w' : World}

/-- A region that has been lent and is open no more. -/
def Closed (w : World) (region : Nat) : Prop := region < w.regions.size ∧ w.isOpen region = false

/-- Vectors borrow from regions that exist. -/
def LendersExist (w : World) : Prop :=
  ∀ id region, (w.vec id).lender? = some region → region < w.regions.size

theorem lt_of_isOpen {region : Nat} (h : w.isOpen region = true) : region < w.regions.size := by
  rcases Nat.lt_or_ge region w.regions.size with hlt | hge
  · exact hlt
  · unfold isOpen World.region at h
    rw [Array.getD_eq_getD_getElem?, Array.getElem?_eq_none hge] at h
    cases h

/-- Between two worlds some regions have been closed, others may have been lent, and no vector has come to
borrow from a region that does not exist. -/
structure Passes (w : World) (closed : Nat → Prop) (w' : World) : Prop where
  size_le : w.regions.size ≤ w'.regions.size
  closed_iff : ∀ region, w'.Closed region ↔ w.Closed region ∨ closed region
  lenders : w.LendersExist → w'.LendersExist

theorem Passes.trans {p q : Nat → Prop} (h : w.Passes p w₁) (h' : w₁.Passes q w') :
    w.Passes (fun region => p region ∨ q region) w' where
  size_le := Nat.le_trans h.size_le h'.size_le
  closed_iff := by
    intro region
    rw [h'.closed_iff, h.closed_iff, or_assoc]
  lenders hl := h'.lenders (h.lenders hl)

/-- Regions are as they were. -/
abbrev Keeps (w w' : World) : Prop := w.Passes (fun _ => False) w'

theorem Keeps.trans (h : w.Keeps w₁) (h' : w₁.Keeps w') : w.Keeps w' := by
  have hboth := Passes.trans h h'
  simpa only [or_self] using hboth

/-- Vectors change, but none gets a lender that does not exist. -/
theorem keeps_of_lenders (hr : w'.regions = w.regions)
    (hl : ∀ id region, (w'.vec id).lender? = some region →
      (w.vec id).lender? = some region ∨ region < w.regions.size) : w.Keeps w' where
  size_le := Nat.le_of_eq (by rw [hr])
  closed_iff := by
    intro region
    unfold Closed isOpen World.region
    rw [hr, or_false]
  lenders := by
    intro hexist id region h
    rw [hr]
    exact (hl id region h).elim (hexist id region) fun hlt => hlt

/-- Neither regions nor vectors change. -/
theorem keeps_of_eq (hr : w'.regions = w.regions) (hv : w'.vecs = w.vecs) : w.Keeps w' := by
  refine keeps_of_lenders hr fun id region h => Or.inl ?_
  unfold vec at h ⊢
  rwa [hv] at h

theorem keeps_refl (w : World) : w.Keeps w := keeps_of_eq rfl rfl

/-- A new region is open. -/
theorem keeps_pushRegion (label : Text) (n : Nat) (held : ByteRange) :
    w.Keeps { w with regions := w.regions.push ⟨label, n, some held⟩ } where
  size_le := by
    rw [Array.size_push]
    omega
  closed_iff := by
    intro region
    unfold Closed isOpen
    rw [region_push, Array.size_push, or_false]
    split_ifs with hnew
    · constructor
      · rintro ⟨-, hopen⟩
        cases hopen
      · rintro ⟨hlt, -⟩
        omega
    · constructor
      · rintro ⟨hlt, hended⟩
        exact ⟨by omega, hended⟩
      · rintro ⟨hlt, hended⟩
        exact ⟨by omega, hended⟩
  lenders := by
    intro hexist id region h
    have hlt := hexist id region h
    rw [Array.size_push]
    omega

/-- Moves leave regions as they were, and a vector comes to borrow only from a region that is open. -/
theorem Move.keeps (h : Move w w') : w.Keeps w' := by
  cases h with
  | aside hr hd hl =>
    exact keeps_of_lenders hr fun id region h => (hl id region h).imp_right lt_of_isOpen
  | lend label n held hb => exact keeps_pushRegion label n held
  | reader source => exact keeps_of_eq rfl rfl
  | borrower region source hopen => exact keeps_of_eq rfl rfl
  | offset reader offset => exact keeps_of_eq rfl rfl

theorem keeps_of_comesTo (h : w.ComesTo w') : w.Keeps w' := by
  induction h with
  | refl => exact keeps_refl w
  | tail _ hlast ih => exact ih.trans hlast.keeps

theorem region_close (id region : Nat) :
    ((close id).after w).region region =
      if id = region ∧ region < w.regions.size then { w.region region with held := none }
      else w.region region := by
  change { w with regions := w.regions.modify id fun r => { r with held := none } }.region region = _
  unfold World.region
  simp only [Array.getD_eq_getD_getElem?, Array.getElem?_modify]
  by_cases hid : id = region
  · subst hid
    by_cases hlt : id < w.regions.size
    · simp [hlt]
    · simp [hlt]
  · simp [hid]

/-- Closing a region closes that region, if there is one. -/
theorem passes_close (id : Nat) :
    w.Passes (fun region => region = id ∧ region < w.regions.size) ((close id).after w) where
  size_le := Nat.le_of_eq (Array.size_modify ..).symm
  closed_iff := by
    intro region
    have hsize : ((close id).after w).regions.size = w.regions.size := Array.size_modify ..
    unfold Closed isOpen
    rw [region_close, hsize]
    split_ifs with hid
    · constructor
      · rintro ⟨hlt, -⟩
        exact Or.inr ⟨hid.1.symm, hlt⟩
      · rintro -
        exact ⟨hid.2, rfl⟩
    · constructor
      · exact Or.inl
      · rintro (h | ⟨rfl, hlt⟩)
        · exact h
        · exact (hid ⟨rfl, hlt⟩).elim
  lenders := by
    intro hexist j region h
    have hsize : ((close id).after w).regions.size = w.regions.size := Array.size_modify ..
    rw [hsize]
    exact hexist j region h

/-- The region that a command closes. -/
def Closes (w : World) (c : Command) (region : Nat) : Prop :=
  c = .close region ∧ region < w.regions.size

theorem passes_perform (w : World) (c : Command) : w.Passes (w.Closes c) (w.perform c).2 := by
  rw [perform_snd]
  by_cases hc : ∃ region, c = .close region
  · obtain ⟨id, rfl⟩ := hc
    have hafter : (Command.close id).run.after w = (close id).after w := Action.after_done _ w
    have hcloses : w.Closes (.close id) = fun region => region = id ∧ region < w.regions.size := by
      funext region
      unfold Closes
      rw [Command.close.injEq, eq_comm (a := id)]
    rw [hafter, hcloses]
    exact passes_close id
  · have hnone : w.Closes c = fun _ => False := by
      funext region
      exact eq_false fun h => hc ⟨region, h.1⟩
    rw [hnone]
    exact keeps_of_comesTo (moves_command fun region h => hc ⟨region, h⟩)

/-- The regions that a history closes. -/
def ClosesAll (w : World) : List Command → Nat → Prop
  | [], _ => False
  | c :: rest, region => w.Closes c region ∨ (w.perform c).2.ClosesAll rest region

theorem passes_performAll (w : World) (history : List Command) :
    w.Passes (w.ClosesAll history) (w.performAll history).2 := by
  induction history generalizing w with
  | nil => exact keeps_refl w
  | cons c rest ih => exact (passes_perform w c).trans (ih (w.perform c).2)

/-- A region is closed when the history has closed it, and only then. -/
theorem closed_performAll (history : List Command) (region : Nat) :
    (empty.performAll history).2.Closed region ↔ empty.ClosesAll history region := by
  have hnone : ¬ empty.Closed region := fun h => Nat.not_lt_zero _ h.1
  rw [(passes_performAll empty history).closed_iff, or_iff_right hnone]

theorem lendersExist_performAll (history : List Command) :
    (empty.performAll history).2.LendersExist := by
  have hempty : empty.LendersExist := by
    intro id region h
    cases h
  exact (passes_performAll empty history).lenders hempty

end LeaseVec.World
