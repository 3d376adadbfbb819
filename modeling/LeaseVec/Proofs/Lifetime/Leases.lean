import LeaseVec.Proofs.Lifetime.Borrows

/-!
# How long a borrow lasts

In the world that a history reaches, the elements of a borrowed vector can be used exactly as long as the
history has not closed the region that lends them. This is put together from two sides: which regions are
closed is known from the history alone, and which calls stop, in whatever world, from the region that lends
at that moment. What happened to other regions, or to those that the vector borrowed from before, does not
matter.
-/

namespace LeaseVec.World

open Number

variable {w w' : World}

/-- When some regions have been closed, borrows from these have ended and no others. -/
structure EndsBorrows (w : World) (closed : Nat → Prop) : Prop where
  /-- What lends to a vector exists. -/
  lender_lt : ∀ id region, (w.vec id).lender? = some region → region < w.regions.size
  /-- A call that needs the elements of a vector stops when they are borrowed from a region that has been
  closed, a call stops for that reason only, and then nothing has happened. -/
  calls : ∀ (id : Nat) (c : Command), c.Calls id → ∀ label w',
    w.perform c = (.error (.borrowEnded label), w') ↔
      w' = w ∧ c.Needs w id ∧
        ∃ region, (w.vec id).lender? = some region ∧ closed region ∧ label = (w.region region).label
  /-- A vector without storage, or with storage of its own, depends on no region. -/
  independent : ∀ (id : Nat) (c : Command), c.Calls id → (w.vec id).mode ≠ .borrowed → ∀ label w',
    w.perform c ≠ (.error (.borrowEnded label), w')
  /-- Attaching asks for the region that it is given, unless the vector refuses before. -/
  attach : ∀ id view region, region < w.regions.size → ∀ label w',
    w.perform (.vec id (.attach view region)) = (.error (.borrowEnded label), w') ↔
      w' = w ∧ (w.vec id).mode ≠ .owned ∧ closed region ∧ label = (w.region region).label
  /-- What can be asked of a vector without its elements stays as it is when a region is closed. -/
  observers : ∀ region id, ((w.perform (.close region)).2.vec id = w.vec id) ∧
    (w.perform (.close region)).2.lenderLabel? (w.vec id) = w.lenderLabel? (w.vec id)
  /-- After a vector has been attached anew, only the region that lends then is asked for, whatever
  regions are closed. -/
  attachAnew : ∀ id view region w₁, id < w.vecs.size →
    w.perform (.vec id (.attach view region)) = (.ok .done, w₁) → ∀ regions : List Nat,
    ∀ c : Command, c.Calls id → ∀ label w',
      (w₁.performAll (regions.map .close)).2.perform c = (.error (.borrowEnded label), w') ↔
        w' = (w₁.performAll (regions.map .close)).2 ∧
          c.Needs (w₁.performAll (regions.map .close)).2 id ∧
          region ∈ regions ∧ label = (w.region region).label

theorem perform_close (w : World) (region : Nat) :
    (w.perform (.close region)).2 = (close region).after w := by
  rw [perform_snd]
  exact Action.after_done _ w

theorem label_close (id region : Nat) :
    (((close id).after w).region region).label = (w.region region).label := by
  rw [region_close]
  split_ifs <;> rfl

/-- A world in which regions have been closed and nothing else has happened. -/
structure OnlyCloses (w : World) (regions : List Nat) (w' : World) : Prop where
  vec_eq : ∀ id, w'.vec id = w.vec id
  label_eq : ∀ region, (w'.region region).label = (w.region region).label
  isOpen_iff : ∀ region, w'.isOpen region = true ↔ w.isOpen region = true ∧ region ∉ regions

theorem onlyCloses (w : World) (regions : List Nat) :
    w.OnlyCloses regions (w.performAll (regions.map .close)).2 := by
  induction regions generalizing w with
  | nil => exact ⟨fun _ => rfl, fun _ => rfl, fun _ => by simp [performAll]⟩
  | cons id rest ih =>
    have h := ih ((close id).after w)
    rw [← perform_close] at h
    refine ⟨fun j => ?_, fun region => ?_, fun region => ?_⟩
    · have hvec : (w.perform (.close id)).2.vec j = w.vec j := by
        rw [perform_close]
        rfl
      exact (h.vec_eq j).trans hvec
    · have hlabel := label_close (w := w) id region
      rw [← perform_close] at hlabel
      exact (h.label_eq region).trans hlabel
    · refine (h.isOpen_iff region).trans ?_
      have hfirst : (w.perform (.close id)).2.isOpen region = true ↔
          w.isOpen region = true ∧ region ≠ id := by
        rw [perform_close]
        unfold isOpen
        rw [region_close]
        split_ifs with hid
        · simp [Region.isOpen, hid.1]
        · constructor
          · intro hopen
            refine ⟨hopen, fun heq => hid ⟨heq.symm, lt_of_isOpen hopen⟩⟩
          · exact fun hopen => hopen.1
      rw [hfirst, List.mem_cons, not_or, and_assoc]

theorem perform_attach_ok {id region : Nat} {view : View} {reply : Reply}
    (h : w.perform (.vec id (.attach view region)) = (.ok reply, w')) :
    w.isOpen region = true ∧ w' = w.setHolding id (.borrowed view region) := by
  have hrun : (Command.vec id (.attach view region)).run w =
      (attach id view region >>= fun _ => pure Reply.done) w := rfl
  have heq := attach_eq (w := w) id view region
  by_cases hm : (w.vec id).mode = .owned
  · rw [if_pos hm] at heq
    rw [perform_error hrun heq] at h
    cases h
  · rw [if_neg hm] at heq
    by_cases ho : w.isOpen region = true
    · rw [if_pos ho] at heq
      rw [perform_ok hrun heq] at h
      cases h
      exact ⟨ho, rfl⟩
    · rw [if_neg ho] at heq
      rw [perform_error hrun heq] at h
      cases h

/-- After a vector has been attached anew it is stale once the region that lends then has been closed. -/
theorem stale_attachAnew {id region : Nat} {view : View} {w₁ w₂ : World} {regions : List Nat}
    {label : Text} (hid : id < w.vecs.size)
    (h : w.perform (.vec id (.attach view region)) = (.ok .done, w₁))
    (hcloses : w₁.OnlyCloses regions w₂) :
    w₂.Stale (w₂.vec id) label ↔ region ∈ regions ∧ label = (w.region region).label := by
  obtain ⟨hopen, rfl⟩ := perform_attach_ok h
  have hlender : (w₂.vec id).lender? = some region := by
    rw [hcloses.vec_eq, vec_setHolding_self _ _ hid]
    rfl
  rw [stale_iff hlender, hcloses.label_eq]
  have hended : w₂.isOpen region = false ↔ region ∈ regions := by
    rw [← Bool.not_eq_true, hcloses.isOpen_iff]
    constructor
    · intro hnot
      by_contra hmem
      exact hnot ⟨hopen, hmem⟩
    · intro hmem hboth
      exact hboth.2 hmem
  rw [hended]
  exact Iff.rfl

/-- In the world that a history reaches, borrows from the regions that the history has closed have ended and
no others. -/
theorem ends_borrows_performAll (history : List Command) :
    (empty.performAll history).2.EndsBorrows (empty.ClosesAll history) := by
  have hexist := lendersExist_performAll history
  have hclosed : ∀ region, region < (empty.performAll history).2.regions.size →
      ((empty.performAll history).2.isOpen region = false ↔ empty.ClosesAll history region) := by
    intro region hlt
    rw [← closed_performAll]
    exact ⟨fun h => ⟨hlt, h⟩, fun h => h.2⟩
  refine ⟨hexist, ?_, ?_, ?_, ?_, ?_⟩
  · intro id c hc label w'
    rw [perform_calls hc]
    refine and_congr_right fun _ => and_congr_right fun _ => exists_congr fun region => ?_
    refine and_congr_right fun hlender => ?_
    rw [hclosed region (hexist id region hlender)]
  · intro id c hc hmode label w' h
    exact not_stale_of_mode hmode ((perform_calls hc).1 h).2.2
  · intro id view region hlt label w'
    rw [perform_attach, hclosed region hlt]
  · intro region id
    refine ⟨by rw [perform_close]; rfl, ?_⟩
    rw [perform_close]
    unfold lenderLabel?
    exact congrArg (fun f => Option.map f _) (funext fun r => label_close region r)
  · intro id view region w₁ hid h regions c hc label w'
    rw [perform_calls hc, stale_attachAnew hid h (onlyCloses w₁ regions)]

/-- Two regions are lent, a vector borrows from the first and then from the second, and the first is
closed. -/
def attachTwice : List Command :=
  [.alloc [1, 2, 3, 4, 5, 6, 7, 8], .lend ⟨0, 0, 8, false⟩ [97], .lend ⟨0, 0, 8, false⟩ [98], .newVec .u8 false,
    .vec 0 (.attach ⟨.u8, 0, 0, 8, 0⟩ 0), .vec 0 (.attach ⟨.u8, 0, 0, 4, 1⟩ 1), .close 0]

example : ((empty.performAll attachTwice).2.perform (.vec 0 .pop)).1.isOk = true := by decide +kernel

example : ((empty.performAll (attachTwice ++ [.close 1])).2.perform (.vec 0 .pop)).1 =
    .error (.borrowEnded [98]) := by
  rfl

end LeaseVec.World
