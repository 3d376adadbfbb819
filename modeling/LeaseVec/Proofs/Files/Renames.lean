import LeaseVec.Proofs.Files.Parents

/-!
# Renames that are tried again

A rename is tried until it succeeds, fails in a way that another attempt would not mend, or has been tried
as often as it may be. A failed attempt changes nothing, so every attempt finds the same tree.
-/

namespace LeaseVec

/-- The code of a failure, where it has one. -/
def Fault.code? : Fault → Option Text
  | .system error => some error.code
  | _ => none

/-- A failure that another attempt may mend. -/
def Fault.Retryable (e : Fault) : Prop :=
  e.code? = some (Text.ofString "EBUSY") ∨ e.code? = some (Text.ofString "EMFILE") ∨
    e.code? = some (Text.ofString "ENFILE")

namespace Disk

variable {t t' : Tree} {source target : Text} {imposed : List (Option Fault)}

theorem isBusy_iff (e : Fault) : isBusy e = true ↔ e.Retryable := by
  unfold Fault.Retryable
  cases e with
  | system error =>
    cases error with
    | other code => simp [isBusy, Fault.code?, SystemError.code, or_assoc]
    | _ => simp only [isBusy, Fault.code?, SystemError.code]; decide
  | _ => simp [isBusy, Fault.code?]

/-- What the attempt after `n` others meets: the failure imposed on it, or what the tree allows. -/
def attempt (t : Tree) (source target : Text) (imposed : List (Option Fault)) (n : Nat) :
    Except Fault Tree :=
  match imposed[n]? with
  | some (some e) => .error e
  | _ => (t.rename source target).mapError .system

/-- The attempts on one tree: all but the last fail in a way that can be mended, and the last one gives
the outcome. -/
structure Attempted (t : Tree) (source target : Text) (imposed : List (Option Fault)) (limit : Nat)
    (report : ReplaceReport) (t' : Tree) (last : Nat) : Prop where
  within : last < limit
  counted : report.attempts = last + 1
  mended : ∀ n < last, ∃ e, attempt t source target imposed n = .error e ∧ e.Retryable
  ended : attempt t source target imposed last = .ok t' ∧ report.outcome = .ok () ∨
    ∃ e, attempt t source target imposed last = .error e ∧ (¬ e.Retryable ∨ last + 1 = limit) ∧
      report.outcome = .error e ∧ t' = t

/-- The attempts after the first meet what is imposed after the first. -/
theorem attempt_tail (n : Nat) :
    attempt t source target imposed.tail n = attempt t source target imposed (n + 1) := by
  unfold attempt
  rw [List.getElem?_tail]

/-- An attempt that succeeds, or that fails in a way that another would not mend, is the last. -/
theorem attempted_once {report : ReplaceReport} {limit : Nat} (hlimit : 0 < limit)
    (hcounted : report.attempts = 1)
    (hended : attempt t source target imposed 0 = .ok t' ∧ report.outcome = .ok () ∨
      ∃ e, attempt t source target imposed 0 = .error e ∧ (¬ e.Retryable ∨ 1 = limit) ∧
        report.outcome = .error e ∧ t' = t) :
    Attempted t source target imposed limit report t' 0 :=
  ⟨hlimit, hcounted, fun _ h => absurd h (Nat.not_lt_zero _), hended⟩

/-- An attempt that can be mended comes before the attempts on what is imposed after it. -/
theorem Attempted.after {report : ReplaceReport} {limit last : Nat} {e : Fault} {pauses : List Nat}
    (h : Attempted t source target imposed.tail limit report t' last)
    (hfirst : attempt t source target imposed 0 = .error e) (hretry : e.Retryable) :
    Attempted t source target imposed (limit + 1) ⟨report.outcome, report.attempts + 1, pauses⟩ t'
      (last + 1) where
  within := Nat.succ_lt_succ h.within
  counted := congrArg Nat.succ h.counted
  mended := by
    intro n hn
    cases n with
    | zero => exact ⟨e, hfirst, hretry⟩
    | succ n =>
      rw [← attempt_tail]
      exact h.mended n (Nat.lt_of_succ_lt_succ hn)
  ended := by
    rw [← attempt_tail]
    refine h.ended.imp_right fun ⟨e, hlast, hstop, hout, htree⟩ => ⟨e, hlast, ?_, hout, htree⟩
    exact hstop.imp_right (congrArg Nat.succ)

/-- The source looks at what is imposed first, as an attempt does. -/
theorem renameRetrying_succ (k left : Nat) :
    renameRetrying t source target imposed k (left + 1) =
      match attempt t source target imposed 0 with
      | .ok moved => (⟨.ok (), 1, []⟩, moved)
      | .error e =>
        if left = 0 ∨ !isBusy e then (⟨.error e, 1, []⟩, t)
        else
          let (report, t') := renameRetrying t source target imposed.tail (k + 1) left
          (⟨report.outcome, report.attempts + 1, pause k :: report.pauses⟩, t') := by
  cases imposed with
  | nil => rfl
  | cons first rest => cases first <;> rfl

theorem attempted_renameRetrying (t : Tree) (source target : Text) (imposed : List (Option Fault))
    (k left : Nat) : ∃ last, Attempted t source target imposed (left + 1)
      (renameRetrying t source target imposed k (left + 1)).1
      (renameRetrying t source target imposed k (left + 1)).2 last := by
  induction left generalizing imposed k with
  | zero =>
    rw [renameRetrying_succ]
    cases hfirst : attempt t source target imposed 0 with
    | ok moved => exact ⟨0, attempted_once Nat.one_pos rfl (Or.inl ⟨hfirst, rfl⟩)⟩
    | error e => exact ⟨0, attempted_once Nat.one_pos rfl (Or.inr ⟨e, hfirst, Or.inr rfl, rfl, rfl⟩)⟩
  | succ left ih =>
    rw [renameRetrying_succ]
    cases hfirst : attempt t source target imposed 0 with
    | ok moved => exact ⟨0, attempted_once (Nat.succ_pos _) rfl (Or.inl ⟨hfirst, rfl⟩)⟩
    | error e =>
      by_cases hretry : e.Retryable
      · obtain ⟨last, hlast⟩ := ih imposed.tail (k + 1)
        have hgoes : ¬ (left + 1 = 0 ∨ (!isBusy e) = true) := by
          simp [(isBusy_iff e).2 hretry]
        simp only [if_neg hgoes]
        exact ⟨last + 1, hlast.after hfirst hretry⟩
      · have hstops : left + 1 = 0 ∨ (!isBusy e) = true := by
          right
          rw [Bool.not_eq_true', Bool.eq_false_iff]
          exact fun hbusy => hretry ((isBusy_iff e).1 hbusy)
        simp only [if_pos hstops]
        exact ⟨0, attempted_once (Nat.succ_pos _) rfl (Or.inr ⟨e, hfirst, Or.inl hretry, rfl, rfl⟩)⟩

end Disk

end LeaseVec
