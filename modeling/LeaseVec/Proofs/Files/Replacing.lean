import LeaseVec.Files.Disk
import LeaseVec.Proofs.Outcome
import Mathlib.Tactic.SplitIfs

/-!
# What is replaced is read back

Replacing a file on disk writes a temporary file and moves it over the target. Both steps leave every
directory in place, and a path is followed through directories only, so the target is found again where it
was and holds what the temporary file held.
-/

namespace LeaseVec

namespace Tree

variable {t t' : Tree} {path : List Text}

/-- Every directory of one tree is one of the other. -/
def KeepsDirs (t t' : Tree) : Prop := ∀ path, t.get? path = some .dir → t'.get? path = some .dir

theorem KeepsDirs.trans {t'' : Tree} (h : t.KeepsDirs t') (h' : t'.KeepsDirs t'') :
    t.KeepsDirs t'' := fun path hd => h' path (h path hd)

theorem get?_nil (t : Tree) : t.get? [] = some .dir := rfl

/-- What is not a directory is not the root. -/
theorem ne_nil_of_get? (h : t.get? path ≠ some .dir) : path ≠ [] := by
  rintro rfl
  exact h t.get?_nil

theorem get?_put_self (t : Tree) (entry : Entry) (h : path ≠ []) :
    (t.put path entry).get? path = some entry := by
  simp [get?, put, h]

theorem find?_filter_ne {α : Type} {path other : List Text} (h : other ≠ path)
    (entries : List (List Text × α)) :
    (entries.filter fun e => e.1 ≠ path).find? (fun e => e.1 = other) =
      entries.find? fun e => e.1 = other := by
  rw [List.find?_filter]
  congr
  funext e
  by_cases he : e.1 = other
  · simp [he, h]
  · simp [he]

theorem get?_put_of_ne (t : Tree) (entry : Entry) {other : List Text} (h : other ≠ path) :
    (t.put path entry).get? other = t.get? other := by
  by_cases ho : other = []
  · simp [get?, ho]
  · have hne : ¬ path = other := fun he => h he.symm
    simp only [get?, put, ho, if_false, List.find?_cons, hne, decide_false]
    rw [find?_filter_ne h]

theorem get?_erase_of_ne (t : Tree) {other : List Text} (h : other ≠ path) :
    (t.erase path).get? other = t.get? other := by
  by_cases ho : other = []
  · simp [get?, ho]
  · simp only [get?, erase, ho, if_false]
    rw [find?_filter_ne h]

theorem get?_erase_self (t : Tree) (h : path ≠ []) : (t.erase path).get? path = none := by
  simp [get?, erase, h, List.find?_filter]

theorem keepsDirs_put (entry : Entry) (h : t.get? path ≠ some .dir) :
    t.KeepsDirs (t.put path entry) := by
  intro other hd
  rw [get?_put_of_ne]
  · exact hd
  · rintro rfl
    exact h hd

theorem keepsDirs_erase (h : t.get? path ≠ some .dir) : t.KeepsDirs (t.erase path) := by
  intro other hd
  rw [get?_erase_of_ne]
  · exact hd
  · rintro rfl
    exact h hd

/-- A path that can be followed can be followed wherever its directories are. -/
theorem follow_of_keepsDirs (h : t.KeepsDirs t') {start found segments : List Text}
    (hf : t.follow start segments = .ok found) : t'.follow start segments = .ok found := by
  induction segments generalizing start with
  | nil => exact hf
  | cons segment rest ih =>
    unfold follow at hf ⊢
    cases hd : t.get? start with
    | none => simp [hd] at hf
    | some entry =>
      cases entry with
      | file contents => simp [hd] at hf
      | dir =>
        simp only [hd] at hf
        simp only [h start hd]
        split_ifs at hf ⊢
        · exact ih hf
        · exact ih hf
        · exact ih hf

/-- The place of a path: where it leads, with what is there now. -/
theorem place_of_keepsDirs (h : t.KeepsDirs t') {text : Text} {p : Place} (hp : t.place text = .ok p) :
    t'.place text = .ok ⟨p.path, t'.get? p.path, p.wantsDir⟩ := by
  obtain ⟨settled, htext, hp⟩ := Outcome.bind_ok_iff.1 hp
  obtain ⟨found, hfound, hp⟩ := Outcome.bind_ok_iff.1 hp
  cases hp
  refine Outcome.bind_ok_iff.2 ⟨settled, htext, Outcome.bind_ok_iff.2 ⟨found, ?_, rfl⟩⟩
  exact follow_of_keepsDirs h hfound

theorem entry_of_place {text : Text} {p : Place} (hp : t.place text = .ok p) :
    p.entry = t.get? p.path := by
  have h := place_of_keepsDirs (fun _ h => h : t.KeepsDirs t) hp
  rw [hp] at h
  exact congrArg Place.entry (Except.ok.inj h)

/-- A file that has been put is where its path leads. -/
theorem putFile_ok {text : Text} {contents : Bytes} (h : t.putFile text contents = .ok t') :
    ∃ p, t.place text = .ok p ∧ t.get? p.path ≠ some .dir ∧ t' = t.put p.path (.file contents) := by
  obtain ⟨p, hp, h⟩ := Outcome.bind_ok_iff.1 h
  refine ⟨p, hp, ?_⟩
  rw [entry_of_place hp] at h
  split_ifs at h
  cases hentry : t.get? p.path with
  | none =>
    rw [hentry] at h
    cases h
    exact ⟨by simp, rfl⟩
  | some entry =>
    rw [hentry] at h
    cases entry with
    | dir => cases h
    | file old =>
      cases h
      exact ⟨by simp, rfl⟩

/-- A file that has been moved is where the target leads. -/
theorem rename_ok {source target : Text} (h : t.rename source target = .ok t') :
    ∃ p q entry, t.place source = .ok p ∧ t.place target = .ok q ∧ t.get? p.path = some entry ∧
      q.wantsDir = false ∧ t.get? q.path ≠ some .dir ∧ t' = (t.erase p.path).put q.path entry := by
  obtain ⟨p, hp, h⟩ := Outcome.bind_ok_iff.1 h
  obtain ⟨q, hq, h⟩ := Outcome.bind_ok_iff.1 h
  rw [entry_of_place hp, entry_of_place hq] at h
  by_cases hnames : Path.endsInName source ∧ Path.endsInName target
  case neg =>
    rw [if_pos hnames] at h
    cases h
  rw [if_neg (not_not_intro hnames)] at h
  cases hentry : t.get? p.path with
  | none =>
    rw [hentry] at h
    cases h
  | some entry =>
    simp only [hentry] at h
    split_ifs at h with hwants
    refine ⟨p, q, entry, hp, hq, hentry, by simpa using hwants, ?_⟩
    cases htarget : t.get? q.path with
    | none =>
      rw [htarget] at h
      cases h
      exact ⟨by simp, rfl⟩
    | some there =>
      rw [htarget] at h
      cases there with
      | dir => cases h
      | file old =>
        cases h
        exact ⟨by simp, rfl⟩

/-- What was written to one path and then moved to another is read from there. -/
theorem contents?_of_rename {source target : Text} {contents : Bytes} {t₁ t₂ : Tree}
    (hput : t.putFile source contents = .ok t₁) (hmove : t₁.rename source target = .ok t₂) :
    t₂.contents? target = .ok contents := by
  obtain ⟨p, hp, hfree, rfl⟩ := putFile_ok hput
  obtain ⟨p', q, entry, hp', hq, hentry, hwants, htarget, rfl⟩ := rename_ok hmove
  have hroot := ne_nil_of_get? hfree
  rw [place_of_keepsDirs (keepsDirs_put _ hfree) hp] at hp'
  cases hp'
  rw [get?_put_self _ _ hroot] at hentry
  cases hentry
  have hfile : (t.put p.path (.file contents)).get? p.path ≠ some .dir := by
    rw [get?_put_self _ _ hroot]
    simp
  have hfree' : ((t.put p.path (.file contents)).erase p.path).get? q.path ≠ some .dir := by
    by_cases heq : q.path = p.path
    · rw [heq, get?_erase_self _ hroot]
      simp
    · rwa [get?_erase_of_ne _ heq]
  have hkeeps := (keepsDirs_erase hfile).trans (keepsDirs_put (.file contents) hfree')
  refine Outcome.bind_ok_iff.2 ⟨_, place_of_keepsDirs hkeeps hq, ?_⟩
  simp only [get?_put_self _ _ (ne_nil_of_get? htarget), hwants]
  rfl

end Tree

namespace Disk

/-- A rename on which nothing is imposed is tried on the same tree each time, so when it ends well in the
end it does so the first time. -/
theorem rename_of_retrying {tree : Tree} {source target : Text} {attempt left : Nat}
    (hok : (renameRetrying tree source target [] attempt (left + 1)).1.outcome = .ok ()) :
    tree.rename source target =
      .ok (renameRetrying tree source target [] attempt (left + 1)).2 := by
  induction left generalizing attempt with
  | zero =>
    unfold renameRetrying at hok ⊢
    cases hr : tree.rename source target with
    | ok moved => rfl
    | error e =>
      rw [hr] at hok
      cases hok
  | succ left ih =>
    unfold renameRetrying at hok ⊢
    cases hr : tree.rename source target with
    | ok moved => rfl
    | error e =>
      rw [hr] at hok
      simp only [Except.mapError, List.tail_nil] at hok ⊢
      by_cases hstop : left + 1 = 0 ∨ (!isBusy (.system e)) = true
      · rw [if_pos hstop] at hok
        cases hok
      · rw [if_neg hstop] at hok ⊢
        rw [← hr]
        exact ih hok

/-- Cleaning up after a failure is no success. -/
theorem cleanUp_ne_ok (full : Text) (tree : Tree) (failure : Fault) :
    (cleanUp full tree failure).1 ≠ .ok () := by
  unfold cleanUp
  cases tree.remove (temporary full) <;> simp

/-- What a disk takes in place of a file is what it reads from then on. -/
theorem read_of_replace {d : Disk} {path : Text} {contents : Bytes}
    (hok : (d.replaceImposing path contents []).1.outcome = .ok ()) :
    (d.replaceImposing path contents []).2.read path = .ok contents := by
  unfold replaceImposing at hok ⊢
  cases hmade : makeAbove d.tree (fullPath d.base path) with
  | mk outcome tree₁ =>
    cases outcome with
    | error e => simp [hmade] at hok
    | ok u =>
      simp only [hmade] at hok ⊢
      cases hput : tree₁.putFile (temporary (fullPath d.base path)) contents with
      | error e =>
        simp only [hput] at hok
        exact (cleanUp_ne_ok _ _ _ hok).elim
      | ok tree₂ =>
        simp only [hput] at hok ⊢
        cases hretry : (renameRetrying tree₂ (temporary (fullPath d.base path)) (fullPath d.base path)
            [] 0 renameAttempts).1.outcome with
        | error e =>
          simp only [hretry] at hok
          exact (cleanUp_ne_ok _ _ _ hok).elim
        | ok u =>
          have hmove := rename_of_retrying hretry
          exact Outcome.mapError_ok_iff.2 (Tree.contents?_of_rename hput hmove)

end Disk

end LeaseVec
