import LeaseVec.Proofs.Files.Places

/-!
# Making directories

The directories that are missing above a target are made one after the other. Whatever else is in the tree
stays, the tree stays one in which everything stands in a directory, and when making them fails nothing can
stand where the last of them would have been.
-/

namespace LeaseVec

namespace Tree

open LeaseVec.Path LeaseVec.Text.Utf8

variable {t t' : Tree} {start segments place : List Text}

/-- Everything stands in a directory. -/
def Sound (t : Tree) : Prop := ∀ place, t.get? place ≠ none → t.get? place.dropLast = some .dir

theorem sound_empty : empty.Sound := by
  intro place h
  by_cases hroot : place = []
  · rw [hroot]
    rfl
  · exact absurd (by simp [get?, hroot, empty]) h

theorem Sound.put (h : t.Sound) (entry : Entry) (hdir : t.get? place.dropLast = some .dir)
    (hfree : t.get? place ≠ some .dir) : (t.put place entry).Sound := by
  intro other hother
  have hkeeps := keepsDirs_put entry hfree
  by_cases heq : other = place
  · rw [heq]
    exact hkeeps _ hdir
  · rw [get?_put_of_ne t entry heq] at hother
    exact hkeeps _ (h other hother)

theorem Sound.erase (h : t.Sound) (hfree : t.get? place ≠ some .dir) : (t.erase place).Sound := by
  intro other hother
  have hne : other ≠ place := by
    rintro rfl
    exact hother (get?_erase_self t (ne_nil_of_get? hfree))
  rw [get?_erase_of_ne t hne] at hother
  exact keepsDirs_erase hfree _ (h other hother)

/-- A directory that stands in directories up to the root. -/
def Rooted (t : Tree) (place : List Text) : Prop :=
  ∀ front, front <+: place → t.get? front = some .dir

theorem rooted_root (t : Tree) : t.Rooted [] := by
  intro front hfront
  rw [List.prefix_nil.1 hfront]
  rfl

theorem Rooted.dropLast (h : t.Rooted place) : t.Rooted place.dropLast := fun front hfront =>
  h front (hfront.trans (List.dropLast_prefix place))

theorem Rooted.concat {name : Text} (h : t.Rooted place) (hdir : t.get? (place ++ [name]) = some .dir) :
    t.Rooted (place ++ [name]) := by
  intro front hfront
  rcases List.prefix_concat_iff.1 hfront with heq | hfront
  · rw [heq]
    exact hdir
  · exact h front hfront

theorem Rooted.of_keepsDirs (h : t.Rooted place) (hkeeps : t.KeepsDirs t') : t'.Rooted place :=
  fun front hfront => hkeeps front (h front hfront)

/-- What making the directories along a route leaves. -/
structure Made (t t' : Tree) (start segments : List Text) (outcome : Except SystemError Unit) : Prop where
  kept : ∀ place entry, t.get? place = some entry → t'.get? place = some entry
  added : ∀ place, t.get? place = none → t'.get? place = none ∨
    t'.get? place = some .dir ∧ ∃ before after, segments = before ++ after ∧ place = walk start before
  sound : t.Sound → t'.Sound
  blocked : outcome ≠ .ok () → ∀ found, t'.follow start segments = .ok found →
    t'.get? found ≠ some .dir

section

variable {segment : Text} {rest : List Text} {outcome : Except SystemError Unit}

/-- At the end of a route, and where it is blocked, nothing is made. -/
theorem made_self (hblocked : outcome ≠ .ok () → ∀ found, t.follow start segments = .ok found →
    t.get? found ≠ some .dir) : Made t t start segments outcome :=
  ⟨fun _ _ h => h, fun _ h => Or.inl h, id, hblocked⟩

/-- A step of the route to a directory that is there changes nothing. -/
theorem Made.step (h : Made t t' (advance start segment) rest outcome) :
    Made t t' start (segment :: rest) outcome where
  kept := h.kept
  added := by
    intro place hnone
    rcases h.added place hnone with hn | ⟨hd, before, after, hrest, hplace⟩
    · exact Or.inl hn
    · exact Or.inr ⟨hd, segment :: before, after, by rw [hrest]; rfl, hplace⟩
  sound := h.sound
  blocked := by
    intro hout found hfollow
    exact h.blocked hout found (follow_cons_ok_iff.1 hfollow).2.2

/-- A directory that is made stands in the directory before it. -/
theorem Made.put (h : Made (t.put place .dir) t' place segments outcome)
    (hdir : t.get? place.dropLast = some .dir) (hnone : t.get? place = none) :
    Made t t' place segments outcome where
  kept := by
    intro other entry hother
    have hne : other ≠ place := by
      rintro rfl
      rw [hnone] at hother
      cases hother
    exact h.kept other entry (by rwa [get?_put_of_ne t .dir hne])
  added := by
    intro other hother
    by_cases heq : other = place
    · have hfree : t.get? place ≠ some .dir := by simp [hnone]
      rw [heq]
      exact Or.inr ⟨h.kept _ _ (get?_put_self t .dir (ne_nil_of_get? hfree)), [], segments, rfl, rfl⟩
    · exact h.added other (by rwa [get?_put_of_ne t .dir heq])
  sound := fun hsound => h.sound (hsound.put .dir hdir (by simp [hnone]))
  blocked := h.blocked

end

theorem made_makeAll (hstart : t.Rooted start) (hnames : ∀ segment ∈ segments, segment ≠ []) :
    Made t (t.makeAll start segments).2 start segments (t.makeAll start segments).1 := by
  have hrest : ∀ {segment : Text} {rest : List Text}, (∀ s ∈ segment :: rest, s ≠ []) →
      ∀ s ∈ rest, s ≠ [] := fun h s hs => h s (List.mem_cons_of_mem _ hs)
  have hname : ∀ {segment : Text} {rest start : List Text}, (∀ s ∈ segment :: rest, s ≠ []) →
      segment ≠ [dot] → segment ≠ [dot, dot] → advance start segment = start ++ [segment] := by
    intro segment rest start h hdot htwo
    unfold advance
    rw [if_neg (not_or.2 ⟨h segment List.mem_cons_self, hdot⟩), if_neg htwo]
  fun_induction makeAll t start segments with
  | case1 t start => exact made_self fun h => absurd rfl h
  | case2 t start rest ih => exact (ih hstart (hrest hnames)).step
  | case3 t start rest hdot ih => exact (ih hstart.dropLast (hrest hnames)).step
  | case4 t start segment rest hdot htwo next hnone hlong =>
    refine made_self fun _ found hfollow => ?_
    rcases (follow_cons_ok_iff.1 hfollow).2.1 with h | h | h | h
    · exact absurd h (hnames segment List.mem_cons_self)
    · exact absurd h hdot
    · exact absurd h htwo
    · exact absurd hlong (Nat.not_lt.2 h)
  | case5 t start segment rest hdot htwo next hnone hshort ih =>
    have hfree : t.get? next ≠ some .dir := by simp [hnone]
    have hdir : t.get? next.dropLast = some .dir := by
      rw [List.dropLast_concat]
      exact hstart start (List.prefix_refl start)
    have hrooted := (hstart.of_keepsDirs (keepsDirs_put .dir hfree)).concat
      (get?_put_self t .dir (ne_nil_of_get? hfree))
    have hmade := (ih hrooted (hrest hnames)).put hdir hnone
    exact Made.step ((hname hnames hdot htwo).symm ▸ hmade)
  | case6 t start segment rest hdot htwo next hdir ih =>
    have hmade := ih (hstart.concat hdir) (hrest hnames)
    exact Made.step ((hname hnames hdot htwo).symm ▸ hmade)
  | case7 t start segment rest hdot htwo next contents hfile =>
    refine made_self fun _ found hfollow hdir => ?_
    have hfollow := (follow_cons_ok_iff.1 hfollow).2.2
    rw [hname hnames hdot htwo] at hfollow
    cases rest with
    | nil =>
      rw [follow, Except.ok.injEq] at hfollow
      rw [← hfollow, hfile] at hdir
      cases hdir
    | cons after rest =>
      have hnext := (follow_cons_ok_iff.1 hfollow).1
      rw [hfile] at hnext
      cases hnext

variable {full : Text}

/-- Whoever can walk to the temporary path has passed the directory above the target. -/
theorem follow_dirname (h : t.Leads (Disk.temporary full)) :
    ∃ found, t.follow [] (route (dirname full)) = .ok found ∧ t.get? found = some .dir := by
  rcases route_dirname full with hroute | ⟨hroute, -⟩
  · obtain ⟨after, htemporary, hafter⟩ := dropLast_route_prefix full
    refine ⟨walk [] (route full).dropLast, ?_, h.dir_above ⟨_, after, htemporary, hafter, rfl⟩⟩
    rw [hroute]
    refine follow_ok_iff.2 ⟨rfl, fun before segment rest hparts => ?_⟩
    apply (follow_ok_iff.1 h.2).2 before segment (rest ++ after)
    rw [htemporary, hparts, List.append_assoc]
    rfl
  · refine ⟨[], ?_, get?_nil t⟩
    rw [hroute]
    exact follow_cons_ok_iff.2 ⟨get?_nil t, Or.inr (Or.inl rfl), rfl⟩

/-- What can be taken as a temporary path can be taken as the directory above the target. -/
theorem pathText_dirname {taken : Text} (h : pathText (Disk.temporary full) = .ok taken) :
    pathText (dirname full) = .ok (settled (dirname full)) := by
  rcases dirname_prefix full with ⟨rest, hrest⟩ | hdot
  · obtain ⟨hzero, hlength, -⟩ := pathText_ok_iff.1 h
    have htemporary : Disk.temporary full = dirname full ++ (rest ++ ending) := by
      rw [← List.append_assoc, hrest]
      rfl
    rw [htemporary] at hzero hlength
    have hfront : (dirname full).contains 0 = false := by
      simp only [List.contains_eq_mem, List.mem_append, decide_eq_false_iff_not, not_or] at hzero ⊢
      exact hzero.1
    exact pathText_ok_iff.2 ⟨hfront, (byteLength_le_append _ _).trans hlength, rfl⟩
  · rw [hdot]
    decide

/-- What making the directories above a target leaves. -/
structure Opened (t t' : Tree) (full : Text) (outcome : Except SystemError Unit) : Prop where
  kept : ∀ place entry, t.get? place = some entry → t'.get? place = some entry
  added : ∀ place, t.get? place = none → t'.get? place = none ∨
    t'.get? place = some .dir ∧ Above full place
  sound : t.Sound → t'.Sound
  blocked : outcome ≠ .ok () → ¬ t'.Leads (Disk.temporary full)

theorem opened_makeDir (t : Tree) (full : Text) :
    Opened t (t.makeDir (dirname full)).2 full (t.makeDir (dirname full)).1 := by
  unfold makeDir
  cases htext : pathText (dirname full) with
  | error e =>
    refine ⟨fun _ _ h => h, fun _ h => Or.inl h, id, fun _ hleads => ?_⟩
    obtain ⟨taken, htemporary⟩ := hleads.1
    rw [pathText_dirname htemporary] at htext
    cases htext
  | ok taken =>
    obtain ⟨-, -, rfl⟩ := pathText_ok_iff.1 htext
    have hmade := made_makeAll (t.rooted_root) fun segment => ne_nil_of_mem_route (p := dirname full)
    refine ⟨hmade.kept, fun place hnone => ?_, hmade.sound, fun hout hleads => ?_⟩
    · refine (hmade.added place hnone).imp_right ?_
      rintro ⟨hdir, before, after, hparts, hplace⟩
      refine ⟨hdir, ?_⟩
      have hroot : place ≠ [] := by
        rintro rfl
        cases hnone
      rcases route_dirname full with hroute | ⟨hroute, -⟩
      · rw [hroute] at hparts
        have hsome : route full ≠ [] := by
          intro hnil
          rw [hnil] at hparts
          have hbefore : before = [] := (List.append_eq_nil_iff.1 hparts.symm).1
          exact hroot (by rw [hplace, hbefore]; rfl)
        refine ⟨before, after ++ [(route full).getLast hsome], ?_, by simp, hplace⟩
        rw [← List.append_assoc, ← hparts, List.dropLast_concat_getLast]
      · -- the working directory is where the walk starts
        have hstay : ∀ front : List Text, front <+: [[dot]] → walk [] front = [] := by
          intro front hfront
          rcases List.prefix_cons_iff.1 hfront with h | ⟨rest, h, hrest⟩
          · rw [h]
            rfl
          · rw [h, List.prefix_nil.1 hrest]
            rfl
        rw [hroute] at hparts
        exact absurd (hplace.trans (hstay before ⟨after, hparts.symm⟩)) hroot
    · obtain ⟨found, hfollow, hdir⟩ := follow_dirname hleads
      exact hmade.blocked hout found hfollow hdir

end Tree

end LeaseVec
