import LeaseVec.Proofs.Files.Renames

/-!
# An atomic write on disk is all or nothing

The temporary file never stands where the target does, and it is gone in the end: moved over the target
when the write succeeds, removed when it fails. So the target is either replaced as a whole or left as it
was, and besides the target only missing directories above it have been added.
-/

namespace LeaseVec

open LeaseVec.Path

namespace Tree

variable {t t' : Tree} {full text : Text} {place : List Text} {contents : Bytes}

/-- Two trees that differ in no more than a file at one place. -/
structure Aside (t t' : Tree) (place : List Text) : Prop where
  elsewhere : ∀ other, other ≠ place → t'.get? other = t.get? other
  dirs : ∀ other, t'.get? other = some .dir ↔ t.get? other = some .dir

theorem aside_self (t : Tree) (place : List Text) : Aside t t place :=
  ⟨fun _ _ => rfl, fun _ => Iff.rfl⟩

theorem Aside.trans {t'' : Tree} (h : Aside t t' place) (h' : Aside t' t'' place) : Aside t t'' place :=
  ⟨fun other hne => (h'.elsewhere other hne).trans (h.elsewhere other hne),
    fun other => (h'.dirs other).trans (h.dirs other)⟩

/-- What is no directory on either side may differ. -/
theorem aside_of_elsewhere (helsewhere : ∀ other, other ≠ place → t'.get? other = t.get? other)
    (h : t.get? place ≠ some .dir) (h' : t'.get? place ≠ some .dir) : Aside t t' place := by
  refine ⟨helsewhere, fun other => ?_⟩
  by_cases heq : other = place
  · rw [heq]
    exact ⟨fun hd => absurd hd h', fun hd => absurd hd h⟩
  · rw [helsewhere other heq]

theorem aside_put (contents : Bytes) (h : t.get? place ≠ some .dir) :
    Aside t (t.put place (.file contents)) place := by
  refine aside_of_elsewhere (fun other hne => get?_put_of_ne t _ hne) h ?_
  rw [get?_put_self t _ (ne_nil_of_get? h)]
  simp

theorem aside_erase (h : t.get? place ≠ some .dir) : Aside t (t.erase place) place := by
  refine aside_of_elsewhere (fun other hne => get?_erase_of_ne t hne) h ?_
  rw [get?_erase_self t (ne_nil_of_get? h)]
  simp

theorem Aside.leads_iff (h : Aside t t' place) : t'.Leads text ↔ t.Leads text :=
  ⟨fun hleads => hleads.of_keepsDirs fun other hd => (h.dirs other).1 hd,
    fun hleads => hleads.of_keepsDirs fun other hd => (h.dirs other).2 hd⟩

/-- A path that leads to another place finds the same there. -/
theorem Aside.entryAt?_eq (h : Aside t t' place) (hne : location text ≠ place) :
    t'.entryAt? text = t.entryAt? text := by
  ext entry
  rw [entryAt?_eq_some_iff, entryAt?_eq_some_iff, h.leads_iff, h.elsewhere _ hne]

/-- A path that is followed to no directory ends in a name of one. -/
theorem Sound.dir_of_leads (h : t.Sound) (hleads : t.Leads text)
    (hfree : t.get? (location text) ≠ some .dir) : t.get? (location text).dropLast = some .dir := by
  by_cases hroute : route text = []
  · have hroot : location text = [] := by
      unfold location
      rw [hroute]
      rfl
    rw [hroot]
    rfl
  · have hparts := (List.dropLast_concat_getLast hroute).symm
    have hdir : t.get? (walk [] (route text).dropLast) = some .dir :=
      hleads.dir_above ⟨_, _, hparts, by simp, rfl⟩
    have hlocation : location text =
        advance (walk [] (route text).dropLast) ((route text).getLast hroute) := by
      unfold location
      conv_lhs => rw [hparts, walk_append]
      rfl
    rw [hlocation] at hfree ⊢
    unfold advance at hfree ⊢
    split_ifs at hfree ⊢ with hstay hup
    · exact absurd hdir hfree
    · exact absurd (h _ (by simp [hdir])) hfree
    · rw [List.dropLast_concat]
      exact hdir

theorem endsInSlash_temporary (full : Text) : endsInSlash (Disk.temporary full) = false := by
  obtain ⟨front, hfront⟩ : ∃ front, ending = front ++ [0x70] := ⟨Text.ofString ".tm", by decide⟩
  have htemporary : Disk.temporary full = (full ++ front) ++ [0x70] := by
    rw [List.append_assoc, ← hfront]
    rfl
  unfold endsInSlash
  rw [htemporary, List.getLast?_concat]
  decide

theorem remove_of_file (hname : endsInSlash text = false)
    (h : t.entryAt? text = some (.file contents)) : t.remove text = .ok (t.erase (location text)) := by
  obtain ⟨hleads, hfile⟩ := entryAt?_eq_some_iff.1 h
  unfold remove
  rw [place_of_leads hleads]
  simp [hfile, hname]

/-- Where there is no file, there is nothing to remove. -/
theorem remove_of_no_file (h : ∀ contents, t.entryAt? text ≠ some (.file contents)) :
    t.remove text = .ok t ∨ ∃ e, t.remove text = .error e := by
  unfold remove
  cases hp : t.place text with
  | error e => cases e <;> simp
  | ok p =>
    have hentry : t.entryAt? text = p.entry := by
      unfold entryAt?
      rw [hp]
    rw [hentry] at h
    cases he : p.entry with
    | none => simp [he]
    | some entry =>
      cases entry with
      | dir => simp [he]
      | file contents => exact absurd he (h contents)

/-- What cleaning up leaves: no file at the temporary path, and all else as it was. -/
structure Restored (t t' : Tree) (full : Text) : Prop where
  aside : Aside t t' (location (Disk.temporary full))
  emptied : t'.get? (location (Disk.temporary full)) = none ∨
    t'.get? (location (Disk.temporary full)) = t.get? (location (Disk.temporary full))
  cleaned : ∀ contents, t'.entryAt? (Disk.temporary full) ≠ some (.file contents)
  sound : t.Sound → t'.Sound

theorem restored_self (h : ∀ contents, t.entryAt? (Disk.temporary full) ≠ some (.file contents)) :
    Restored t t full :=
  ⟨aside_self t _, Or.inr rfl, h, id⟩

theorem restored_erase (h : t.get? (location (Disk.temporary full)) ≠ some .dir) :
    Restored t (t.erase (location (Disk.temporary full))) full := by
  have hnone := get?_erase_self t (ne_nil_of_get? h)
  refine ⟨aside_erase h, Or.inl hnone, fun contents hfile => ?_, fun hsound => hsound.erase h⟩
  rw [(entryAt?_eq_some_iff.1 hfile).2] at hnone
  cases hnone

/-- A tree with the temporary file in it. -/
structure Written (t t' : Tree) (full : Text) (contents : Bytes) : Prop where
  aside : Aside t t' (location (Disk.temporary full))
  holds : t'.entryAt? (Disk.temporary full) = some (.file contents)
  sound : t.Sound → t'.Sound

theorem written_of_putFile (h : t.putFile (Disk.temporary full) contents = .ok t') :
    Written t t' full contents := by
  obtain ⟨p, hp, hfree, rfl⟩ := putFile_ok h
  have hleads := leads_of_place hp
  rw [place_eq hp] at hfree ⊢
  have haside := aside_put contents hfree
  have hfile := get?_put_self t (.file contents) (ne_nil_of_get? hfree)
  exact ⟨haside, entryAt?_eq_some_iff.2 ⟨haside.leads_iff.2 hleads, hfile⟩,
    fun hsound => hsound.put _ (hsound.dir_of_leads hleads hfree) hfree⟩

theorem Written.no_dir (h : Written t t' full contents) :
    t'.get? (location (Disk.temporary full)) ≠ some .dir := by
  rw [(entryAt?_eq_some_iff.1 h.holds).2]
  simp

theorem Written.restored (h : Written t t' full contents) :
    Restored t (t'.erase (location (Disk.temporary full))) full := by
  have hrestored := restored_erase h.no_dir
  exact ⟨h.aside.trans hrestored.aside, Or.inl (get?_erase_self t' (ne_nil_of_get? h.no_dir)),
    hrestored.cleaned, fun hsound => hrestored.sound (h.sound hsound)⟩

/-- What a move over the target leaves besides the target: nothing at the temporary path, and all else as
it was. -/
structure Moved (t t' : Tree) (full : Text) : Prop where
  elsewhere : ∀ place, place ≠ location (Disk.temporary full) → place ≠ location full →
    t'.get? place = t.get? place
  keeps : t.KeepsDirs t'
  emptied : t'.get? (location (Disk.temporary full)) = none
  sound : t.Sound → t'.Sound

theorem Written.moved {t'' : Tree} (h : Written t t' full contents)
    (hmove : t'.rename (Disk.temporary full) full = .ok t'') : Moved t t'' full := by
  obtain ⟨p, q, entry, hp, hq, hentry, -, hfree, rfl⟩ := rename_ok hmove
  have hleads := leads_of_place hq
  rw [place_eq hp] at hentry ⊢
  rw [place_eq hq] at hfree ⊢
  simp only at hentry hfree ⊢
  have hne := location_temporary_ne full
  have htemporary := h.no_dir
  obtain ⟨haside, -, -, hsound⟩ := h.restored
  have hfree' : (t'.erase (location (Disk.temporary full))).get? (location full) ≠ some .dir := by
    rwa [get?_erase_of_ne t' hne.symm]
  refine ⟨fun place hplace htarget => ?_, fun place hd => ?_, ?_, fun hs => ?_⟩
  · rw [get?_put_of_ne _ _ htarget]
    exact haside.elsewhere place hplace
  · exact keepsDirs_put entry hfree' place ((haside.dirs place).2 hd)
  · rw [get?_put_of_ne _ _ hne]
    exact get?_erase_self t' (ne_nil_of_get? htemporary)
  · exact (hsound hs).put entry
      ((hsound hs).dir_of_leads ((aside_erase htemporary).leads_iff.2 hleads) hfree') hfree'

/-- A directory above a target that was missing and has been made. -/
def NewlyMade (t t' : Tree) (full : Text) (place : List Text) : Prop :=
  t.get? place = none ∧ t'.get? place = some .dir ∧ Above full place

/-- In a tree in which everything stands in a directory, whatever is there stands in directories up to the
root. -/
theorem Sound.dir_of_prefix (h : t.Sound) {front : List Text} (hplace : t.get? place ≠ none)
    (hfront : front <+: place) (hne : front ≠ place) : t.get? front = some .dir := by
  induction place using List.reverseRecOn with
  | nil => exact absurd (List.prefix_nil.1 hfront) hne
  | append_singleton place name ih =>
    have hdir : t.get? place = some .dir := by
      have hparent := h _ hplace
      rwa [List.dropLast_concat] at hparent
    rcases List.prefix_concat_iff.1 hfront with heq | hfront
    · exact absurd heq hne
    · by_cases heq : front = place
      · rw [heq]
        exact hdir
      · exact ih (by simp [hdir]) hfront heq

theorem location_of_plain (h : Plain full) : location full = route full :=
  walk_of_plain (fun segment hs => ⟨ne_nil_of_mem_route hs, h segment hs⟩) []

/-- A directory above the target of a plain path is a shorter path. -/
theorem prefix_of_above (h : Plain full) (habove : Above full place) :
    place <+: location full ∧ place ≠ location full := by
  obtain ⟨before, after, hroute, hafter, hplace⟩ := habove
  have hplain : ∀ segment ∈ before, segment ≠ [] ∧ segment ≠ [dot] ∧ segment ≠ [dot, dot] := by
    intro segment hs
    have hmem : segment ∈ route full := by
      rw [hroute]
      exact List.mem_append_left after hs
    exact ⟨ne_nil_of_mem_route hmem, h segment hmem⟩
  rw [walk_of_plain hplain, List.nil_append] at hplace
  rw [location_of_plain h, hroute, hplace]
  refine ⟨List.prefix_append before after, fun heq => hafter ?_⟩
  exact List.self_eq_append_right.1 heq

variable {t₁ : Tree} {outcome : Except SystemError Unit}

/-- What a target has held it holds after directories were made and the temporary file came and went. -/
theorem entry_kept (hopened : Opened t t₁ full outcome)
    (haside : Aside t₁ t' (location (Disk.temporary full))) {entry : Entry}
    (h : t.entryAt? full = some entry) : t'.entryAt? full = some entry := by
  obtain ⟨hleads, hentry⟩ := entryAt?_eq_some_iff.1 h
  rw [haside.entryAt?_eq (location_temporary_ne full).symm]
  exact entryAt?_eq_some_iff.2
    ⟨hleads.of_keepsDirs fun place hd => hopened.kept place _ hd, hopened.kept _ _ hentry⟩

/-- Nothing comes to be at a target unless its path steps through a directory that was made. -/
theorem nothing_kept (hsound : t.Sound) (hopened : Opened t t₁ full outcome)
    (haside : Aside t₁ t' (location (Disk.temporary full)))
    (hpath : Plain full ∨ ∀ place, ¬ NewlyMade t t' full place) (h : t.entryAt? full = none) :
    t'.entryAt? full = none := by
  rw [haside.entryAt?_eq (location_temporary_ne full).symm, Option.eq_none_iff_forall_ne_some]
  intro entry hentry
  obtain ⟨hleads, hthere⟩ := entryAt?_eq_some_iff.1 hentry
  -- what was missing on the way or at the end would have been made
  have hold : ∀ place, t.get? place = none → t₁.get? place ≠ none →
      t'.get? place = some .dir ∧ Above full place := by
    intro place hnone hsome
    rcases hopened.added place hnone with hn | ⟨hd, habove⟩
    · exact absurd hn hsome
    · exact ⟨(haside.dirs place).2 hd, habove⟩
  have hthere' : t.get? (location full) ≠ none := by
    intro hnone
    obtain ⟨hd, habove⟩ := hold _ hnone (by simp [hthere])
    rcases hpath with hplain | hnew
    · exact (prefix_of_above hplain habove).2 rfl
    · exact hnew _ ⟨hnone, hd, habove⟩
  have hleads' : t.Leads full := by
    refine hleads.of_above fun place habove hd => ?_
    rcases hpath with hplain | hnew
    · obtain ⟨hshort, hne⟩ := prefix_of_above hplain habove
      exact hsound.dir_of_prefix hthere' hshort hne
    · cases hwas : t.get? place with
      | none => exact absurd ⟨hwas, (haside.dirs place).2 hd, habove⟩ (hnew place)
      | some was => rw [← hopened.kept place was hwas, hd]
  rw [entryAt?_of_leads hleads'] at h
  exact hthere' h

theorem contents?_ok_iff : t.contents? text = .ok contents ↔
    t.Leads text ∧ t.get? (location text) = some (.file contents) ∧ endsInSlash text = false := by
  constructor
  · intro h
    obtain ⟨p, hp, h⟩ := Outcome.bind_ok_iff.1 h
    rw [place_eq hp] at h
    refine ⟨leads_of_place hp, ?_⟩
    cases hentry : t.get? (location text) with
    | none => simp [hentry] at h
    | some entry =>
      cases entry with
      | dir => simp [hentry] at h
      | file old =>
        simp only [hentry] at h
        split_ifs at h with hslash
        cases h
        exact ⟨rfl, by simpa using hslash⟩
  · rintro ⟨hleads, hfile, hslash⟩
    refine Outcome.bind_ok_iff.2 ⟨_, place_of_leads hleads, ?_⟩
    simp [hfile, hslash]

end Tree

namespace Disk

open LeaseVec.Tree

variable {t t' : Tree} {full : Text} {contents : Bytes} {imposed : List (Option Fault)}
  {report : ReplaceReport}

/-- The temporary file gets written, in a tree with the directories above the target. -/
def Writes (t written : Tree) (full : Text) (contents : Bytes) : Prop :=
  ∃ opened, t.makeDir (dirname full) = (.ok (), opened) ∧
    opened.putFile (temporary full) contents = .ok written

/-- The renames that were tried: none unless the temporary file got written. -/
structure Renamed (t : Tree) (full : Text) (contents : Bytes) (imposed : List (Option Fault))
    (report : ReplaceReport) : Prop where
  tried : ∀ written, Writes t written full contents → ∃ moved last,
    Attempted written (temporary full) full imposed renameAttempts report moved last
  untried : (∀ written, ¬ Writes t written full contents) → report.attempts = 0

/-- How an atomic write can go: it comes to nothing, or the temporary file is moved over the target. -/
inductive Replacement (t : Tree) (full : Text) (contents : Bytes) (report : ReplaceReport) : Tree → Prop
  | undone {opened t' : Tree} {outcome : Except SystemError Unit} (hopened : Opened t opened full outcome)
      (hrestored : Restored opened t' full) (hfailed : report.outcome ≠ .ok ()) :
      Replacement t full contents report t'
  | moved {opened written t' : Tree} (hopened : Opened t opened full (.ok ()))
      (hput : opened.putFile (temporary full) contents = .ok written)
      (hmove : written.rename (temporary full) full = .ok t') (hdone : report.outcome = .ok ()) :
      Replacement t full contents report t'

theorem cleanUp_of_file (failure : Fault)
    (h : t.entryAt? (temporary full) = some (.file contents)) :
    cleanUp full t failure = (.error failure, t.erase (location (temporary full))) := by
  unfold cleanUp
  rw [remove_of_file (endsInSlash_temporary full) h]

theorem restored_cleanUp (full : Text) (t : Tree) (failure : Fault) :
    ∃ e t', cleanUp full t failure = (.error e, t') ∧ Restored t t' full := by
  by_cases h : ∃ contents, t.entryAt? (temporary full) = some (.file contents)
  · obtain ⟨contents, h⟩ := h
    refine ⟨failure, _, cleanUp_of_file failure h, restored_erase ?_⟩
    rw [(entryAt?_eq_some_iff.1 h).2]
    simp
  · have hnone := not_exists.1 h
    unfold cleanUp
    rcases remove_of_no_file hnone with hsame | ⟨e, herror⟩
    · rw [hsame]
      exact ⟨failure, t, rfl, restored_self hnone⟩
    · rw [herror]
      exact ⟨.system e, t, rfl, restored_self hnone⟩

theorem rename_of_attempt {source target : Text} {n : Nat}
    (h : attempt t source target imposed n = .ok t') : t.rename source target = .ok t' := by
  unfold attempt at h
  split at h
  · cases h
  · exact Outcome.mapError_ok_iff.1 h

section

variable {base path : Text} {opened written : Tree} {e : SystemError}

theorem replaceImposing_unopened (h : t.makeDir (dirname (fullPath base path)) = (.error e, opened)) :
    (⟨base, t⟩ : Disk).replaceImposing path contents imposed =
      (⟨.error (.system e), 0, []⟩, ⟨base, opened⟩) := by
  simp [replaceImposing, makeAbove, h, Except.mapError]

theorem replaceImposing_unwritten (h : t.makeDir (dirname (fullPath base path)) = (.ok (), opened))
    (hput : opened.putFile (temporary (fullPath base path)) contents = .error e) :
    (⟨base, t⟩ : Disk).replaceImposing path contents imposed =
      (⟨(cleanUp (fullPath base path) opened (.system e)).1, 0, []⟩,
        ⟨base, (cleanUp (fullPath base path) opened (.system e)).2⟩) := by
  simp [replaceImposing, makeAbove, h, hput, Except.mapError]

theorem replaceImposing_done (h : t.makeDir (dirname (fullPath base path)) = (.ok (), opened))
    (hput : opened.putFile (temporary (fullPath base path)) contents = .ok written)
    (hretry : renameRetrying written (temporary (fullPath base path)) (fullPath base path) imposed 0
      renameAttempts = (report, t')) (hdone : report.outcome = .ok ()) :
    (⟨base, t⟩ : Disk).replaceImposing path contents imposed = (report, ⟨base, t'⟩) := by
  simp [replaceImposing, makeAbove, h, hput, hretry, hdone, Except.mapError]

theorem replaceImposing_undone {failure : Fault}
    (h : t.makeDir (dirname (fullPath base path)) = (.ok (), opened))
    (hput : opened.putFile (temporary (fullPath base path)) contents = .ok written)
    (hretry : renameRetrying written (temporary (fullPath base path)) (fullPath base path) imposed 0
      renameAttempts = (report, t')) (hfailed : report.outcome = .error failure) :
    (⟨base, t⟩ : Disk).replaceImposing path contents imposed =
      ({ report with outcome := (cleanUp (fullPath base path) t' failure).1 },
        ⟨base, (cleanUp (fullPath base path) t' failure).2⟩) := by
  simp [replaceImposing, makeAbove, h, hput, hretry, hfailed, Except.mapError]

end

theorem replacement (base path : Text) (t : Tree) (contents : Bytes) (imposed : List (Option Fault)) :
    ∃ report t', (⟨base, t⟩ : Disk).replaceImposing path contents imposed = (report, ⟨base, t'⟩) ∧
      Replacement t (fullPath base path) contents report t' ∧
      Renamed t (fullPath base path) contents imposed report := by
  have hopened := opened_makeDir t (fullPath base path)
  cases hmade : t.makeDir (dirname (fullPath base path)) with
  | mk outcome opened =>
    rw [hmade] at hopened
    have hwrites : ∀ written, Writes t written (fullPath base path) contents → outcome = .ok () ∧
        opened.putFile (temporary (fullPath base path)) contents = .ok written := by
      rintro written ⟨opened', hmade', hput⟩
      rw [hmade] at hmade'
      cases hmade'
      exact ⟨rfl, hput⟩
    cases outcome with
    | error e =>
      have hfree : ∀ old, opened.entryAt? (temporary (fullPath base path)) ≠ some (.file old) :=
        fun old hfile => hopened.blocked (by simp) (entryAt?_eq_some_iff.1 hfile).1
      exact ⟨_, opened, replaceImposing_unopened hmade,
        .undone hopened (restored_self hfree) (by simp), fun _ h => (nomatch (hwrites _ h).1), fun _ => rfl⟩
    | ok u =>
      cases hput : opened.putFile (temporary (fullPath base path)) contents with
      | error e =>
        obtain ⟨e', t', hclean, hrestored⟩ :=
          restored_cleanUp (fullPath base path) opened (.system e)
        exact ⟨_, t', (replaceImposing_unwritten hmade hput).trans (by rw [hclean]),
          .undone hopened hrestored (by simp),
          fun _ h => (nomatch hput.symm.trans (hwrites _ h).2), fun _ => rfl⟩
      | ok written =>
        have hwritten := written_of_putFile hput
        obtain ⟨last, hlast⟩ := attempted_renameRetrying written (temporary (fullPath base path))
          (fullPath base path) imposed 0 (renameAttempts - 1)
        change Attempted _ _ _ _ renameAttempts
          (renameRetrying _ _ _ _ 0 renameAttempts).1 (renameRetrying _ _ _ _ 0 renameAttempts).2 last
          at hlast
        cases hretry : renameRetrying written (temporary (fullPath base path)) (fullPath base path)
            imposed 0 renameAttempts with
        | mk report tree =>
          rw [hretry] at hlast
          have hrenamed : Renamed t (fullPath base path) contents imposed report := by
            refine ⟨fun other hother => ⟨tree, last, ?_⟩, fun hnone => ?_⟩
            · cases hput.symm.trans (hwrites other hother).2
              exact hlast
            · exact absurd ⟨opened, hmade, hput⟩ (hnone written)
          rcases hlast.ended with ⟨hmove, hdone⟩ | ⟨e, -, -, hfailed, htree⟩
          · exact ⟨report, tree, replaceImposing_done hmade hput hretry hdone,
              .moved hopened hput (rename_of_attempt hmove) hdone, hrenamed⟩
          · simp only at hfailed htree
            subst htree
            refine ⟨report, _, ?_, .undone hopened hwritten.restored (by simp [hfailed]), hrenamed⟩
            rw [replaceImposing_undone hmade hput hretry hfailed, cleanUp_of_file e hwritten.holds,
              ← hfailed]

/-- What holds of a tree after an atomic write in it. -/
structure AllOrNothing (t : Tree) (full : Text) (contents : Bytes) (imposed : List (Option Fault))
    (report : ReplaceReport) (t' : Tree) : Prop where
  replaced : report.outcome = .ok () →
    t'.contents? full = .ok contents ∧ t'.entryAt? (temporary full) = none
  kept : report.outcome ≠ .ok () → ∀ entry, t.entryAt? full = some entry →
    t'.entryAt? full = some entry
  /-- A path with a step back can lead to a directory that the write itself has made. -/
  nothing : report.outcome ≠ .ok () → Plain full ∨ (∀ place, ¬ NewlyMade t t' full place) →
    t.entryAt? full = none → t'.entryAt? full = none
  cleaned : report.outcome ≠ .ok () → ∀ old, t'.entryAt? (temporary full) ≠ some (.file old)
  elsewhere : report.outcome ≠ .ok () → ∀ place, place ≠ location (temporary full) →
    t'.get? place = t.get? place ∨ NewlyMade t t' full place
  renamed : Renamed t full contents imposed report
  sound : t'.Sound

/-- What was missing and is there after the directories were made is one of them. -/
theorem newlyMade_of_opened {opened : Tree} {outcome : Except SystemError Unit} {place : List Text}
    (hopened : Opened t opened full outcome) (hsame : t'.get? place = opened.get? place) :
    t'.get? place = t.get? place ∨ NewlyMade t t' full place := by
  cases hwas : t.get? place with
  | some entry => exact Or.inl (hsame.trans (hopened.kept place entry hwas))
  | none =>
    rcases hopened.added place hwas with hnone | ⟨hdir, habove⟩
    · exact Or.inl (hsame.trans hnone)
    · exact Or.inr ⟨hwas, hsame.trans hdir, habove⟩

theorem allOrNothing_of_replacement (hsound : t.Sound) (h : Replacement t full contents report t')
    (hrenamed : Renamed t full contents imposed report) :
    AllOrNothing t full contents imposed report t' := by
  cases h with
  | undone hopened hrestored hfailed =>
    exact {
      replaced := fun hdone => absurd hdone hfailed
      kept := fun _ entry => entry_kept hopened hrestored.aside
      nothing := fun _ => nothing_kept hsound hopened hrestored.aside
      cleaned := fun _ => hrestored.cleaned
      elsewhere := fun _ place hne => newlyMade_of_opened hopened (hrestored.aside.elsewhere place hne)
      renamed := hrenamed
      sound := hrestored.sound (hopened.sound hsound) }
  | moved hopened hput hmove hdone =>
    have hmoved := (written_of_putFile hput).moved hmove
    refine {
      replaced := fun _ => ⟨contents?_of_rename hput hmove, ?_⟩
      kept := fun hfailed => absurd hdone hfailed
      nothing := fun hfailed => absurd hdone hfailed
      cleaned := fun hfailed => absurd hdone hfailed
      elsewhere := fun hfailed => absurd hdone hfailed
      renamed := hrenamed
      sound := hmoved.sound (hopened.sound hsound) }
    rw [Option.eq_none_iff_forall_ne_some]
    intro entry hentry
    exact nomatch hmoved.emptied.symm.trans (entryAt?_eq_some_iff.1 hentry).2

/-- An atomic write on disk replaces its target or leaves it as it was, however the renames end. -/
theorem replaceImposing_all_or_nothing {t : Tree} (hsound : t.Sound) (base path : Text) (contents : Bytes)
    (imposed : List (Option Fault)) :
    ∃ report t', (⟨base, t⟩ : Disk).replaceImposing path contents imposed = (report, ⟨base, t'⟩) ∧
      AllOrNothing t (fullPath base path) contents imposed report t' := by
  obtain ⟨report, t', hrun, hreplacement, hrenamed⟩ := replacement base path t contents imposed
  exact ⟨report, t', hrun, allOrNothing_of_replacement hsound hreplacement hrenamed⟩

theorem replaceImposing_all_or_nothing_busyThenDenied :
    let d := Text.ofString "d"
    let t := (Tree.empty.put [d] .dir).put [d, Text.ofString "f"] (.file [1])
    let denied : Fault := .system (.other (Text.ofString "EACCES"))
    t.Sound ∧ ∃ report t', (⟨[slash], t⟩ : Disk).replaceImposing (Text.ofString "d/f") [2]
        [some (.system busy), some denied] = (report, ⟨[slash], t'⟩) ∧
      AllOrNothing t (Text.ofString "/d/f") [2] [some (.system busy), some denied] report t' := by
  intro d t denied
  have hdir : (Tree.empty.put [d] .dir).Sound := sound_empty.put .dir rfl (by decide)
  have hsound : t.Sound := hdir.put (.file [1]) (by decide) (by decide)
  exact ⟨hsound, replaceImposing_all_or_nothing hsound [slash] (Text.ofString "d/f") [2] _⟩

/-- A path that steps back over a missing directory to the same name finds the directory that was made. -/
theorem failed_write_makes_its_target :
    let full := Text.ofString "/m/../m"
    ∃ report t', (⟨[slash], Tree.empty⟩ : Disk).replaceImposing full [1] [] = (report, ⟨[slash], t'⟩) ∧
      report.outcome ≠ .ok () ∧ Tree.empty.Sound ∧ Tree.empty.entryAt? full = none ∧
        t'.entryAt? full = some .dir := by
  refine ⟨⟨.error (.system .isDirectory), 1, []⟩, ⟨[([Text.ofString "m"], .dir)]⟩, ?_, by simp,
    sound_empty, by decide +kernel, by decide +kernel⟩
  rfl

/-- What a write leaves of the rest of a tree: every other file, and in addition no more than the target
and missing directories above it. -/
structure Spares (t t' : Tree) (full : Text) : Prop where
  others : ∀ other old, t.contents? other = .ok old → location other ≠ location full →
    location other ≠ location (temporary full) → t'.contents? other = .ok old
  added : ∀ place, t.get? place = none → t'.get? place ≠ none →
    place = location full ∨ NewlyMade t t' full place

theorem spares_of_keeps (hkeeps : t.KeepsDirs t')
    (h : ∀ place, place ≠ location full → place ≠ location (temporary full) →
      t'.get? place = t.get? place ∨ NewlyMade t t' full place)
    (htemporary : t'.get? (location (temporary full)) = none ∨
      t'.get? (location (temporary full)) = t.get? (location (temporary full)) ∨
      NewlyMade t t' full (location (temporary full))) : Spares t t' full := by
  refine ⟨fun other old hother htarget hplace => ?_, fun place hnone hsome => ?_⟩
  · obtain ⟨hleads, hfile, hslash⟩ := contents?_ok_iff.1 hother
    refine contents?_ok_iff.2 ⟨hleads.of_keepsDirs hkeeps, ?_, hslash⟩
    rcases h _ htarget hplace with hsame | ⟨hnone, -, -⟩
    · exact hsame.trans hfile
    · exact nomatch hnone.symm.trans hfile
  · by_cases htarget : place = location full
    · exact Or.inl htarget
    · right
      by_cases hplace : place = location (temporary full)
      · rw [hplace] at hnone hsome ⊢
        rcases htemporary with hgone | hsame | hmade
        · exact absurd hgone hsome
        · exact absurd (hsame.trans hnone) hsome
        · exact hmade
      · rcases h place htarget hplace with hsame | hmade
        · exact absurd (hsame.trans hnone) hsome
        · exact hmade

theorem spares_of_replacement (h : Replacement t full contents report t') : Spares t t' full := by
  cases h with
  | undone hopened hrestored hfailed =>
    refine spares_of_keeps (fun place hd => ?_) (fun place _ hne => ?_) ?_
    · exact (hrestored.aside.dirs place).2 (hopened.kept place _ hd)
    · exact newlyMade_of_opened hopened (hrestored.aside.elsewhere place hne)
    · exact hrestored.emptied.imp_right (newlyMade_of_opened hopened)
  | moved hopened hput hmove hdone =>
    have hmoved := (written_of_putFile hput).moved hmove
    refine spares_of_keeps (fun place hd => ?_) (fun place htarget hne => ?_) (Or.inl hmoved.emptied)
    · exact hmoved.keeps place (hopened.kept place _ hd)
    · exact newlyMade_of_opened hopened (hmoved.elsewhere place hne htarget)

theorem replaceImposing_spares_others (base path : Text) (t : Tree) (contents : Bytes)
    (imposed : List (Option Fault)) :
    ∃ report t', (⟨base, t⟩ : Disk).replaceImposing path contents imposed = (report, ⟨base, t'⟩) ∧
      Spares t t' (fullPath base path) := by
  obtain ⟨report, t', hrun, hreplacement, -⟩ := replacement base path t contents imposed
  exact ⟨report, t', hrun, spares_of_replacement hreplacement⟩

/-- A file that has the temporary name is lost. -/
theorem successful_write_takes_temporary_name :
    let t := Tree.empty.put [Text.ofString "a.tmp"] (.file [1])
    let other := Text.ofString "/a.tmp"
    t.contents? other = .ok [1] ∧ location other ≠ location (Text.ofString "/a") ∧
      ∃ report t', (⟨[slash], t⟩ : Disk).replaceImposing (Text.ofString "/a") [2] [] =
          (report, ⟨[slash], t'⟩) ∧
        report.outcome = .ok () ∧ t'.contents? other = .error .noEntry := by
  refine ⟨by decide +kernel, by decide +kernel, ⟨.ok (), 1, []⟩,
    ⟨[([Text.ofString "a"], .file [2])]⟩, ?_, rfl, by decide +kernel⟩
  rfl

end Disk

end LeaseVec
