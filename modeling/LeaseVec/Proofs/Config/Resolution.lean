import LeaseVec.Config.File
import LeaseVec.Proofs.Files.Resolved

/-!
# Which configuration file is meant

A path means itself when there is a file, a configuration file in it when there is a directory, and itself with
one of the extensions when there is nothing and it has none of them yet. What is tried is tried in order, and the
first file is the answer.
-/

namespace LeaseVec.ConfigFile

open LeaseVec.Path

/-- The extensions as texts, in the order in which they are tried. -/
def endings : List Text := extensions.map Text.ofString

/-- The path that is meant: an absent or an empty one is the stem in the working directory. -/
def meant (h : Host) : Option Text → Text
  | none => child (resolve h.cwd []) (Text.ofString stem)
  | some [] => child (resolve h.cwd []) (Text.ofString stem)
  | some p => resolve h.cwd p

/-- What is tried for a path, in order. -/
inductive Tried (t : Tree) (base : Text) : List Text → Prop
  /-- A file is the only candidate. -/
  | itself (hfile : t.HasFile base) : Tried t base [base]
  /-- In a directory, the stem with each extension. -/
  | inside (hdir : t.HasDir base) :
      Tried t base (endings.map fun e => child base (Text.ofString stem ++ e))
  /-- Where there is nothing, the path with each extension. -/
  | extended (hnothing : t.Lacks base) (hplain : ∀ e ∈ endings, ¬ HasExtension base e) :
      Tried t base (endings.map fun e => base ++ e)
  /-- Where there is nothing and an extension is there already, nothing. -/
  | missing {e : Text} (hnothing : t.Lacks base) (he : e ∈ endings) (hhas : HasExtension base e) :
      Tried t base []

/-- The first of some paths at which there is a file. -/
inductive FirstFile (t : Tree) : List Text → Option Text → Prop
  | exhausted : FirstFile t [] none
  | found {p : Text} {rest : List Text} (hfile : t.HasFile p) : FirstFile t (p :: rest) (some p)
  | later {p : Text} {rest : List Text} {found : Option Text} (hno : ¬ t.HasFile p)
      (hrest : FirstFile t rest found) : FirstFile t (p :: rest) found

variable {t : Tree} {h : Host} {base p e : Text} {candidates : List Text} {found : Option Text}

theorem FirstFile.hasFile (hf : FirstFile t candidates (some p)) : p ∈ candidates ∧ t.HasFile p := by
  generalize hfound : some p = found at hf
  induction hf with
  | exhausted => cases hfound
  | found hfile =>
    cases hfound
    exact ⟨List.mem_cons_self, hfile⟩
  | later hno hrest ih => exact (ih hfound).imp_left (List.mem_cons_of_mem _)

theorem FirstFile.none_iff (hf : FirstFile t candidates found) :
    found = none ↔ ∀ p ∈ candidates, ¬ t.HasFile p := by
  induction hf with
  | exhausted => simp
  | found hfile => simp [hfile]
  | later hno hrest ih => simp [hno, ih]

/-- A search for the first path that names a file. -/
theorem firstFile_find? (hends : ∀ p ∈ candidates, endsInSlash p = false) :
    FirstFile t candidates (candidates.find? fun p => t.isDir? p = some false) := by
  induction candidates with
  | nil => exact .exhausted
  | cons p rest ih =>
    obtain ⟨hp, hrest⟩ := List.forall_mem_cons.1 hends
    have htells := Tree.tells_isDir? (t := t) hp
    rw [List.find?_cons]
    generalize t.isDir? p = kind at htells
    cases htells with
    | file hfile => exact .found hfile
    | dir hdir =>
      refine .later ?_ (ih hrest)
      rintro ⟨contents, hfile⟩
      cases hfile.symm.trans hdir
    | nothing hnothing =>
      refine .later ?_ (ih hrest)
      rintro ⟨contents, hfile⟩
      cases hfile.symm.trans hnothing

/-- Every extension is a dot and something without dots and slashes. -/
theorem exists_of_mem_endings (he : e ∈ endings) :
    ∃ w, e = dot :: w ∧ w ≠ [] ∧ dot ∉ w ∧ slash ∉ w := by
  have hall : ∀ e ∈ endings, e = dot :: e.tail ∧ e.tail ≠ [] ∧ dot ∉ e.tail ∧ slash ∉ e.tail := by
    decide
  exact ⟨e.tail, hall e he⟩

theorem isAmong_iff (hbase : Resolved base) :
    Module.isAmong (extname base) extensions = true ↔ ∃ e ∈ endings, HasExtension base e := by
  unfold Module.isAmong endings
  simp only [List.any_eq_true, decide_eq_true_eq, List.mem_map, exists_exists_and_eq_and]
  refine exists_congr fun e => and_congr_right fun he => ?_
  obtain ⟨w, hw, hne, hdot, hslash⟩ := exists_of_mem_endings (List.mem_map_of_mem he)
  rw [hw]
  exact hbase.extname_eq_iff hne hdot hslash

theorem firstFile_withExtension? (t : Tree) (base : Text) :
    FirstFile t (endings.map fun e => base ++ e) (withExtension? t base) := by
  have hmap : extensions.map (fun e => base ++ Text.ofString e) = endings.map fun e => base ++ e := by
    rw [endings, List.map_map]
    rfl
  unfold withExtension?
  rw [hmap]
  apply firstFile_find?
  intro p hp
  obtain ⟨e, he, rfl⟩ := List.mem_map.1 hp
  obtain ⟨w, rfl, -, -, hslash⟩ := exists_of_mem_endings he
  refine endsInSlash_append base (List.cons_ne_nil dot w) ?_
  rw [List.mem_cons, not_or]
  exact ⟨by decide, hslash⟩

theorem isName_stem : IsName (Text.ofString stem) := ⟨by decide, by decide, by decide, by decide⟩

/-- What the search makes of the path that is meant. -/
theorem resolve?_of_meant (hcwd : isAbsolute h.cwd = true) (path : Option Text) :
    Resolved (meant h path) ∧ resolve? h path =
      match h.tree.isDir? (meant h path) with
      | some false => some (meant h path)
      | some true => withExtension? h.tree (join (meant h path) (Text.ofString stem))
      | none =>
        if Module.isAmong (extname (meant h path)) extensions then none
        else withExtension? h.tree (meant h path) := by
  have hstem : resolve h.cwd (Text.ofString stem) = child (resolve h.cwd []) (Text.ofString stem) :=
    resolve_of_isName hcwd isName_stem
  have hresolved : Resolved (resolve h.cwd (Text.ofString stem)) := resolved_resolve hcwd _
  cases path with
  | none =>
    unfold meant
    rw [← hstem]
    exact ⟨hresolved, rfl⟩
  | some p =>
    cases p with
    | nil =>
      unfold meant
      rw [← hstem]
      exact ⟨hresolved, rfl⟩
    | cons u p => exact ⟨resolved_resolve hcwd _, rfl⟩

/-- The search finds the first candidate that is a file, and nothing exactly when there is none. So what it finds
is never a directory and never missing. A working directory is an absolute path. -/
theorem resolve?_first (hcwd : isAbsolute h.cwd = true) (path : Option Text) :
    ∃ candidates, Tried h.tree (meant h path) candidates ∧
      FirstFile h.tree candidates (resolve? h path) ∧
      (resolve? h path = none ↔ ∀ p ∈ candidates, ¬ h.tree.HasFile p) ∧
      ∀ p, resolve? h path = some p → p ∈ candidates ∧ h.tree.HasFile p := by
  obtain ⟨hresolved, hsearch⟩ := resolve?_of_meant hcwd path
  have htells := Tree.tells_isDir?_of_resolved (t := h.tree) hresolved
  suffices hfirst : ∃ candidates, Tried h.tree (meant h path) candidates ∧
      FirstFile h.tree candidates (resolve? h path) by
    obtain ⟨candidates, htried, hfirst⟩ := hfirst
    exact ⟨candidates, htried, hfirst, hfirst.none_iff, fun p hp => (hp ▸ hfirst).hasFile⟩
  rw [hsearch]
  generalize h.tree.isDir? (meant h path) = kind at htells
  cases htells with
  | file hfile => exact ⟨_, .itself hfile, .found hfile⟩
  | dir hdir =>
    refine ⟨_, .inside hdir, ?_⟩
    have hjoin : join (meant h path) (Text.ofString stem) = child (meant h path) (Text.ofString stem) :=
      join_of_isName hresolved isName_stem
    simp only [child_append, hjoin]
    exact firstFile_withExtension? h.tree _
  | nothing hnothing =>
    simp only
    split_ifs with hamong
    · obtain ⟨e, he, hhas⟩ := (isAmong_iff hresolved).1 hamong
      exact ⟨_, .missing hnothing he hhas, .exhausted⟩
    · refine ⟨_, .extended hnothing fun e he hhas => hamong ?_, firstFile_withExtension? h.tree _⟩
      exact (isAmong_iff hresolved).2 ⟨e, he, hhas⟩

/-- A directory with the name of a module, and the module under another extension. -/
def besideDirectory : Host where
  cwd := Text.ofString "/w"
  tree := ⟨[([Text.ofString "w"], .dir), ([Text.ofString "w", Text.ofString "cowvec.config.mjs"], .dir),
    ([Text.ofString "w", Text.ofString "cowvec.config.ts"], .file [])]⟩
  modules := []

/-- The directory is passed over. -/
theorem resolve?_first_besideDirectory :
    isAbsolute besideDirectory.cwd = true ∧
    resolve? besideDirectory none = some (Text.ofString "/w/cowvec.config.ts") ∧
    ∃ candidates, Tried besideDirectory.tree (meant besideDirectory none) candidates ∧
      FirstFile besideDirectory.tree candidates (resolve? besideDirectory none) ∧
      (resolve? besideDirectory none = none ↔ ∀ p ∈ candidates, ¬ besideDirectory.tree.HasFile p) ∧
      ∀ p, resolve? besideDirectory none = some p → p ∈ candidates ∧ besideDirectory.tree.HasFile p := by
  have hcwd : isAbsolute besideDirectory.cwd = true := by decide
  exact ⟨hcwd, by decide +kernel, resolve?_first hcwd none⟩

end LeaseVec.ConfigFile
