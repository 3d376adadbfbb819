import LeaseVec.Proofs.Files.Places

/-!
# Resolved paths

A path that was resolved is a slash and names with slashes between them: it has no steps in place or upwards, no
empty segments and no slash at its end. What is asked of it by its text is then what the names say: what is in a
directory is one name further, and the extension is the end of the last name.
-/

namespace LeaseVec

namespace Path

variable {p name front : Text} {names kept : List Text}

/-- A segment that says something: neither empty nor a step. -/
structure IsName (name : Text) : Prop where
  ne_nil : name ≠ []
  ne_dot : name ≠ [dot]
  ne_dots : name ≠ [dot, dot]
  no_slash : slash ∉ name

/-- The path of names from the root. -/
def ofNames (names : List Text) : Text := slash :: unsplit names

/-- The path of a name in a directory. -/
def child (dir name : Text) : Text :=
  if dir = [slash] then slash :: name else dir ++ slash :: name

/-- A path whose last name is an extension behind something else. -/
def HasExtension (p extension : Text) : Prop :=
  ∃ front name, p = front ++ slash :: (name ++ extension) ∧ name ≠ [] ∧ slash ∉ name

theorem unsplit_cons (a : Text) {rest : List Text} (h : rest ≠ []) :
    unsplit (a :: rest) = a ++ slash :: unsplit rest := by
  obtain ⟨b, rest, rfl⟩ := List.exists_cons_of_ne_nil h
  simp [unsplit, Text.join]

theorem unsplit_cons_ne_nil {a : Text} (ha : a ≠ []) (rest : List Text) : unsplit (a :: rest) ≠ [] := by
  rcases eq_or_ne rest [] with rfl | hrest
  · exact ha
  · rw [unsplit_cons a hrest]
    exact List.append_ne_nil_of_left_ne_nil ha _

theorem unsplit_concat (hnames : names ≠ []) (name : Text) :
    unsplit (names ++ [name]) = unsplit names ++ slash :: name := by
  induction names with
  | nil => exact absurd rfl hnames
  | cons a names ih =>
    rcases eq_or_ne names [] with rfl | hne
    · exact unsplit_cons a (List.cons_ne_nil name [])
    · rw [List.cons_append, unsplit_cons a (by simp), ih hne, unsplit_cons a hne, List.append_assoc]
      rfl

theorem split_unsplit (h : ∀ name ∈ names, slash ∉ name) (hnames : names ≠ []) :
    split (unsplit names) = names := by
  induction names using List.reverseRecOn with
  | nil => exact absurd rfl hnames
  | append_singleton names name ih =>
    have hname : split name = [name] := split_of_not_mem (h name (by simp))
    rcases eq_or_ne names [] with rfl | hne
    · exact hname
    · rw [unsplit_concat hne, split_append_slash, hname, ih (fun a ha => h a (by simp [ha])) hne]

theorem slash_not_mem_of_mem_split {segment : Text} (h : segment ∈ split p) : slash ∉ segment := by
  induction p generalizing segment with
  | nil =>
    obtain rfl := List.mem_singleton.1 h
    exact List.not_mem_nil
  | cons u p ih =>
    rw [split_cons] at h
    split_ifs at h with hu
    · rcases List.mem_cons.1 h with rfl | h
      · exact List.not_mem_nil
      · exact ih h
    · rcases List.mem_cons.1 h with rfl | h
      · rw [List.mem_cons, not_or]
        exact ⟨Ne.symm hu, ih (List.head_mem _)⟩
      · exact ih (List.mem_of_mem_tail h)

theorem stepSegment_of_isName (absolute : Bool) (kept : List Text) (h : IsName name) :
    stepSegment absolute kept name = name :: kept := by
  unfold stepSegment
  rw [if_neg (not_or.2 ⟨h.ne_nil, h.ne_dot⟩), if_neg h.ne_dots]

/-- Names are walked as they are. -/
theorem foldl_stepSegment_of_isName (absolute : Bool) (kept : List Text) (h : ∀ name ∈ names, IsName name) :
    names.foldl (stepSegment absolute) kept = names.reverse ++ kept := by
  induction names generalizing kept with
  | nil => rfl
  | cons a names ih =>
    obtain ⟨ha, hnames⟩ := List.forall_mem_cons.1 h
    rw [List.foldl_cons, stepSegment_of_isName absolute kept ha, ih _ hnames, List.reverse_cons,
      List.append_assoc]
    rfl

/-- Above the root only names are kept. -/
theorem isName_of_mem_stepSegment {segment : Text} (hkept : ∀ name ∈ kept, IsName name)
    (hsegment : slash ∉ segment) : ∀ name ∈ stepSegment true kept segment, IsName name := by
  unfold stepSegment
  by_cases hstay : segment = [] ∨ segment = [dot]
  · rwa [if_pos hstay]
  by_cases hup : segment = [dot, dot]
  · rw [if_neg hstay, if_pos hup]
    cases kept with
    | nil => simp
    | cons last before =>
      obtain ⟨hlast, hbefore⟩ := List.forall_mem_cons.1 hkept
      show ∀ name ∈ if last = [dot, dot] then segment :: last :: before else before, IsName name
      rwa [if_neg hlast.ne_dots]
  · rw [if_neg hstay, if_neg hup]
    rw [not_or] at hstay
    exact List.forall_mem_cons.2 ⟨⟨hstay.1, hstay.2, hup, hsegment⟩, hkept⟩

theorem isName_of_mem_segments (h : isAbsolute p = true) : ∀ name ∈ segments p, IsName name := by
  have hfold : ∀ (pieces kept : List Text), (∀ piece ∈ pieces, slash ∉ piece) →
      (∀ name ∈ kept, IsName name) → ∀ name ∈ pieces.foldl (stepSegment true) kept, IsName name := by
    intro pieces
    induction pieces with
    | nil => exact fun kept _ hkept => hkept
    | cons piece pieces ih =>
      intro kept hpieces hkept
      obtain ⟨hpiece, hrest⟩ := List.forall_mem_cons.1 hpieces
      exact ih _ hrest (isName_of_mem_stepSegment hkept hpiece)
  intro name hname
  unfold segments at hname
  rw [h, List.mem_reverse] at hname
  exact hfold _ [] (fun piece hpiece => slash_not_mem_of_mem_split hpiece) (by simp) name hname

/-- A path in a directory of names. -/
theorem child_ofNames (h : ∀ name ∈ names, IsName name) (name : Text) :
    child (ofNames names) name = ofNames (names ++ [name]) := by
  unfold child ofNames
  cases names with
  | nil => rfl
  | cons a names =>
    have hne : unsplit (a :: names) ≠ [] := unsplit_cons_ne_nil (h a (by simp)).ne_nil names
    rw [if_neg (by simpa using hne), unsplit_concat (List.cons_ne_nil a names)]
    rfl

theorem child_append (dir name ending : Text) : child dir (name ++ ending) = child dir name ++ ending := by
  unfold child
  split_ifs <;> simp

theorem isAbsolute_append_slash (p q q' : Text) :
    isAbsolute (p ++ slash :: q) = isAbsolute (p ++ slash :: q') := by
  cases p <;> rfl

/-- A name behind a slash is one segment more. -/
theorem segments_append_slash (p : Text) (h : IsName name) :
    segments (p ++ slash :: name) = segments (p ++ [slash]) ++ [name] := by
  unfold segments
  rw [isAbsolute_append_slash p name [], split_append_slash, split_append_slash,
    split_of_not_mem h.no_slash, List.foldl_append, List.foldl_append, List.foldl_cons, List.foldl_nil,
    stepSegment_of_isName _ _ h, List.reverse_cons]
  rfl

theorem segments_ofNames_append_slash (h : ∀ name ∈ names, IsName name) :
    segments (ofNames names ++ [slash]) = names := by
  have habsolute : isAbsolute (ofNames names ++ [slash]) = true := rfl
  have hkept : ∀ pieces : List Text, (pieces ++ [[]]).foldl (stepSegment true) [] =
      pieces.foldl (stepSegment true) [] := by
    intro pieces
    rw [List.foldl_append]
    rfl
  unfold segments
  rw [habsolute, split_append_slash]
  show ((split (ofNames names) ++ [[]]).foldl (stepSegment true) []).reverse = names
  rw [hkept, ofNames, ← List.nil_append (slash :: _), split_append_slash]
  rcases eq_or_ne names [] with rfl | hne
  · rfl
  · rw [split_unsplit (fun name hname => (h name hname).no_slash) hne]
    show (names.foldl (stepSegment true) []).reverse = names
    rw [foldl_stepSegment_of_isName true [] h, List.append_nil, List.reverse_reverse]

/-- A path that is a slash and names with slashes between them. -/
def Resolved (p : Text) : Prop := ∃ names, (∀ name ∈ names, IsName name) ∧ p = ofNames names

variable {cwd : Text}

theorem resolved_resolve (h : isAbsolute cwd = true) (p : Text) : Resolved (resolve cwd p) := by
  refine ⟨_, ?_, rfl⟩
  apply isName_of_mem_segments
  split_ifs with hp
  · exact hp
  · cases cwd with
    | nil => rfl
    | cons u cwd => exact h

/-- A name means what is in the working directory. -/
theorem resolve_of_isName (h : isAbsolute cwd = true) (hname : IsName name) :
    resolve cwd name = Path.child (resolve cwd []) name := by
  have hrelative : isAbsolute name = false := by
    cases name with
    | nil => rfl
    | cons u name =>
      have hu : u ≠ slash := fun hu => hname.no_slash (by simp [hu])
      simpa [isAbsolute] using hu
  have hcwd : ∀ q, isAbsolute (cwd ++ slash :: q) = true := by
    intro q
    cases cwd with
    | nil => rfl
    | cons u cwd => exact h
  have hresolve : ∀ q, isAbsolute q = false → resolve cwd q = ofNames (segments (cwd ++ slash :: q)) := by
    intro q hq
    unfold resolve
    rw [hq]
    rfl
  rw [hresolve name hrelative, hresolve [] rfl, child_ofNames (isName_of_mem_segments (hcwd [])),
    segments_append_slash cwd hname]

/-- A path that ends in what has no slash asks for no directory. -/
theorem endsInSlash_append (q : Text) (h : name ≠ []) (hslash : slash ∉ name) :
    endsInSlash (q ++ name) = false := by
  unfold endsInSlash
  rw [List.getLast?_append, List.getLast?_eq_some_getLast h, Option.some_or]
  have hlast : name.getLast h ≠ slash := fun heq => hslash (heq ▸ List.getLast_mem h)
  simpa using hlast

/-- A resolved path is the root, or ends in a name. -/
theorem Resolved.cases (h : Resolved p) :
    p = [slash] ∨ ∃ front last, p = front ++ slash :: last ∧ IsName last := by
  obtain ⟨names, hnames, rfl⟩ := h
  rcases List.eq_nil_or_concat names with rfl | ⟨before, last, rfl⟩
  · exact Or.inl rfl
  · rw [List.concat_eq_append] at hnames ⊢
    have hlast : IsName last := hnames last (by simp)
    right
    rcases eq_or_ne before [] with rfl | hne
    · exact ⟨[], last, rfl, hlast⟩
    · refine ⟨slash :: unsplit before, last, ?_, hlast⟩
      rw [ofNames, unsplit_concat hne]
      rfl

/-- So does a name that is joined to a directory. -/
theorem join_of_isName (h : Resolved p) (hname : IsName name) : join p name = Path.child p name := by
  obtain ⟨names, hnames, rfl⟩ := h
  have hne : ofNames names ≠ [] := List.cons_ne_nil _ _
  have habsolute : isAbsolute (ofNames names ++ slash :: name) = true := rfl
  have hsegments : segments (ofNames names ++ slash :: name) = names ++ [name] := by
    rw [segments_append_slash _ hname, segments_ofNames_append_slash hnames]
  have hending : endsInSlash (ofNames names ++ slash :: name) = false := by
    rw [List.append_cons]
    exact endsInSlash_append _ hname.ne_nil hname.no_slash
  rw [child_ofNames hnames]
  unfold join normalize
  rw [if_neg (fun hnil => hne hnil.1), if_neg hne, if_neg hname.ne_nil, habsolute, hsegments, hending]
  simp [ofNames]

/-- Read from behind, what stands behind a unit comes before it. -/
theorem takeWhile_reverse_append {c : UInt16} {last : Text} (front : Text) (h : c ∉ last) :
    (front ++ c :: last).reverse.takeWhile (fun u => decide (u ≠ c)) = last.reverse := by
  have hall : ∀ u ∈ last.reverse, decide (u ≠ c) = true := by
    intro u hu
    exact decide_eq_true fun heq => h (heq ▸ List.mem_reverse.1 hu)
  rw [List.reverse_append, List.reverse_cons, List.append_assoc, List.takeWhile_append_of_pos hall]
  simp

/-- A unit that occurs has a last occurrence. -/
theorem exists_last_occurrence {c : UInt16} (h : c ∈ p) :
    ∃ front last, p = front ++ c :: last ∧ c ∉ last := by
  obtain ⟨back, rest, hsplit, hback⟩ := List.eq_append_cons_of_mem (List.mem_reverse.2 h)
  refine ⟨rest.reverse, back.reverse, ?_, fun hmem => hback (List.mem_reverse.1 hmem)⟩
  rw [← List.reverse_reverse p, hsplit]
  simp

theorem basename_append_slash (front : Text) {last : Text} (h : last ≠ []) (hslash : slash ∉ last) :
    basename (front ++ slash :: last) = last := by
  have htrimmed : trimmed (front ++ slash :: last) = (front ++ slash :: last).reverse := by
    obtain ⟨before, u, rfl⟩ := List.eq_nil_or_concat last |>.resolve_left h
    have hu : u ≠ slash := fun heq => hslash (by simp [heq])
    unfold trimmed
    simp [hu]
  unfold basename
  rw [htrimmed, takeWhile_reverse_append front hslash, List.reverse_reverse]

/-- An extension is the end of the last name from its last dot on, behind something else. -/
theorem extname_eq_iff {w : Text} (hw : w ≠ []) (hdot : dot ∉ w) :
    extname p = dot :: w ↔ ∃ name, name ≠ [] ∧ basename p = name ++ dot :: w := by
  have hwpos := List.length_pos_iff.2 hw
  unfold extname
  simp only
  generalize basename p = last
  by_cases hmem : dot ∈ last
  · obtain ⟨name, after, rfl, hafter⟩ := exists_last_occurrence hmem
    have hlength : (name ++ dot :: after).length = name.length + (after.length + 1) := by simp
    rw [takeWhile_reverse_append name hafter, List.reverse_reverse, List.length_reverse, hlength]
    constructor
    · intro h
      split_ifs at h with hall hfirst htwo
      obtain rfl := (List.cons.inj h).2
      refine ⟨name, ?_, rfl⟩
      rintro rfl
      exact hfirst (by simp)
    · rintro ⟨name', hname, heq⟩
      have hback := takeWhile_reverse_append name' hdot
      rw [← heq, takeWhile_reverse_append name hafter, List.reverse_inj] at hback
      subst hback
      obtain rfl := List.append_cancel_right heq
      have hnamepos := List.length_pos_iff.2 hname
      have htwo : name ++ dot :: after ≠ [dot, dot] := by
        intro htwo
        have hsame := congrArg List.length htwo
        rw [hlength, List.length_cons, List.length_singleton] at hsame
        omega
      rw [if_neg (by omega), if_neg (by omega), if_neg htwo]
  · refine iff_of_false ?_ ?_
    · have hall : last.reverse.takeWhile (fun u => decide (u ≠ dot)) = last.reverse := by
        refine List.takeWhile_eq_self_iff.2 fun u hu => decide_eq_true fun heq => hmem ?_
        exact heq ▸ List.mem_reverse.1 hu
      rw [hall, List.length_reverse, if_pos rfl]
      exact (List.cons_ne_nil dot w).symm
    · rintro ⟨name, -, rfl⟩
      exact hmem (by simp)

/-- The extension of a resolved path. -/
theorem Resolved.extname_eq_iff (h : Resolved p) {w : Text} (hw : w ≠ []) (hdot : dot ∉ w)
    (hslash : slash ∉ w) : extname p = dot :: w ↔ HasExtension p (dot :: w) := by
  rw [Path.extname_eq_iff hw hdot]
  constructor
  · rintro ⟨name, hname, hbase⟩
    rcases h.cases with rfl | ⟨front, last, rfl, hlast⟩
    · have hnone : basename [slash] = [] := rfl
      rw [hnone] at hbase
      simp at hbase
    · rw [basename_append_slash front hlast.ne_nil hlast.no_slash] at hbase
      refine ⟨front, name, by rw [hbase], hname, fun hmem => hlast.no_slash ?_⟩
      rw [hbase]
      exact List.mem_append_left _ hmem
  · rintro ⟨front, name, rfl, hname, hno⟩
    refine ⟨name, hname, basename_append_slash front (by simp) ?_⟩
    rw [List.mem_append, List.mem_cons, not_or, not_or]
    exact ⟨hno, by decide, hslash⟩

end Path

namespace Tree

open LeaseVec.Path

variable {t : Tree} {p : Text}

/-- There is a file at a path. -/
def HasFile (t : Tree) (p : Text) : Prop := ∃ contents, t.entryAt? p = some (.file contents)

/-- There is a directory at a path. -/
def HasDir (t : Tree) (p : Text) : Prop := t.entryAt? p = some .dir

/-- There is nothing at a path, or it leads nowhere. -/
def Lacks (t : Tree) (p : Text) : Prop := t.entryAt? p = none

/-- What is told of a path is what is there. -/
inductive Tells (t : Tree) (p : Text) : Option Bool → Prop
  | file (h : t.HasFile p) : Tells t p (some false)
  | dir (h : t.HasDir p) : Tells t p (some true)
  | nothing (h : t.Lacks p) : Tells t p none

theorem tells_isDir? (h : endsInSlash p = false) : t.Tells p (t.isDir? p) := by
  unfold isDir?
  cases hplace : t.place p with
  | error e =>
    exact .nothing (by unfold Lacks entryAt?; rw [hplace])
  | ok place =>
    have hentry : t.entryAt? p = place.entry := by
      unfold entryAt?
      rw [hplace]
    have hwants : place.wantsDir = false := by
      rw [place_eq hplace]
      exact h
    simp only
    cases he : place.entry with
    | none => exact .nothing (hentry.trans he)
    | some entry =>
      cases entry with
      | dir => exact .dir (hentry.trans he)
      | file contents =>
        simp only [hwants]
        exact .file ⟨contents, hentry.trans he⟩

/-- The root is a directory, so nothing else is asked of it than of other resolved paths. -/
theorem tells_isDir?_of_resolved (h : Resolved p) : t.Tells p (t.isDir? p) := by
  rcases h.cases with rfl | ⟨front, last, rfl, hlast⟩
  · have hplace : t.place [slash] = .ok ⟨[], some .dir, true⟩ := rfl
    have hdir : t.isDir? [slash] = some true := by
      unfold isDir?
      rw [hplace]
    rw [hdir]
    refine .dir ?_
    unfold HasDir entryAt?
    rw [hplace]
  · apply tells_isDir?
    rw [List.append_cons]
    exact endsInSlash_append _ hlast.ne_nil hlast.no_slash

end Tree

end LeaseVec
