import LeaseVec.Proofs.Files.Names
import LeaseVec.Proofs.Files.Replacing

/-!
# Where a path leads

A path is walked name by name, and the walk goes on through directories only. So where it leads is known
from its text alone, and whether it leads there from the directories on the way.
-/

namespace LeaseVec

namespace Path

open Text.Utf8

/-- One step of a walk. -/
def advance (place : List Text) (segment : Text) : List Text :=
  if segment = [] ∨ segment = [dot] then place
  else if segment = [dot, dot] then place.dropLast
  else place ++ [segment]

/-- Where segments lead from a place on. -/
def walk (start segments : List Text) : List Text := segments.foldl advance start

/-- The segments of a path as the file system takes them. -/
def route (p : Text) : List Text := names (settled p)

/-- The place that a path leads to. -/
def location (p : Text) : List Text := walk [] (route p)

/-- The places of the directories above the target of a path: those that a shorter part of its route leads
to. -/
def Above (p : Text) (place : List Text) : Prop :=
  ∃ before after, route p = before ++ after ∧ after ≠ [] ∧ place = walk [] before

/-- A path without steps in place or upwards. -/
def Plain (p : Text) : Prop := ∀ segment ∈ route p, segment ≠ [dot] ∧ segment ≠ [dot, dot]

/-- A segment that the file system can walk: a step, or a name that is not too long. -/
def Passable (segment : Text) : Prop :=
  segment = [] ∨ segment = [dot] ∨ segment = [dot, dot] ∨ byteLength segment ≤ Tree.nameLimit

theorem walk_nil (start : List Text) : walk start [] = start := rfl

theorem walk_cons (start : List Text) (segment : Text) (rest : List Text) :
    walk start (segment :: rest) = walk (advance start segment) rest := rfl

theorem walk_append (start before after : List Text) :
    walk start (before ++ after) = walk (walk start before) after := List.foldl_append

/-- Names add up. -/
theorem walk_of_plain {segments : List Text}
    (h : ∀ segment ∈ segments, segment ≠ [] ∧ segment ≠ [dot] ∧ segment ≠ [dot, dot])
    (start : List Text) : walk start segments = start ++ segments := by
  induction segments generalizing start with
  | nil => exact (List.append_nil start).symm
  | cons segment rest ih =>
    obtain ⟨hempty, hdot, htwo⟩ := h segment List.mem_cons_self
    have hstep : advance start segment = start ++ [segment] := by
      unfold advance
      rw [if_neg (not_or.2 ⟨hempty, hdot⟩), if_neg htwo]
    rw [walk_cons, hstep, ih fun s hs => h s (List.mem_cons_of_mem _ hs), List.append_assoc]
    rfl

theorem route_eq (p : Text) : route p = (names p).map settled := names_settled p

theorem ne_nil_of_mem_route {p segment : Text} (h : segment ∈ route p) : segment ≠ [] :=
  ne_nil_of_mem_names h

theorem route_dirname (p : Text) : route (dirname p) = (route p).dropLast ∨
    route (dirname p) = [[dot]] ∧ (route p).dropLast = [] := by
  simp only [route_eq, ← List.map_dropLast]
  rcases names_dirname p with h | ⟨h, hnone⟩
  · exact Or.inl (by rw [h])
  · refine Or.inr ⟨?_, by rw [hnone]; rfl⟩
    rw [h]
    decide

theorem settled_ending (name : Text) : settled (name ++ ending) = settled name ++ ending := by
  have hhead : ∀ u ∈ ending.head?, Text.isTrail u = false := by
    intro u hu
    cases hu
    decide
  have hending : settled ending = ending := settled_of_isWellFormed (by decide)
  rw [settled_append hhead, hending]

theorem route_temporary (p : Text) : ∃ before name,
    route (Disk.temporary p) = before ++ [name ++ ending] ∧
      (route p = before ∧ name = [] ∨ route p = before ++ [name] ∧ name ≠ []) := by
  obtain ⟨before, name, htemporary, htarget⟩ := names_temporary p
  refine ⟨before.map settled, settled name, ?_, ?_⟩
  · rw [route_eq, htemporary, List.map_append, List.map_singleton, settled_ending]
  · rcases htarget with ⟨htarget, hname⟩ | ⟨htarget, hname⟩
    · exact Or.inl ⟨by rw [route_eq, htarget], by rw [hname]; rfl⟩
    · refine Or.inr ⟨by rw [route_eq, htarget, List.map_append]; rfl, ?_⟩
      rwa [ne_eq, settled_eq_nil_iff]

theorem advance_ending (place : List Text) (name : Text) :
    advance place (name ++ ending) = place ++ [name ++ ending] := by
  have hlength : 4 ≤ (name ++ ending).length := by
    rw [List.length_append]
    exact Nat.le_add_left 4 name.length
  unfold advance
  split_ifs with hshort htwo
  · rcases hshort with h | h <;> simp [h] at hlength
  · simp [htwo] at hlength
  · rfl

/-- A target and its temporary path never lead to the same place. -/
theorem location_temporary_ne (p : Text) : location (Disk.temporary p) ≠ location p := by
  obtain ⟨before, name, htemporary, htarget⟩ := route_temporary p
  have hplace : location (Disk.temporary p) = walk [] before ++ [name ++ ending] := by
    unfold location
    rw [htemporary, walk_append]
    exact advance_ending _ _
  intro heq
  rw [hplace] at heq
  rcases htarget with ⟨htarget, -⟩ | ⟨htarget, hname⟩
  · have hlength := congrArg List.length heq
    simp only [location, htarget, List.length_append, List.length_singleton] at hlength
    omega
  · have hlast : location p = advance (walk [] before) name := by
      unfold location
      rw [htarget, walk_append]
      rfl
    rw [hlast] at heq
    unfold advance at heq
    split_ifs at heq
    · simpa using congrArg List.length heq
    · have hlength := congrArg List.length heq
      simp only [List.length_append, List.length_singleton, List.length_dropLast] at hlength
      omega
    · have hnames : name ++ ending = name := by simpa using heq
      have hshort : ending = [] := List.append_right_eq_self.1 hnames
      exact absurd hshort (by decide)

/-- The part of a target's route above it is a part of the route of its temporary path. -/
theorem dropLast_route_prefix (p : Text) :
    ∃ after, route (Disk.temporary p) = (route p).dropLast ++ after ∧ after ≠ [] := by
  obtain ⟨before, name, htemporary, htarget⟩ := route_temporary p
  rcases htarget with ⟨htarget, -⟩ | ⟨htarget, -⟩
  · obtain ⟨after, hafter⟩ := List.dropLast_prefix (route p)
    refine ⟨after ++ [name ++ ending], ?_, by simp⟩
    rw [htemporary, ← List.append_assoc, hafter, htarget]
  · refine ⟨[name ++ ending], ?_, by simp⟩
    rw [htemporary, htarget, List.dropLast_concat]

end Path

namespace Tree

open LeaseVec.Path LeaseVec.Text.Utf8

variable {t t' : Tree} {start segments found : List Text}

theorem follow_cons_ok_iff {segment : Text} {rest : List Text} :
    t.follow start (segment :: rest) = .ok found ↔
      t.get? start = some .dir ∧ Passable segment ∧
        t.follow (advance start segment) rest = .ok found := by
  unfold Passable advance
  rw [follow]
  cases hd : t.get? start with
  | none => simp
  | some entry =>
    cases entry with
    | file contents => simp
    | dir =>
      simp only [true_and]
      split_ifs with hstay hup hlong
      · simp [hstay, or_assoc.symm]
      · simp [hup]
      · rw [not_or] at hstay
        simp [hstay, hup, Nat.not_le.2 hlong]
      · rw [not_lt] at hlong
        simp [hlong]

/-- A route is followed exactly when there are directories on the way and no name is too long. -/
theorem follow_ok_iff : t.follow start segments = .ok found ↔ found = walk start segments ∧
    ∀ before segment after, segments = before ++ segment :: after →
      t.get? (walk start before) = some .dir ∧ Passable segment := by
  induction segments generalizing start with
  | nil =>
    rw [follow, Except.ok.injEq, walk_nil]
    constructor
    · rintro rfl
      exact ⟨rfl, fun before segment after h => by simp at h⟩
    · exact fun h => h.1.symm
  | cons segment rest ih =>
    rw [follow_cons_ok_iff, ih, walk_cons]
    constructor
    · rintro ⟨hd, hpass, hfound, hway⟩
      refine ⟨hfound, fun before next after h => ?_⟩
      cases before with
      | nil =>
        rw [List.nil_append, List.cons.injEq] at h
        exact h.1 ▸ ⟨hd, hpass⟩
      | cons first before =>
        rw [List.cons_append, List.cons.injEq] at h
        rw [← h.1]
        exact hway before next after h.2
    · rintro ⟨hfound, hway⟩
      obtain ⟨hd, hpass⟩ := hway [] segment rest rfl
      refine ⟨hd, hpass, hfound, fun before next after h => ?_⟩
      exact hway (segment :: before) next after (h ▸ rfl)

/-- A path that can be followed to its last name. -/
def Leads (t : Tree) (text : Text) : Prop :=
  (∃ taken, pathText text = .ok taken) ∧ t.follow [] (route text) = .ok (location text)

/-- What is at a path, if it leads anywhere. -/
def entryAt? (t : Tree) (text : Text) : Option Entry :=
  match t.place text with
  | .ok p => p.entry
  | .error _ => none

variable {text : Text} {p : Place} {entry : Entry}

theorem pathText_ok_iff {taken : Text} : pathText text = .ok taken ↔
    text.contains 0 = false ∧ byteLength text ≤ pathLimit ∧ taken = settled text := by
  unfold pathText
  split_ifs with hzero hlong
  · exact ⟨fun h => (nomatch h), fun h => absurd (hzero.symm.trans h.1) (by decide)⟩
  · exact ⟨fun h => (nomatch h), fun h => absurd h.2.1 (Nat.not_le.2 hlong)⟩
  · simp only [Except.ok.injEq]
    exact ⟨fun h => ⟨by simpa using hzero, not_lt.1 hlong, h.symm⟩, fun h => h.2.2.symm⟩

theorem place_of_leads (h : t.Leads text) :
    t.place text = .ok ⟨location text, t.get? (location text), endsInSlash text⟩ := by
  obtain ⟨⟨taken, htext⟩, hfollow⟩ := h
  refine Outcome.bind_ok_iff.2 ⟨taken, htext, Outcome.bind_ok_iff.2 ⟨_, ?_, rfl⟩⟩
  rw [(pathText_ok_iff.1 htext).2.2]
  exact hfollow

theorem leads_of_place (h : t.place text = .ok p) : t.Leads text := by
  obtain ⟨taken, htext, h⟩ := Outcome.bind_ok_iff.1 h
  obtain ⟨found, hfound, -⟩ := Outcome.bind_ok_iff.1 h
  rw [(pathText_ok_iff.1 htext).2.2] at hfound
  refine ⟨⟨taken, htext⟩, ?_⟩
  rw [show location text = found from (follow_ok_iff.1 hfound).1.symm]
  exact hfound

theorem place_eq (h : t.place text = .ok p) :
    p = ⟨location text, t.get? (location text), endsInSlash text⟩ := by
  rw [place_of_leads (leads_of_place h)] at h
  exact (Except.ok.inj h).symm

theorem entryAt?_of_leads (h : t.Leads text) : t.entryAt? text = t.get? (location text) := by
  unfold entryAt?
  rw [place_of_leads h]

theorem entryAt?_eq_some_iff :
    t.entryAt? text = some entry ↔ t.Leads text ∧ t.get? (location text) = some entry := by
  constructor
  · intro h
    have hleads : t.Leads text := by
      unfold entryAt? at h
      cases hp : t.place text with
      | ok p => exact leads_of_place hp
      | error e =>
        rw [hp] at h
        cases h
    exact ⟨hleads, entryAt?_of_leads hleads ▸ h⟩
  · rintro ⟨hleads, hentry⟩
    rw [entryAt?_of_leads hleads, hentry]

/-- A path leads where it did as long as the directories above its target are there. -/
theorem Leads.of_above (h : t.Leads text)
    (hdirs : ∀ place, Above text place → t.get? place = some .dir → t'.get? place = some .dir) :
    t'.Leads text := by
  obtain ⟨htext, hfollow⟩ := h
  obtain ⟨hfound, hway⟩ := follow_ok_iff.1 hfollow
  refine ⟨htext, follow_ok_iff.2 ⟨hfound, fun before segment after hroute => ?_⟩⟩
  obtain ⟨hd, hpass⟩ := hway before segment after hroute
  exact ⟨hdirs _ ⟨before, segment :: after, hroute, List.cons_ne_nil _ _, rfl⟩ hd, hpass⟩

theorem Leads.of_keepsDirs (h : t.Leads text) (hkeeps : t.KeepsDirs t') : t'.Leads text :=
  h.of_above fun place _ hd => hkeeps place hd

/-- The directories above the target of a path that leads somewhere. -/
theorem Leads.dir_above (h : t.Leads text) {place : List Text} (hplace : Above text place) :
    t.get? place = some .dir := by
  obtain ⟨before, after, hroute, hafter, rfl⟩ := hplace
  obtain ⟨segment, rest, rfl⟩ := List.exists_cons_of_ne_nil hafter
  exact ((follow_ok_iff.1 h.2).2 before segment rest hroute).1

end Tree

end LeaseVec
