import LeaseVec.Files.Disk
import LeaseVec.Proofs.Text.Utf8
import Mathlib.Data.List.Induction
import Mathlib.Data.List.TakeWhile
import Mathlib.Order.Basic

/-!
# What a path says

The file system walks the segments of a path that are not empty. This module says what they are for the
directory above a path and for its temporary path, before and after lone surrogates are replaced.
-/

namespace LeaseVec

namespace Text.Utf8

/-- Texts side by side are read side by side unless the cut goes through a pair. -/
theorem scalars_append {a b : Text} (h : ∀ u ∈ b.head?, isTrail u = false) :
    scalars (a ++ b) = scalars a ++ scalars b := by
  fun_induction scalars a with
  | case1 => rfl
  | case2 u =>
    cases b with
    | nil => rfl
    | cons v b =>
      have hv : isTrail v = false := h v rfl
      simp [scalars, hv]
  | case3 u v rest hpair ih =>
    rw [List.cons_append, List.cons_append, scalars, if_pos hpair, ih]
    rfl
  | case4 u v rest hpair ih =>
    rw [List.cons_append, List.cons_append, scalars, if_neg hpair]
    exact congrArg _ ih

theorem settled_append {a b : Text} (h : ∀ u ∈ b.head?, isTrail u = false) :
    settled (a ++ b) = settled a ++ settled b := by
  unfold settled
  rw [scalars_append h, List.flatMap_append]

theorem settled_cons {u : UInt16} (hlead : isLead u = false) (htrail : isTrail u = false) (t : Text) :
    settled (u :: t) = u :: settled t := by
  have hu : settled [u] = [u] := by
    unfold settled scalars
    simp [hlead, htrail, ofScalar_toNat]
  cases t with
  | nil => exact hu
  | cons v t =>
    unfold settled
    rw [scalars, hlead, htrail]
    simp [ofScalar_toNat]

/-- Settling a text brings in nothing but the replacement character. -/
theorem mem_settled {a : Text} {u : UInt16} (h : u ∈ settled a) : u ∈ a ∨ u = 0xfffd := by
  unfold settled at h
  have hreplacement : ofScalar replacement = [0xfffd] := by decide
  have hone : ∀ v : UInt16, u ∈ ofScalar (if isLead v || isTrail v then replacement else v.toNat) →
      u = v ∨ u = 0xfffd := by
    intro v hv
    split_ifs at hv
    · rw [hreplacement, List.mem_singleton] at hv
      exact Or.inr hv
    · rw [ofScalar_toNat, List.mem_singleton] at hv
      exact Or.inl hv
  fun_induction scalars a with
  | case1 => exact absurd h List.not_mem_nil
  | case2 v =>
    rw [List.flatMap_singleton] at h
    exact (hone v h).imp_left List.mem_singleton.2
  | case3 v w rest hpair ih =>
    rw [Bool.and_eq_true] at hpair
    rw [List.flatMap_cons, ofScalar_pair hpair.1 hpair.2, List.mem_append] at h
    rcases h with h | h
    · exact Or.inl (List.mem_append_left rest h)
    · exact (ih h).imp_left fun hu => List.mem_cons_of_mem _ (List.mem_cons_of_mem _ hu)
  | case4 v w rest hpair ih =>
    rw [List.flatMap_cons, List.mem_append] at h
    rcases h with h | h
    · exact (hone v h).imp_left fun hv => List.mem_cons.2 (Or.inl hv)
    · exact (ih h).imp_left fun hu => List.mem_cons_of_mem _ hu

theorem settled_eq_nil_iff {a : Text} : settled a = [] ↔ a = [] := by
  rw [← List.length_eq_zero_iff, length_settled, List.length_eq_zero_iff]

theorem length_encodeScalar_single (u : UInt16) :
    (encodeScalar (if isLead u || isTrail u then replacement else u.toNat)).length ≤ 3 := by
  have hu : (if isLead u || isTrail u then replacement else u.toNat) < 0x10000 := by
    split_ifs
    · decide
    · exact u.toNat_lt
  unfold encodeScalar
  split_ifs <;> simp_all

theorem length_encodeScalar_pair (u v : UInt16) : (encodeScalar (pairScalar u v)).length = 4 := by
  have hbig : 0x10000 ≤ pairScalar u v := by
    unfold pairScalar
    omega
  unfold encodeScalar
  rw [if_neg (by omega), if_neg (by omega), if_neg (by omega)]
  rfl

/-- More text has more bytes, also where the cut goes through a pair. -/
theorem byteLength_le_append (a b : Text) : byteLength a ≤ byteLength (a ++ b) := by
  unfold byteLength encode
  fun_induction scalars a with
  | case1 => exact Nat.zero_le _
  | case2 u =>
    cases b with
    | nil => exact le_rfl
    | cons v b =>
      have hone := length_encodeScalar_single u
      have htwo := length_encodeScalar_pair u v
      rw [List.cons_append, List.nil_append, scalars]
      by_cases hpair : (isLead u && isTrail v) = true
      · rw [if_pos hpair]
        simp only [List.flatMap_cons, List.flatMap_nil, List.length_append, List.length_nil]
        omega
      · rw [if_neg hpair]
        simp only [List.flatMap_cons, List.flatMap_nil, List.length_append, List.length_nil]
        omega
  | case3 u v rest hpair ih =>
    rw [List.cons_append, List.cons_append, scalars, if_pos hpair]
    simp only [List.flatMap_cons, List.length_append]
    omega
  | case4 u v rest hpair ih =>
    rw [List.cons_append, List.cons_append, scalars, if_neg hpair]
    rw [List.cons_append] at ih
    simp only [List.flatMap_cons, List.length_append]
    omega

end Text.Utf8

namespace Path

open Text Text.Utf8

theorem split_ne_nil (p : Text) : split p ≠ [] := by
  unfold split
  split
  · simp
  · split
    · simp
    · split <;> simp

theorem split_cons (u : UInt16) (p : Text) :
    split (u :: p) =
      if u = slash then [] :: split p
      else (u :: (split p).head (split_ne_nil p)) :: (split p).tail := by
  rw [split]
  split
  · rename_i h
    exact absurd h (split_ne_nil p)
  · rename_i segment more h
    simp [h]

theorem split_of_not_mem {p : Text} (h : slash ∉ p) : split p = [p] := by
  induction p with
  | nil => rfl
  | cons u p ih =>
    rw [List.mem_cons, not_or] at h
    rw [split_cons, if_neg (Ne.symm h.1)]
    simp [ih h.2]

theorem split_append_slash (a b : Text) : split (a ++ slash :: b) = split a ++ split b := by
  induction a with
  | nil => rw [List.nil_append, split_cons, if_pos rfl]; rfl
  | cons u a ih =>
    rw [List.cons_append, split_cons, split_cons]
    split_ifs with hu
    · rw [ih]
      rfl
    · obtain ⟨segment, more, hs⟩ := List.exists_cons_of_ne_nil (split_ne_nil a)
      simp [ih, hs]

theorem names_append_slash (a b : Text) : names (a ++ slash :: b) = names a ++ names b := by
  unfold names
  rw [split_append_slash, List.filter_append]

theorem names_nil : names [] = [] := rfl

theorem names_of_not_mem {p : Text} (h : slash ∉ p) (hp : p ≠ []) : names p = [p] := by
  unfold names
  rw [split_of_not_mem h]
  simp [hp]

theorem ne_nil_of_mem_names {p name : Text} (h : name ∈ names p) : name ≠ [] := by
  simpa using (List.mem_filter.1 h).2

/-- Settling a path settles its segments: a slash is no half of a pair. -/
theorem split_settled (p : Text) : split (settled p) = (split p).map settled := by
  by_cases h : slash ∈ p
  case neg =>
    have hs : slash ∉ settled p := by
      intro hs
      rcases mem_settled hs with hp | hp
      · exact h hp
      · exact absurd hp (by decide)
    rw [split_of_not_mem h, split_of_not_mem hs]
    rfl
  case pos =>
    obtain ⟨a, b, rfl, ha⟩ := List.eq_append_cons_of_mem h
    have hslash : settled (slash :: b) = slash :: settled b := settled_cons (by decide) (by decide) b
    have hhead : ∀ u ∈ (slash :: b).head?, isTrail u = false := by
      intro u hu
      cases hu
      decide
    rw [settled_append hhead, hslash, split_append_slash, split_append_slash, List.map_append,
      split_settled a, split_settled b]
termination_by p.length
decreasing_by
  all_goals
    subst_vars
    simp only [List.length_append, List.length_cons]
    omega

theorem names_settled (p : Text) : names (settled p) = (names p).map settled := by
  unfold names
  rw [split_settled, List.filter_map]
  congr 2
  funext segment
  simp [settled_eq_nil_iff]

/-- A path taken apart as `dirname` does: up to the last name, the name, and the slashes behind it. -/
theorem exists_parts (p : Text) : ∃ base name tail, p = base ++ name ++ tail ∧
    (∀ u ∈ tail, u = slash) ∧ slash ∉ name ∧ (name = [] → base = []) ∧
    (trimmed p).dropWhile (· ≠ slash) = base.reverse := by
  have htail : p = (trimmed p).reverse ++ (p.reverse.takeWhile (· = slash)).reverse := by
    have h := congrArg List.reverse (List.takeWhile_append_dropWhile (p := (· = slash)) (l := p.reverse))
    rw [List.reverse_append, List.reverse_reverse] at h
    exact h.symm
  have hname : (trimmed p).reverse =
      ((trimmed p).dropWhile (· ≠ slash)).reverse ++ ((trimmed p).takeWhile (· ≠ slash)).reverse := by
    rw [← List.reverse_append, List.takeWhile_append_dropWhile]
  refine ⟨((trimmed p).dropWhile (· ≠ slash)).reverse, ((trimmed p).takeWhile (· ≠ slash)).reverse,
    (p.reverse.takeWhile (· = slash)).reverse, ?_, ?_, ?_, ?_, (List.reverse_reverse _).symm⟩
  · rw [← hname]
    exact htail
  · intro u hu
    simpa using List.mem_takeWhile_imp (List.mem_reverse.1 hu)
  · intro hu
    simpa using List.mem_takeWhile_imp (List.mem_reverse.1 hu)
  · -- what is trimmed does not start with a slash, so without a name there is nothing
    intro hnone
    have hnot : ∀ u ∈ (trimmed p).head?, u ≠ slash := by
      intro u hu
      have h := List.head?_dropWhile_not (· = slash) p.reverse
      unfold trimmed at hu
      rw [Option.mem_def.1 hu] at h
      simpa using h
    cases ht : trimmed p with
    | nil => rfl
    | cons u rest =>
      have hu : u ≠ slash := hnot u (by rw [ht]; rfl)
      rw [ht] at hnone
      simp [hu] at hnone

theorem names_of_slashes {tail : Text} (h : ∀ u ∈ tail, u = slash) : names tail = [] := by
  induction tail with
  | nil => rfl
  | cons u tail ih =>
    rw [h u List.mem_cons_self, ← List.nil_append (slash :: tail), names_append_slash,
      ih fun v hv => h v (List.mem_cons_of_mem u hv)]
    rfl

theorem names_append_slashes (p : Text) {tail : Text} (h : ∀ u ∈ tail, u = slash) :
    names (p ++ tail) = names p := by
  cases tail with
  | nil => rw [List.append_nil]
  | cons u tail =>
    rw [h u List.mem_cons_self, names_append_slash,
      names_of_slashes fun v hv => h v (List.mem_cons_of_mem u hv), List.append_nil]

/-- What is left of a list from its first slash on, if anything, starts with that slash. -/
theorem dropWhile_slash {r : Text} {u : UInt16} {rest : Text}
    (h : r.dropWhile (· ≠ slash) = u :: rest) : u = slash := by
  have hhead := List.head?_dropWhile_not (· ≠ slash) r
  rw [h] at hhead
  simpa using hhead

/-- What `dirname` gives: the part before the last name without its last slash, unless only slashes would
be left. -/
theorem dirname_cases (p : Text) : ∃ base name tail, p = base ++ name ++ tail ∧
    (∀ u ∈ tail, u = slash) ∧ slash ∉ name ∧
    (base = [] ∧ dirname p = [dot] ∨ base = [] ∧ dirname p = [slash] ∧ p.head? = some slash ∨
      name ≠ [] ∧ ∃ front, base = front ++ [slash] ∧ (dirname p = front ∨ dirname p = base)) := by
  obtain ⟨base, name, tail, hp, htail, hname, hbase, hbefore⟩ := exists_parts p
  refine ⟨base, name, tail, hp, htail, hname, ?_⟩
  unfold dirname
  rw [hbefore]
  by_cases hempty : p = []
  · rw [hempty] at hp
    have hb : base = [] := (List.append_eq_nil_iff.1 (List.append_eq_nil_iff.1 hp.symm).1).1
    exact Or.inl ⟨hb, if_pos hempty⟩
  · rw [if_neg hempty]
    cases hr : base.reverse with
    | nil =>
      have hb : base = [] := List.reverse_eq_nil_iff.1 hr
      by_cases habsolute : isAbsolute p = true
      · exact Or.inr (Or.inl ⟨hb, if_pos habsolute, by simpa [isAbsolute] using habsolute⟩)
      · exact Or.inl ⟨hb, if_neg habsolute⟩
    | cons u rest =>
      have hu : u = slash := dropWhile_slash (hbefore.trans hr)
      have hb : base = rest.reverse ++ [slash] := by
        rw [← List.reverse_reverse base, hr, List.reverse_cons, hu]
      have hn : name ≠ [] := by
        intro hn
        simp [hbase hn] at hr
      refine Or.inr (Or.inr ⟨hn, rest.reverse, hb, ?_⟩)
      simp only
      split_ifs with hnil hslash
      · exact Or.inr (by rw [hb, hnil]; rfl)
      · exact Or.inr (by rw [hb, hslash]; rfl)
      · exact Or.inl rfl

/-- The directory above a path says all that the path says but its last name. Where nothing is left it
says the root or the working directory. -/
theorem names_dirname (p : Text) : names (dirname p) = (names p).dropLast ∨
    names (dirname p) = [[dot]] ∧ (names p).dropLast = [] := by
  obtain ⟨base, name, tail, hp, htail, hname, hcases⟩ := dirname_cases p
  have hnames : names p = names (base ++ name) := by
    rw [hp, names_append_slashes _ htail]
  have hnone : base = [] → (names p).dropLast = [] := by
    intro hb
    rw [hnames, hb, List.nil_append]
    by_cases hn : name = []
    · rw [hn]
      rfl
    · rw [names_of_not_mem hname hn]
      rfl
  rcases hcases with ⟨hb, hdot⟩ | ⟨hb, hroot, -⟩ | ⟨hn, front, hb, hfront⟩
  · exact Or.inr ⟨by rw [hdot]; decide, hnone hb⟩
  · exact Or.inl (by rw [hroot, hnone hb]; decide)
  · have hdrop : (names p).dropLast = names front := by
      rw [hnames, hb, List.append_assoc, List.singleton_append, names_append_slash,
        names_of_not_mem hname hn, List.dropLast_concat]
    left
    rw [hdrop]
    rcases hfront with hfront | hfront
    · rw [hfront]
    · rw [hfront, hb, names_append_slash, names_nil, List.append_nil]

/-- The directory above a path is the front of its text, or the working directory. -/
theorem dirname_prefix (p : Text) : dirname p <+: p ∨ dirname p = [dot] := by
  obtain ⟨base, name, tail, hp, -, -, hcases⟩ := dirname_cases p
  have hbase : base <+: p := hp ▸ (List.prefix_append base name).trans (List.prefix_append _ tail)
  rcases hcases with ⟨-, hdot⟩ | ⟨-, hroot, hhead⟩ | ⟨-, front, hb, hfront⟩
  · exact Or.inr hdot
  · obtain ⟨rest, hrest⟩ := List.head?_eq_some_iff.1 hhead
    exact Or.inl (hroot ▸ ⟨rest, hrest.symm⟩)
  · left
    rcases hfront with hfront | hfront
    · rw [hfront]
      exact (hb ▸ List.prefix_append front [slash]).trans hbase
    · rw [hfront]
      exact hbase

/-- A path taken apart behind its last slash. -/
theorem exists_last (p : Text) : ∃ base name, p = base ++ name ∧ slash ∉ name ∧
    ∀ q, names (base ++ q) = names base ++ names q := by
  induction p using List.reverseRecOn with
  | nil => exact ⟨[], [], rfl, List.not_mem_nil, fun q => rfl⟩
  | append_singleton p u ih =>
    by_cases hu : u = slash
    · refine ⟨p ++ [u], [], (List.append_nil _).symm, List.not_mem_nil, fun q => ?_⟩
      rw [hu, List.append_assoc, List.singleton_append, names_append_slash, names_append_slash,
        names_nil, List.append_nil]
    · obtain ⟨base, name, hp, hname, hbase⟩ := ih
      refine ⟨base, name ++ [u], by rw [hp, List.append_assoc], ?_, hbase⟩
      rw [List.mem_append, List.mem_singleton]
      rintro (h | h)
      · exact hname h
      · exact hu h.symm

/-- The ending of a temporary name. -/
def ending : Text := Text.ofString ".tmp"

/-- The temporary path says a longer last name, or one more name behind a slash. -/
theorem names_temporary (p : Text) : ∃ before name,
    names (Disk.temporary p) = before ++ [name ++ ending] ∧
      (names p = before ∧ name = [] ∨ names p = before ++ [name] ∧ name ≠ []) := by
  obtain ⟨base, name, hp, hname, hbase⟩ := exists_last p
  have hending : slash ∉ ending := by decide
  have hlong : name ++ ending ≠ [] := List.append_ne_nil_of_right_ne_nil _ (by decide)
  have htemporary : Disk.temporary p = base ++ (name ++ ending) := by
    rw [hp]
    exact List.append_assoc _ _ _
  refine ⟨names base, name, ?_, ?_⟩
  · rw [htemporary, hbase, names_of_not_mem _ hlong]
    rw [List.mem_append]
    exact fun h => h.elim hname hending
  · by_cases hn : name = []
    · exact Or.inl ⟨by rw [hp, hn, List.append_nil], hn⟩
    · exact Or.inr ⟨by rw [hp, hbase, names_of_not_mem hname hn], hn⟩

end Path

end LeaseVec
