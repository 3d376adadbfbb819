import LeaseVec.Json.Basic
import Mathlib.Data.List.Induction
import Mathlib.Data.List.Nodup
import Mathlib.Data.Nat.Digits.Defs
import Mathlib.Order.Basic

/-!
# The order of members

Members are collected from entries one after the other. Each name is there once, with the value that was given
last, and the names are in the order of enumeration: those that are array indices in ascending order, then the
others in the order in which they were first given. All of it is kept by one more entry.
-/

namespace LeaseVec.Json

variable {α : Type} {entries members : List (Text × α)} {name n : Text} {value v : α} {i : Nat}

/-- Entries give a name a value, and none behind it gives the name another one. -/
def GivesLast (entries : List (Text × α)) (name : Text) (value : α) : Prop :=
  ∃ before after, entries = before ++ (name, value) :: after ∧ name ∉ after.map Prod.fst

/-- A name is enumerated before another one, when names were added in an order. -/
def Precedes (added : List Text) (a b : Text) : Prop :=
  match arrayIndex? a, arrayIndex? b with
  | some i, some j => i < j
  | some _, none => True
  | none, some _ => False
  | none, none => added.idxOf a < added.idxOf b

/-- Members as they are enumerated: each name once, in order, with the last value of the name. -/
structure Enumerates (entries members : List (Text × α)) : Prop where
  nodup : (members.map Prod.fst).Nodup
  ordered : (members.map Prod.fst).Pairwise (Precedes (entries.map Prod.fst))
  mem_iff : ∀ name value, (name, value) ∈ members ↔ GivesLast entries name value

/-- The digits that a name spells, the last one first. -/
def digits (name : Text) : List Nat := name.reverse.map fun u => u.toNat - 0x30

/-- The name that is spelled by digits is got back from them. -/
theorem map_digits (h : ∀ u ∈ name, 0x30 ≤ u.toNat ∧ u.toNat ≤ 0x39) :
    (digits name).map (fun d => UInt16.ofNat (d + 0x30)) = name.reverse := by
  rw [digits, List.map_map]
  conv_rhs => rw [← List.map_id name.reverse]
  refine List.map_congr_left fun u hu => ?_
  have hbounds := h u (List.mem_reverse.1 hu)
  show UInt16.ofNat (u.toNat - 0x30 + 0x30) = u
  rw [Nat.sub_add_cancel hbounds.1, UInt16.ofNat_toNat]

theorem foldl_eq_ofDigits (name : Text) :
    name.foldl (fun n u => n * 10 + (u.toNat - 0x30)) 0 = Nat.ofDigits 10 (digits name) := by
  rw [Nat.ofDigits_eq_foldr, digits, List.foldr_map, List.foldr_reverse]
  congr 1
  funext n u
  simp
  omega

/-- Digits without a leading zero are the digits of their number. -/
theorem digits_ofDigits {u : UInt16} {rest : Text}
    (h : ∀ v ∈ u :: rest, 0x30 ≤ v.toNat ∧ v.toNat ≤ 0x39) (hne : u ≠ 0x30) :
    Nat.digits 10 (Nat.ofDigits 10 (digits (u :: rest))) = digits (u :: rest) := by
  apply Nat.digits_ofDigits 10 (by decide)
  · intro d hd
    obtain ⟨v, hv, rfl⟩ := List.mem_map.1 hd
    have hbounds := h v (List.mem_reverse.1 hv)
    omega
  · intro hcons
    have hlast : (digits (u :: rest)).getLast hcons = u.toNat - 0x30 := by
      simp [digits]
    have hbounds := h u List.mem_cons_self
    have hu : u.toNat ≠ 0x30 := fun heq => hne (UInt16.toNat_inj.1 heq)
    rw [hlast]
    omega

/-- A name that is an array index is a single zero, or the digits of the index. -/
theorem digits_of_arrayIndex? (h : arrayIndex? name = some i) :
    (∀ u ∈ name, 0x30 ≤ u.toNat ∧ u.toNat ≤ 0x39) ∧
      ((i = 0 ∧ name = [0x30]) ∨ (i ≠ 0 ∧ Nat.digits 10 i = digits name)) := by
  simp only [arrayIndex?] at h
  split_ifs at h with hform hzero hlarge
  obtain rfl := Option.some.inj h
  simp only [Bool.or_eq_true, not_or, Bool.not_eq_true', Bool.not_eq_false] at hform
  obtain ⟨⟨hempty, hdigits⟩, -⟩ := hform
  have hall : ∀ u ∈ name, 0x30 ≤ u.toNat ∧ u.toNat ≤ 0x39 := by
    intro u hu
    have hdigit := List.all_eq_true.1 hdigits u hu
    rw [Bool.and_eq_true, decide_eq_true_eq, decide_eq_true_eq] at hdigit
    exact ⟨UInt16.le_iff_toNat_le.1 hdigit.1, UInt16.le_iff_toNat_le.1 hdigit.2⟩
  refine ⟨hall, ?_⟩
  rw [foldl_eq_ofDigits]
  cases name with
  | nil => exact absurd rfl hempty
  | cons u rest =>
    rcases eq_or_ne u 0x30 with rfl | hne
    · -- a leading zero stands alone
      have hrest : rest = [] := by
        cases rest with
        | nil => rfl
        | cons v rest => simp at hzero
      subst hrest
      exact Or.inl ⟨rfl, rfl⟩
    · have hsame := digits_ofDigits hall hne
      refine Or.inr ⟨fun hz => ?_, hsame⟩
      rw [hz] at hsame
      simp [digits] at hsame

/-- An array index is spelled in one way. -/
theorem arrayIndex?_inj {a b : Text} (ha : arrayIndex? a = some i) (hb : arrayIndex? b = some i) :
    a = b := by
  obtain ⟨halla, ⟨rfl, rfl⟩ | ⟨hi, hda⟩⟩ := digits_of_arrayIndex? ha
  · obtain ⟨-, ⟨-, rfl⟩ | ⟨hi, -⟩⟩ := digits_of_arrayIndex? hb
    · rfl
    · exact absurd rfl hi
  · obtain ⟨hallb, ⟨hz, -⟩ | ⟨-, hdb⟩⟩ := digits_of_arrayIndex? hb
    · exact absurd hz hi
    · rw [← List.reverse_inj, ← map_digits halla, ← map_digits hallb, ← hda, ← hdb]

theorem not_givesLast_nil : ¬ GivesLast [] name value := by
  rintro ⟨before, after, h, -⟩
  exact absurd h (by simp)

/-- One more entry gives its own name its value and leaves the other names. -/
theorem givesLast_concat :
    GivesLast (entries ++ [(n, v)]) name value ↔
      (name = n ∧ value = v) ∨ (name ≠ n ∧ GivesLast entries name value) := by
  constructor
  · rintro ⟨before, after, h, hlast⟩
    rcases List.eq_nil_or_concat after with rfl | ⟨after, last, rfl⟩
    · obtain ⟨-, hpair⟩ := List.append_inj' h rfl
      simp only [List.cons.injEq, Prod.mk.injEq, and_true] at hpair
      exact Or.inl ⟨hpair.1.symm, hpair.2.symm⟩
    · rw [List.concat_eq_append, ← List.cons_append, ← List.append_assoc] at h
      obtain ⟨rfl, hpair⟩ := List.append_inj' h rfl
      obtain rfl : (n, v) = last := by simpa using hpair
      rw [List.concat_eq_append, List.map_append, List.mem_append, not_or] at hlast
      refine Or.inr ⟨fun hn => hlast.2 ?_, before, after, rfl, hlast.1⟩
      simp [hn]
  · rintro (⟨rfl, rfl⟩ | ⟨hne, before, after, rfl, hlast⟩)
    · exact ⟨entries, [], rfl, by simp⟩
    · refine ⟨before, after ++ [(n, v)], by simp, ?_⟩
      rw [List.map_append, List.mem_append, not_or]
      exact ⟨hlast, by simpa using hne⟩

/-- Every name of the entries has a last value. -/
theorem exists_givesLast : (∃ value, GivesLast entries name value) ↔ name ∈ entries.map Prod.fst := by
  constructor
  · rintro ⟨value, before, after, rfl, -⟩
    simp
  · intro h
    induction entries using List.reverseRecOn with
    | nil => simp at h
    | append_singleton entries e ih =>
      obtain ⟨n, v⟩ := e
      rcases eq_or_ne name n with rfl | hne
      · exact ⟨v, givesLast_concat.2 (Or.inl ⟨rfl, rfl⟩)⟩
      · rw [List.map_append, List.mem_append] at h
        obtain ⟨value, hvalue⟩ := ih (h.resolve_right (by simpa using hne))
        exact ⟨value, givesLast_concat.2 (Or.inr ⟨hne, hvalue⟩)⟩

theorem insertNew_perm (name : Text) (value : α) (members : List (Text × α)) :
    (insertNew name value members).Perm ((name, value) :: members) := by
  induction members with
  | nil => exact .refl _
  | cons m rest ih =>
    have hbehind : (m :: insertNew name value rest).Perm ((name, value) :: m :: rest) :=
      (ih.cons m).trans (.swap ..)
    unfold insertNew
    split
    · split_ifs
      · exact .refl _
      · exact hbehind
    · exact .refl _
    · exact hbehind

/-- An array index comes before the larger ones and before all other names. -/
theorem precedes_of_index {added : List Text} {a b : Text} {i : Nat} (ha : arrayIndex? a = some i) :
    Precedes added a b ↔ ∀ j, arrayIndex? b = some j → i < j := by
  unfold Precedes
  rw [ha]
  cases arrayIndex? b <;> simp

/-- A name that is no array index comes only before those that were added after it. -/
theorem precedes_of_name {added : List Text} {a b : Text} (ha : arrayIndex? a = none) :
    Precedes added a b ↔ arrayIndex? b = none ∧ added.idxOf a < added.idxOf b := by
  unfold Precedes
  rw [ha]
  cases arrayIndex? b <;> simp

/-- A name that was added behind all the others is inserted where it belongs. -/
theorem pairwise_insertNew {added : List Text} (name : Text) (value : α)
    (hadded : ∀ m ∈ members, added.idxOf m.1 < added.idxOf name)
    (h : (members.map Prod.fst).Pairwise (Precedes added)) :
    ((insertNew name value members).map Prod.fst).Pairwise (Precedes added) := by
  induction members with
  | nil => exact List.pairwise_singleton ..
  | cons m rest ih =>
    obtain ⟨n, v⟩ := m
    obtain ⟨hhead, htail⟩ := List.pairwise_cons.1 h
    obtain ⟨hn, hrest⟩ := List.forall_mem_cons.1 hadded
    -- either all names are behind the new one, or the first one stays in front
    have hfront : (∀ c, Precedes added n c → Precedes added name c) → Precedes added name n →
        (((name, value) :: (n, v) :: rest).map Prod.fst).Pairwise (Precedes added) := by
      intro htrans hfirst
      refine List.pairwise_cons.2 ⟨?_, h⟩
      intro c hc
      rcases List.mem_cons.1 hc with rfl | hc
      · exact hfirst
      · exact htrans c (hhead c hc)
    have hbehind : Precedes added n name →
        (((n, v) :: insertNew name value rest).map Prod.fst).Pairwise (Precedes added) := by
      intro hfirst
      refine List.pairwise_cons.2 ⟨?_, ih hrest htail⟩
      intro c hc
      rw [((insertNew_perm name value rest).map Prod.fst).mem_iff] at hc
      rcases List.mem_cons.1 hc with rfl | hc
      · exact hfirst
      · exact hhead c hc
    cases hi : arrayIndex? name with
    | none =>
      have hstep : insertNew name value ((n, v) :: rest) = (n, v) :: insertNew name value rest := by
        simp only [insertNew, hi]
      rw [hstep]
      apply hbehind
      cases hj : arrayIndex? n with
      | none => exact (precedes_of_name hj).2 ⟨hi, hn⟩
      | some j => exact (precedes_of_index hj).2 (by simp [hi])
    | some i =>
      cases hj : arrayIndex? n with
      | none =>
        have hstep : insertNew name value ((n, v) :: rest) = (name, value) :: (n, v) :: rest := by
          simp only [insertNew, hi, hj]
        rw [hstep]
        refine hfront (fun c hc => (precedes_of_index hi).2 ?_) ((precedes_of_index hi).2 (by simp [hj]))
        simp [((precedes_of_name hj).1 hc).1]
      | some j =>
        have hstep : insertNew name value ((n, v) :: rest) =
            if i < j then (name, value) :: (n, v) :: rest else (n, v) :: insertNew name value rest := by
          simp only [insertNew, hi, hj]
        rw [hstep]
        split_ifs with hij
        · refine hfront (fun c hc => (precedes_of_index hi).2 ?_) ((precedes_of_index hi).2 (by simp [hj, hij]))
          exact fun k hk => hij.trans ((precedes_of_index hj).1 hc k hk)
        · have hne : j ≠ i := by
            rintro rfl
            exact absurd hn (by rw [arrayIndex?_inj hi hj]; exact Nat.lt_irrefl _)
          exact hbehind ((precedes_of_index hj).2 (by simp [hi]; omega))

theorem collect_concat (entries : List (Text × α)) (n : Text) (v : α) :
    collect (entries ++ [(n, v)]) = put n v (collect entries) := by
  unfold collect
  rw [List.foldl_append]
  rfl

/-- The order of names that were added is not changed by adding one more. -/
theorem precedes_concat {added : List Text} {a b c : Text} (ha : a ∈ added) (hb : b ∈ added) :
    Precedes (added ++ [c]) a b ↔ Precedes added a b := by
  unfold Precedes
  rw [List.idxOf_append_of_mem ha, List.idxOf_append_of_mem hb]

theorem mem_put_of_known (hn : n ∈ members.map Prod.fst) :
    (name, value) ∈ members.map (fun m => if m.1 = n then (m.1, v) else m) ↔
      (name = n ∧ value = v) ∨ (name ≠ n ∧ (name, value) ∈ members) := by
  rw [List.mem_map]
  constructor
  · rintro ⟨m, hm, hpair⟩
    split_ifs at hpair with hname
    · cases hpair
      exact Or.inl ⟨hname, rfl⟩
    · subst hpair
      exact Or.inr ⟨hname, hm⟩
  · rintro (⟨rfl, rfl⟩ | ⟨hne, hm⟩)
    · obtain ⟨m, hm, rfl⟩ := List.mem_map.1 hn
      exact ⟨m, hm, if_pos rfl⟩
    · exact ⟨_, hm, if_neg hne⟩

theorem Enumerates.mem_names (h : Enumerates entries members) :
    name ∈ members.map Prod.fst ↔ name ∈ entries.map Prod.fst := by
  refine Iff.trans ?_ exists_givesLast
  rw [List.mem_map]
  constructor
  · rintro ⟨m, hm, rfl⟩
    exact ⟨m.2, (h.mem_iff _ _).1 hm⟩
  · rintro ⟨value, hvalue⟩
    exact ⟨_, (h.mem_iff _ _).2 hvalue, rfl⟩

/-- The names are still in order when one more was added. -/
theorem Enumerates.ordered_concat (h : Enumerates entries members) (n : Text) :
    (members.map Prod.fst).Pairwise (Precedes (entries.map Prod.fst ++ [n])) := by
  refine h.ordered.imp_of_mem ?_
  intro a b ha hb hab
  exact (precedes_concat (h.mem_names.1 ha) (h.mem_names.1 hb)).2 hab

/-- Putting a member goes with one more entry: a known name keeps its place and takes the value, and a new one
is inserted. -/
theorem Enumerates.put (h : Enumerates entries members) (n : Text) (v : α) :
    Enumerates (entries ++ [(n, v)]) (put n v members) := by
  have hnames : (entries ++ [(n, v)]).map Prod.fst = entries.map Prod.fst ++ [n] := by
    rw [List.map_append]
    rfl
  have hany : members.any (fun m => m.1 = n) = true ↔ n ∈ members.map Prod.fst := by
    simp
  unfold Json.put
  split_ifs with hknown
  · have hn := hany.1 hknown
    have hfst : (members.map fun m => if m.1 = n then (m.1, v) else m).map Prod.fst =
        members.map Prod.fst := by
      rw [List.map_map]
      refine List.map_congr_left fun m hm => ?_
      show (if m.1 = n then (m.1, v) else m).1 = m.1
      split_ifs <;> rfl
    constructor
    · rw [hfst]
      exact h.nodup
    · rw [hfst, hnames]
      exact h.ordered_concat n
    · intro name value
      rw [mem_put_of_known hn, givesLast_concat, h.mem_iff]
  · have hn : n ∉ members.map Prod.fst := fun hmem => hknown (hany.2 hmem)
    have hperm := insertNew_perm n v members
    constructor
    · rw [(hperm.map Prod.fst).nodup_iff]
      exact List.nodup_cons.2 ⟨hn, h.nodup⟩
    · rw [hnames]
      refine pairwise_insertNew n v ?_ (h.ordered_concat n)
      intro m hm
      have hmem := h.mem_names.1 (List.mem_map_of_mem (f := Prod.fst) hm)
      have hnew : n ∉ entries.map Prod.fst := fun hmem' => hn (h.mem_names.2 hmem')
      rw [List.idxOf_append_of_mem hmem, List.idxOf_append_of_notMem hnew]
      exact Nat.lt_add_right _ (List.idxOf_lt_length_of_mem hmem)
    · intro name value
      rw [hperm.mem_iff, List.mem_cons, Prod.mk.injEq, givesLast_concat, h.mem_iff]
      constructor
      · rintro (heq | hgives)
        · exact Or.inl heq
        · refine Or.inr ⟨?_, hgives⟩
          rintro rfl
          exact hn (h.mem_names.2 (exists_givesLast.1 ⟨value, hgives⟩))
      · exact Or.imp_right And.right

/-- The members that are collected are those that the entries enumerate. -/
theorem enumerates_collect (entries : List (Text × α)) : Enumerates entries (collect entries) := by
  induction entries using List.reverseRecOn with
  | nil => exact ⟨List.nodup_nil, .nil, fun _ _ => iff_of_false List.not_mem_nil not_givesLast_nil⟩
  | append_singleton entries e ih =>
    rw [collect_concat]
    exact ih.put e.1 e.2

/-- The value of a name that is there once is found. -/
theorem lookup?_eq_some_iff (h : (members.map Prod.fst).Nodup) :
    lookup? name members = some value ↔ (name, value) ∈ members := by
  unfold lookup?
  rw [Option.map_eq_some_iff]
  constructor
  · rintro ⟨m, hm, rfl⟩
    obtain rfl : m.1 = name := by simpa using List.find?_some hm
    exact List.mem_of_find?_eq_some hm
  · intro hm
    cases hfind : members.find? fun m => m.1 = name with
    | none =>
      rw [List.find?_eq_none] at hfind
      exact absurd (decide_eq_true rfl) (hfind _ hm)
    | some m =>
      have hname : m.1 = name := by simpa using List.find?_some hfind
      have hsame : m = (name, value) :=
        List.inj_on_of_nodup_map h (List.mem_of_find?_eq_some hfind) hm hname
      exact ⟨m, rfl, congrArg Prod.snd hsame⟩

end LeaseVec.Json
