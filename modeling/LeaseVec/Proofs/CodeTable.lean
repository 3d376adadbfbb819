import LeaseVec.CodeTable
import LeaseVec.Proofs.Json.Members
import LeaseVec.Proofs.Number.Whole
import Mathlib.Data.List.Pairwise

/-!
# Codes and names

A table is accepted when no two of its names have the same code, and then naming a code and coding a name undo
each other. While a table is checked the names that have been seen have different codes, so the first name that
shares its code with one before it shares it with only one.
-/

namespace LeaseVec

open Number

namespace Number.Binary64

/-- No finite value is at the place of the infinities. -/
theorem units_lt_beyond (c : Fin 9218868437227405312) : ((Grid.units 52 c.val : Nat) : Int) < beyond := by
  have hparts : codeBound = 2046 * 2 ^ 52 + 2 ^ 52 := by decide
  have hlt : Grid.units 52 c.val < Nat.pow 2 2100 := by
    have hend : Grid.units 52 c.val < Grid.units 52 codeBound := Grid.units_strictMono 52 c.isLt
    rw [hparts, Grid.units_parts (by decide) (Or.inr le_rfl)] at hend
    refine hend.trans ?_
    -- the powers are never evaluated
    generalize hf : 2046 = f
    generalize hg : 2100 = g
    rw [Nat.pow_eq, ← Nat.pow_add]
    exact Nat.pow_lt_pow_right (by decide) (by omega)
  unfold beyond
  exact Int.ofNat_lt.2 hlt

theorem isZero_finite {s : Bool} {c : Fin 9218868437227405312} :
    (finite s c).isZero = true ↔ Grid.units 52 c.val = 0 := by
  have hzero : Grid.units 52 0 = 0 := Grid.units_of_lt (by decide)
  rw [← hzero, (Grid.units_strictMono 52).injective.eq_iff]
  exact decide_eq_true_iff

/-- Keys are equal when they are the same double, or both are zeros. -/
theorem sameKey_iff {x y : Binary64} :
    x.sameKey y = true ↔ x = y ∨ (x.isZero = true ∧ y.isZero = true) := by
  have hbeyond : (0 : Int) < beyond := (Int.natCast_nonneg _).trans_lt (units_lt_beyond 0)
  cases x with
  | nan => cases y <;> simp [sameKey, position?, scaled?, isZero]
  | infinite s =>
    cases y with
    | nan => simp [sameKey, position?, isZero]
    | infinite t => cases s <;> cases t <;> simp [sameKey, position?, isZero] <;> omega
    | finite t d =>
      have hd := units_lt_beyond d
      cases s <;> cases t <;> simp [sameKey, position?, scaled?, isZero] <;> omega
  | finite s c =>
    have hc := units_lt_beyond c
    cases y with
    | nan =>
      have hnan : nan.isZero = false := rfl
      simp [sameKey, position?, scaled?, hnan]
    | infinite t => cases s <;> cases t <;> simp [sameKey, position?, scaled?, isZero] <;> omega
    | finite t d =>
      have hsame : Grid.units 52 c.val = Grid.units 52 d.val ↔ c = d := by
        rw [(Grid.units_strictMono 52).injective.eq_iff, Fin.val_inj]
      rw [isZero_finite, isZero_finite, Binary64.finite.injEq, ← hsame]
      -- the same sign leaves the magnitudes, and opposite signs leave only the zeros
      cases s <;> cases t <;> simp [sameKey, position?, scaled?] <;> omega

end Number.Binary64

/-- Codes are the same as keys: the zeros are one code, and NaN is a code like any other. -/
def SameCode (x y : Binary64) : Prop := x = y ∨ (x.isZero = true ∧ y.isZero = true)

theorem SameCode.refl (x : Binary64) : SameCode x x := Or.inl rfl

theorem SameCode.symm {x y : Binary64} (h : SameCode x y) : SameCode y x :=
  h.imp Eq.symm And.symm

theorem SameCode.trans {x y z : Binary64} (h : SameCode x y) (h' : SameCode y z) : SameCode x z := by
  rcases h with rfl | ⟨hx, hy⟩
  · exact h'
  · rcases h' with rfl | ⟨-, hz⟩
    · exact Or.inr ⟨hx, hy⟩
    · exact Or.inr ⟨hx, hz⟩

namespace CodeTable

variable {members seen rest : List (Text × Binary64)} {name : Text} {code : Binary64}
  {earlier later earlier' later' : Text × Binary64} {t : CodeTable}

/-- No two members have the same code. -/
def Distinct (members : List (Text × Binary64)) : Prop :=
  members.Pairwise fun a b => ¬ SameCode a.2 b.2

/-- The first member whose code occurs before it, and the member that has it there. -/
def FirstClash (members : List (Text × Binary64)) (earlier later : Text × Binary64) : Prop :=
  ∃ before after, members = before ++ later :: after ∧ Distinct before ∧ earlier ∈ before ∧
    SameCode earlier.2 later.2

instance : Std.Symm fun a b : Text × Binary64 => ¬ SameCode a.2 b.2 where
  symm _ _ h hs := h hs.symm

theorem Distinct.eq_of_same {a b : Text × Binary64} (h : Distinct members) (ha : a ∈ members)
    (hb : b ∈ members) (hsame : SameCode a.2 b.2) : a = b := by
  by_contra hne
  exact h.forall ha hb hne hsame

theorem FirstClash.not_distinct (h : FirstClash members earlier later) : ¬ Distinct members := by
  obtain ⟨before, after, rfl, -, hearlier, hsame⟩ := h
  intro hd
  exact (List.pairwise_append.1 hd).2.2 earlier hearlier later List.mem_cons_self hsame

/-- Members without a clash do not reach past one. -/
theorem length_le_of_clash {before after before' after' : List (Text × Binary64)}
    (h : before ++ later :: after = before' ++ later' :: after') (hd : Distinct before')
    (hearlier : earlier ∈ before) (hsame : SameCode earlier.2 later.2) : before'.length ≤ before.length := by
  rcases List.append_eq_append_iff.1 h with ⟨x, rfl, hx⟩ | ⟨x, rfl, -⟩
  · cases x with
    | nil => rw [List.append_nil]
    | cons m x =>
      obtain ⟨rfl, -⟩ := List.cons.inj hx
      exact absurd hsame ((List.pairwise_append.1 hd).2.2 earlier hearlier later List.mem_cons_self)
  · rw [List.length_append]
    exact Nat.le_add_right ..

/-- There is one first clash. -/
theorem FirstClash.unique (h : FirstClash members earlier later) (h' : FirstClash members earlier' later') :
    earlier = earlier' ∧ later = later' := by
  obtain ⟨before, after, rfl, hd, hearlier, hsame⟩ := h
  obtain ⟨before', after', hsplit, hd', hearlier', hsame'⟩ := h'
  have hlength : before.length = before'.length :=
    Nat.le_antisymm (length_le_of_clash hsplit.symm hd hearlier' hsame')
      (length_le_of_clash hsplit hd' hearlier hsame)
  obtain ⟨rfl, htail⟩ := List.append_inj hsplit hlength
  obtain ⟨rfl, -⟩ := List.cons.inj htail
  exact ⟨hd.eq_of_same hearlier hearlier' (hsame.trans hsame'.symm), rfl⟩

theorem nameOf?_eq_none_iff :
    nameOf? members code = none ↔ ∀ m ∈ members, ¬ SameCode m.2 code := by
  unfold nameOf?
  rw [Option.map_eq_none_iff, List.find?_eq_none]
  refine forall₂_congr fun m _ => not_congr ?_
  exact Binary64.sameKey_iff

theorem exists_of_nameOf?_eq_some (h : nameOf? members code = some name) :
    ∃ c, (name, c) ∈ members ∧ SameCode c code := by
  obtain ⟨m, hm, rfl⟩ := Option.map_eq_some_iff.1 h
  have hkey := List.find?_some hm
  exact ⟨m.2, List.mem_of_find?_eq_some hm, Binary64.sameKey_iff.1 hkey⟩

/-- Among different codes the name is the one whose code it is. -/
theorem nameOf?_eq_some_iff (hd : Distinct members) :
    nameOf? members code = some name ↔ ∃ c, (name, c) ∈ members ∧ SameCode c code := by
  refine ⟨exists_of_nameOf?_eq_some, ?_⟩
  rintro ⟨c, hc, hsame⟩
  cases h : nameOf? members code with
  | none => exact absurd hsame (nameOf?_eq_none_iff.1 h _ hc)
  | some found =>
    obtain ⟨c', hc', hsame'⟩ := exists_of_nameOf?_eq_some h
    have heq := hd.eq_of_same hc' hc (hsame'.trans hsame.symm)
    exact congrArg (fun m => some m.1) heq

/-- Either all codes are different, or the check ends at the first clash. The codes that have been seen are
different. -/
theorem check_cases (rest : List (Text × Binary64)) (hd : Distinct seen) :
    (Distinct (seen ++ rest) ∧ check seen rest = .ok ⟨seen ++ rest⟩) ∨
    ∃ earlier later, FirstClash (seen ++ rest) earlier later ∧
      check seen rest = .error (.duplicateCode later.2 later.1 earlier.1) := by
  induction rest generalizing seen with
  | nil =>
    rw [List.append_nil]
    exact Or.inl ⟨hd, rfl⟩
  | cons m rest ih =>
    obtain ⟨name, code⟩ := m
    cases h : nameOf? seen code with
    | some first =>
      obtain ⟨c, hc, hsame⟩ := (nameOf?_eq_some_iff hd).1 h
      refine Or.inr ⟨(first, c), (name, code), ⟨seen, rest, rfl, hd, hc, hsame⟩, ?_⟩
      simp only [check, h]
    | none =>
      have hnew := nameOf?_eq_none_iff.1 h
      have hd' : Distinct (seen ++ [(name, code)]) := by
        refine List.pairwise_append.2 ⟨hd, List.pairwise_singleton .., ?_⟩
        intro m hm m' hm'
        rw [List.mem_singleton.1 hm']
        exact hnew m hm
      have hstep : check seen ((name, code) :: rest) = check (seen ++ [(name, code)]) rest := by
        simp only [check, h]
      rw [hstep, List.append_cons]
      exact ih hd'

/-- A table is accepted as it is, when all codes are different. -/
theorem check_eq_ok_iff : check [] members = .ok t ↔ Distinct members ∧ t = ⟨members⟩ := by
  have hnone : Distinct ([] : List (Text × Binary64)) := .nil
  rcases check_cases members hnone with ⟨hd, hok⟩ | ⟨earlier, later, hclash, herror⟩
  · rw [List.nil_append] at hd hok
    rw [hok]
    constructor
    · rintro ⟨⟩
      exact ⟨hd, rfl⟩
    · rintro ⟨-, rfl⟩
      rfl
  · rw [herror]
    refine iff_of_false (by rintro ⟨⟩) ?_
    rintro ⟨hd, -⟩
    exact hclash.not_distinct hd

/-- A table is refused for its first clash. -/
theorem check_eq_error_iff {fault : Fault} :
    check [] members = .error fault ↔ ∃ earlier later, FirstClash members earlier later ∧
      fault = .duplicateCode later.2 later.1 earlier.1 := by
  have hnone : Distinct ([] : List (Text × Binary64)) := .nil
  rcases check_cases members hnone with ⟨hd, hok⟩ | ⟨earlier, later, hclash, herror⟩
  · rw [List.nil_append] at hd hok
    rw [hok]
    refine iff_of_false (by rintro ⟨⟩) ?_
    rintro ⟨earlier, later, hclash, -⟩
    exact hclash.not_distinct hd
  · rw [herror]
    constructor
    · rintro ⟨⟩
      exact ⟨earlier, later, hclash, rfl⟩
    · rintro ⟨earlier', later', hclash', rfl⟩
      obtain ⟨rfl, rfl⟩ := hclash.unique hclash'
      rfl

/-- A table and the members that it was made of undo each other. -/
structure Inverts (t : CodeTable) (members : List (Text × Binary64)) : Prop where
  encode_eq : ∀ name code, t.encode? name = some code ↔ (name, code) ∈ members
  decode_encode : ∀ name code, t.encode? name = some code → t.decode code = .ok name
  encode_decode : ∀ code name, t.decode code = .ok name →
    ∃ code', t.encode? name = some code' ∧ SameCode code' code
  unsupported_iff : ∀ code fault, t.decode code = .error fault ↔
    fault = .unsupportedCode code ∧ ∀ m ∈ members, ¬ SameCode m.2 code

theorem decode_eq_ok_iff : t.decode code = .ok name ↔ nameOf? t.entries code = some name := by
  unfold decode
  cases nameOf? t.entries code <;> simp

theorem decode_eq_error_iff {fault : Fault} :
    t.decode code = .error fault ↔ fault = .unsupportedCode code ∧ nameOf? t.entries code = none := by
  unfold decode
  cases nameOf? t.entries code <;> simp [eq_comm]

theorem inverts_of_distinct (hn : (members.map Prod.fst).Nodup) (hd : Distinct members) :
    Inverts ⟨members⟩ members where
  encode_eq _ _ := Json.lookup?_eq_some_iff hn
  decode_encode name code h := by
    rw [decode_eq_ok_iff, nameOf?_eq_some_iff hd]
    exact ⟨code, (Json.lookup?_eq_some_iff hn).1 h, .refl code⟩
  encode_decode code name h := by
    rw [decode_eq_ok_iff, nameOf?_eq_some_iff hd] at h
    obtain ⟨code', hmem, hsame⟩ := h
    exact ⟨code', (Json.lookup?_eq_some_iff hn).2 hmem, hsame⟩
  unsupported_iff code fault := by
    rw [decode_eq_error_iff, nameOf?_eq_none_iff]

/-- The members of a table have different codes when different names do. -/
theorem distinct_iff (hn : (members.map Prod.fst).Nodup) :
    Distinct members ↔ ∀ a ∈ members, ∀ b ∈ members, SameCode a.2 b.2 → a.1 = b.1 := by
  constructor
  · intro hd a ha b hb hsame
    rw [hd.eq_of_same ha hb hsame]
  · intro h
    refine (List.Nodup.of_map _ hn).pairwise_of_forall_ne fun a ha b hb hne hsame => hne ?_
    exact List.inj_on_of_nodup_map hn ha hb (h a ha b hb hsame)

/-- Tables are bijections. The members of a table are in the order in which names are enumerated. It is refused
exactly when two names have the same code, for the first clash in that order, and the fault tells the later and
the earlier name of that clash. Otherwise names and codes undo each other, and exactly the codes that no name has
are unsupported. -/
theorem ofList_inverts (entries : List (Text × Binary64)) :
    ∃ members, Json.Enumerates entries members ∧
      (∀ fault, ofList entries = .error fault ↔ ∃ earlier later, FirstClash members earlier later ∧
        fault = .duplicateCode later.2 later.1 earlier.1) ∧
      ((∃ fault, ofList entries = .error fault) ↔
        ∃ a ∈ members, ∃ b ∈ members, a.1 ≠ b.1 ∧ SameCode a.2 b.2) ∧
      ∀ t, ofList entries = .ok t → t.Inverts members := by
  have henum := Json.enumerates_collect entries
  have hrefused : (∃ fault, ofList entries = .error fault) ↔ ¬ Distinct (Json.collect entries) := by
    cases h : ofList entries with
    | ok t => exact iff_of_false (by rintro ⟨fault, ⟨⟩⟩) (not_not_intro (check_eq_ok_iff.1 h).1)
    | error fault =>
      obtain ⟨earlier, later, hclash, -⟩ := check_eq_error_iff.1 h
      exact iff_of_true ⟨fault, rfl⟩ hclash.not_distinct
  refine ⟨_, henum, fun fault => check_eq_error_iff, ?_, ?_⟩
  · rw [hrefused, distinct_iff henum.nodup]
    push Not
    simp only [and_comm]
  · intro t ht
    obtain ⟨hd, rfl⟩ := check_eq_ok_iff.1 ht
    exact inverts_of_distinct henum.nodup hd

end CodeTable

end LeaseVec
