import LeaseVec.Pack.Document
import LeaseVec.Proofs.Outcome
import LeaseVec.Proofs.Scalar.Exact
import Mathlib.Data.Nat.Digits.Defs

/-!
# Values that suit a kind

What the values of a field may be, said without the checks: `Spells` gives decimal texts their numbers, `Denotes`
gives JSON values theirs, and `Suits` says which values an element of a kind can be made from. A value is taken
exactly when it suits the kind, and then the element that is made from it `Keeps` its number. It is the number
itself, or in single precision the nearest one.
-/

namespace LeaseVec.Pack

open Number Number.Binary64

/-- The unit of a decimal digit. -/
def digitUnit (d : Fin 10) : UInt16 := UInt16.ofNat (0x30 + d.val)

/-- The number of decimal digits, the first of them being the highest. -/
def spelled (ds : List (Fin 10)) : Nat := Nat.ofDigits 10 (ds.map (·.val)).reverse

/-- A text spells an integer with decimal digits, after a minus when it is to be negative. -/
inductive Spells : Text → Int → Prop
  | plain (ds : List (Fin 10)) (h : ds ≠ []) : Spells (ds.map digitUnit) (spelled ds)
  | minus (ds : List (Fin 10)) (h : ds ≠ []) : Spells (0x2d :: ds.map digitUnit) (-(spelled ds : Int))

theorem toNat_digitUnit (d : Fin 10) : (digitUnit d).toNat = 0x30 + d.val := by
  unfold digitUnit
  rw [UInt16.toNat_ofNat']
  omega

theorem isDigit_iff {u : UInt16} : (0x30 ≤ u && u ≤ 0x39) = true ↔ ∃ d, digitUnit d = u := by
  have hzero : (0x30 : UInt16).toNat = 0x30 := rfl
  have hnine : (0x39 : UInt16).toNat = 0x39 := rfl
  rw [Bool.and_eq_true, decide_eq_true_iff, decide_eq_true_iff, UInt16.le_iff_toNat_le,
    UInt16.le_iff_toNat_le, hzero, hnine]
  constructor
  · rintro ⟨hge, hle⟩
    refine ⟨⟨u.toNat - 0x30, by omega⟩, UInt16.toNat_inj.1 ?_⟩
    rw [toNat_digitUnit]
    exact Nat.add_sub_cancel' hge
  · rintro ⟨d, rfl⟩
    rw [toNat_digitUnit]
    omega

theorem all_isDigit_iff {t : Text} :
    (t.all fun u => 0x30 ≤ u && u ≤ 0x39) = true ↔ ∃ ds : List (Fin 10), t = ds.map digitUnit := by
  rw [List.all_eq_true]
  constructor
  · intro h
    induction t with
    | nil => exact ⟨[], rfl⟩
    | cons u t ih =>
      obtain ⟨d, hd⟩ := isDigit_iff.1 (h u List.mem_cons_self)
      obtain ⟨ds, hds⟩ := ih fun v hv => h v (List.mem_cons_of_mem _ hv)
      exact ⟨d :: ds, by rw [List.map_cons, hd, hds]⟩
  · rintro ⟨ds, rfl⟩ u hu
    obtain ⟨d, -, hd⟩ := List.mem_map.1 hu
    exact isDigit_iff.2 ⟨d, hd⟩

theorem digitsValue_map (ds : List (Fin 10)) : digitsValue (ds.map digitUnit) = spelled ds := by
  unfold digitsValue spelled
  rw [Nat.ofDigits_eq_foldr, List.foldr_reverse, List.foldl_map, List.foldl_map]
  congr 1
  funext n d
  rw [toNat_digitUnit, Nat.add_sub_cancel_left, Nat.mul_comm, Nat.add_comm]
  rfl

/-- A digit is not a minus. -/
theorem head?_map_digitUnit (ds : List (Fin 10)) : (ds.map digitUnit).head? ≠ some 0x2d := by
  cases ds with
  | nil => simp
  | cons d ds =>
    intro h
    have hunit := congrArg UInt16.toNat (Option.some.inj h)
    rw [toNat_digitUnit] at hunit
    have hminus : (0x2d : UInt16).toNat = 0x2d := rfl
    omega

theorem spells_iff {t : Text} {i : Int} :
    Spells t i ↔ isDecimal t = true ∧ decimalValue t = i := by
  unfold isDecimal decimalValue
  constructor
  · rintro (⟨ds, hds⟩ | ⟨ds, hds⟩)
    · have hhead := head?_map_digitUnit ds
      rw [if_neg hhead, if_neg hhead, digitsValue_map, Bool.and_eq_true, all_isDigit_iff]
      exact ⟨⟨by simpa using hds, ds, rfl⟩, rfl⟩
    · rw [List.head?_cons, if_pos rfl, if_pos rfl, List.drop_one, List.tail_cons,
        digitsValue_map, Bool.and_eq_true, all_isDigit_iff]
      exact ⟨⟨by simpa using hds, ds, rfl⟩, rfl⟩
  · rintro ⟨hdecimal, rfl⟩
    by_cases hhead : t.head? = some 0x2d
    · rw [if_pos hhead, Bool.and_eq_true, all_isDigit_iff] at hdecimal
      obtain ⟨rest, rfl⟩ := List.head?_eq_some_iff.1 hhead
      rw [List.drop_one, List.tail_cons] at hdecimal
      obtain ⟨hne, ds, rfl⟩ := hdecimal
      rw [if_pos hhead, List.drop_one, List.tail_cons, digitsValue_map]
      exact .minus ds (by simpa using hne)
    · rw [if_neg hhead, Bool.and_eq_true, all_isDigit_iff] at hdecimal
      obtain ⟨hne, ds, rfl⟩ := hdecimal
      rw [if_neg hhead, digitsValue_map]
      exact .plain ds (by simpa using hne)

/-- The number that a JSON value is, in smallest steps of double precision. -/
inductive Denotes : Json → Int → Prop
  | number {x : Binary64} {s : Int} (h : x.scaled? = some s) : Denotes (.number x) s
  | decimal {t : Text} {i : Int} (h : Spells t i) : Denotes (.string t) (i * (one : Int))

/-- The integers that an element of an integer kind can be. -/
def InRange : Kind → Int → Prop
  | .u8, i => 0 ≤ i ∧ i ≤ 255
  | .i8, i => -128 ≤ i ∧ i ≤ 127
  | .u16, i => 0 ≤ i ∧ i ≤ 65535
  | .i16, i => -32768 ≤ i ∧ i ≤ 32767
  | .u32, i => 0 ≤ i ∧ i ≤ 4294967295
  | .i32, i => -2147483648 ≤ i ∧ i ≤ 2147483647
  | .u64, i => 0 ≤ i ∧ i ≤ 18446744073709551615
  | .i64, i => -9223372036854775808 ≤ i ∧ i ≤ 9223372036854775807
  | .f32, _ | .f64, _ => False

/-- What an element of a kind can be made from. A number is known to be an integer up to
`9007199254740991` only, so larger integers of the eight-byte kinds are written as decimal texts. -/
inductive Suits : Kind → Json → Prop
  | integer {k : Kind} {x : Binary64} {i : Int} (hk : k.isWide = false)
    (hx : x.scaled? = some (i * (one : Int))) (h : InRange k i) : Suits k (.number x)
  | double {x : Binary64} {s : Int} (hx : x.scaled? = some s) : Suits .f64 (.number x)
  | single {x : Binary64} {s : Int} (hx : x.scaled? = some s)
    (h : s.natAbs ≤ Binary32.largestSteps) : Suits .f32 (.number x)
  | safe {k : Kind} {x : Binary64} {i : Int} (hk : k.isWide = true)
    (hx : x.scaled? = some (i * (one : Int))) (hsafe : i.natAbs ≤ 9007199254740991)
    (h : InRange k i) : Suits k (.number x)
  | decimal {k : Kind} {t : Text} {i : Int} (hk : k.isWide = true) (ht : Spells t i)
    (h : InRange k i) : Suits k (.string t)

/-- An element keeps the number of a value: it is that number, or in single precision the nearest to it. -/
def Keeps (k : Kind) (v : Json) (y : Scalar) : Prop :=
  ∃ s t, Denotes v s ∧ y.scaled? = some t ∧ if k = .f32 then Binary32.Nearest s t else t = s

theorem inRange_iff {k : Kind} (h : k.isFloat = false) {i : Int} :
    InRange k i ↔ ¬ (i < k.range.1 ∨ k.range.2 < i) := by
  rw [not_or, Int.not_lt, Int.not_lt]
  cases k with
  | f32 => cases h
  | f64 => cases h
  | _ => exact Iff.rfl

theorem isFloat_of_inRange {k : Kind} {i : Int} (h : InRange k i) : k.isFloat = false := by
  cases k with
  | f32 => exact h.elim
  | f64 => exact h.elim
  | _ => rfl

theorem isFloat_of_isWide {k : Kind} (h : k.isWide = true) : k.isFloat = false := by
  cases k with
  | i64 => rfl
  | u64 => rfl
  | _ => cases h

theorem wholeValue?_eq_some_iff {v : Json} {i : Int} :
    wholeValue? v = some i ↔
      (∃ x, v = .number x ∧ x.scaled? = some (i * (one : Int)) ∧ i.natAbs ≤ 9007199254740991) ∨
        ∃ t, v = .string t ∧ Spells t i := by
  have hsafe : safeBound = 9007199254740991 := rfl
  cases v with
  | number x =>
    simp only [wholeValue?, Json.number.injEq, exists_eq_left', reduceCtorEq, false_and,
      exists_false, or_false, ← toInt?_eq_some_iff]
    cases x.toInt? with
    | none => simp
    | some j =>
      simp only [Option.some.injEq]
      split_ifs with hj
      · constructor
        · intro h
          cases h
          exact ⟨rfl, by omega⟩
        · rintro ⟨rfl, -⟩
          rfl
      · constructor
        · intro h
          cases h
        · rintro ⟨rfl, h⟩
          omega
  | string t =>
    simp only [wholeValue?, Json.string.injEq, exists_eq_left', reduceCtorEq, false_and, exists_false,
      false_or, spells_iff]
    split_ifs with ht
    · rw [Option.some.injEq, and_iff_right ht]
    · constructor
      · intro h
        cases h
      · rintro ⟨h, -⟩
        exact (ht h).elim
  | _ =>
    constructor
    · intro h
      cases h
    · rintro (⟨x, ⟨⟩, -⟩ | ⟨t, ⟨⟩, -⟩)

theorem wideValue_ok_iff {k : Kind} (hk : k.isWide = true) {field index : Nat} {v : Json} {y : Scalar} :
    wideValue k field index v = .ok y ↔ ∃ i, wholeValue? v = some i ∧ InRange k i ∧ y = .integer i := by
  have hrange := fun i => inRange_iff (isFloat_of_isWide hk) (i := i)
  unfold wideValue
  cases wholeValue? v with
  | none => simp
  | some i =>
    simp only [Option.some.injEq]
    split_ifs with h <;> simp [hrange, h, eq_comm]

theorem isFinite_iff {x : Binary64} : x.isFinite = true ↔ ∃ s, x.scaled? = some s := by
  cases x with
  | nan => simp [isFinite, scaled?]
  | infinite negative => simp [isFinite, scaled?]
  | finite negative code => simp [isFinite, scaled?]

theorem suits_double_iff {x : Binary64} : Suits .f64 (.number x) ↔ x.isFinite = true := by
  rw [isFinite_iff]
  constructor
  · rintro (⟨-, -, ⟨⟩⟩ | ⟨hx⟩ | _ | ⟨⟨⟩, _⟩)
    exact ⟨_, hx⟩
  · rintro ⟨s, hx⟩
    exact .double hx

theorem suits_single_iff {x : Binary64} :
    Suits .f32 (.number x) ↔ x.isFinite = true ∧ Binary32.largest.lt x.abs = false := by
  rw [isFinite_iff]
  constructor
  · rintro (⟨-, -, ⟨⟩⟩ | _ | ⟨hx, hle⟩ | ⟨⟨⟩, _⟩)
    refine ⟨⟨_, hx⟩, ?_⟩
    rw [Binary32.largest_lt_abs hx]
    exact decide_eq_false (Nat.not_lt.2 hle)
  · rintro ⟨⟨s, hx⟩, hle⟩
    rw [Binary32.largest_lt_abs hx] at hle
    exact .single hx (Nat.not_lt.1 (of_decide_eq_false hle))

theorem suits_integer_iff {k : Kind} (hwide : k.isWide = false) (hfloat : k.isFloat = false)
    {x : Binary64} : Suits k (.number x) ↔ ∃ i, x.toInt? = some i ∧ InRange k i := by
  constructor
  · intro h
    cases h with
    | integer _ hx hi => exact ⟨_, toInt?_eq_some_iff.2 hx, hi⟩
    | double _ => cases hfloat
    | single _ _ => cases hfloat
    | safe hk _ _ _ =>
      rw [hwide] at hk
      cases hk
  · rintro ⟨i, hx, hi⟩
    exact .integer hwide (toInt?_eq_some_iff.1 hx) hi

/-- A number is taken as it is when it suits the kind. -/
theorem numberValue_ok_iff {k : Kind} (hk : k.isWide = false) {field index : Nat} {v : Json}
    {y : Scalar} :
    numberValue k field index v = .ok y ↔ Suits k v ∧ ∃ x, v = .number x ∧ y = .number x := by
  cases v with
  | number x =>
    have hout : (∃ x', Json.number x = .number x' ∧ y = .number x') ↔ .number x = y := by
      simp [eq_comm]
    rw [hout]
    cases hf : k.isFloat with
    | true =>
      have hpass : Suits k (.number x) ↔
          ¬ (!x.isFinite || (k = .f32 && Binary32.largest.lt x.abs)) = true := by
        cases k with
        | f32 => simp [suits_single_iff]
        | f64 => simp [suits_double_iff]
        | _ => cases hf
      rw [hpass]
      simp only [numberValue, hf, if_true]
      split_ifs with h <;> simp [h]
    | false =>
      rw [suits_integer_iff hk hf]
      simp only [numberValue, hf, Bool.false_eq_true, if_false]
      cases x.toInt? with
      | none => simp
      | some i =>
        simp only [Option.some.injEq, exists_eq_left', inRange_iff hf]
        split_ifs with h <;> simp [h]
  | null => simp [numberValue]
  | bool b => simp [numberValue]
  | string t => simp [numberValue]
  | array items => simp [numberValue]
  | object members => simp [numberValue]

/-- A value is taken when it suits the kind. -/
theorem value_of_suits {k : Kind} {v : Json} (h : Suits k v) (field index : Nat) :
    ∃ y, value k field index v = .ok y := by
  unfold value
  cases hk : k.isWide with
  | true =>
    rw [if_pos rfl]
    have hwhole : ∃ i, wholeValue? v = some i ∧ InRange k i := by
      cases h with
      | integer hk' _ _ =>
        rw [hk] at hk'
        cases hk'
      | double _ => cases hk
      | single _ _ => cases hk
      | safe _ hx hsafe hi => exact ⟨_, wholeValue?_eq_some_iff.2 (.inl ⟨_, rfl, hx, hsafe⟩), hi⟩
      | decimal _ ht hi => exact ⟨_, wholeValue?_eq_some_iff.2 (.inr ⟨_, rfl, ht⟩), hi⟩
    obtain ⟨i, hi, hrange⟩ := hwhole
    exact ⟨.integer i, (wideValue_ok_iff hk).2 ⟨i, hi, hrange, rfl⟩⟩
  | false =>
    rw [if_neg Bool.false_ne_true]
    have hnumber : ∃ x, v = .number x := by
      cases h with
      | decimal hk' _ _ =>
        rw [hk] at hk'
        cases hk'
      | _ => exact ⟨_, rfl⟩
    obtain ⟨x, rfl⟩ := hnumber
    exact ⟨.number x, (numberValue_ok_iff hk).2 ⟨h, x, rfl, rfl⟩⟩

/-- What is taken suits the kind. -/
theorem suits_of_value {k : Kind} {field index : Nat} {v : Json} {y : Scalar}
    (h : value k field index v = .ok y) : Suits k v := by
  unfold value at h
  cases hk : k.isWide with
  | true =>
    rw [hk, if_pos rfl] at h
    obtain ⟨i, hi, hrange, -⟩ := (wideValue_ok_iff hk).1 h
    rcases wholeValue?_eq_some_iff.1 hi with ⟨x, rfl, hx, hsafe⟩ | ⟨t, rfl, ht⟩
    · exact .safe hk hx hsafe hrange
    · exact .decimal hk ht hrange
  | false =>
    rw [hk, if_neg Bool.false_ne_true] at h
    exact ((numberValue_ok_iff hk).1 h).1

/-- The element that is made from what is taken keeps its number. -/
theorem keeps_of_value {k : Kind} {field index : Nat} {v : Json} {y : Scalar}
    (h : value k field index v = .ok y) : Keeps k v (k.held y) := by
  unfold value at h
  cases hk : k.isWide with
  | true =>
    rw [hk, if_pos rfl] at h
    obtain ⟨i, hi, hrange, rfl⟩ := (wideValue_ok_iff hk).1 h
    have hsingle : k ≠ .f32 := by
      rintro rfl
      cases hk
    rw [inRange_iff (isFloat_of_isWide hk), not_or, Int.not_lt, Int.not_lt] at hrange
    rw [Kind.held_integer_of_range hk hrange.1 hrange.2]
    refine ⟨i * (one : Int), i * (one : Int), ?_, rfl, (if_neg hsingle).mpr rfl⟩
    rcases wholeValue?_eq_some_iff.1 hi with ⟨x, rfl, hx, -⟩ | ⟨t, rfl, ht⟩
    · exact .number hx
    · exact .decimal ht
  | false =>
    rw [hk, if_neg Bool.false_ne_true] at h
    obtain ⟨hsuits, x, rfl, rfl⟩ := (numberValue_ok_iff hk).1 h
    cases hsuits with
    | integer _ hx hi =>
      have hfloat := isFloat_of_inRange hi
      have hsingle : k ≠ .f32 := by
        rintro rfl
        cases hfloat
      rw [inRange_iff hfloat, not_or, Int.not_lt, Int.not_lt] at hi
      obtain ⟨z, hz, hzx⟩ := Kind.held_number_of_range hk hfloat hx hi.1 hi.2
      exact ⟨_, _, .number hx, by rw [hz]; exact hzx, (if_neg hsingle).mpr rfl⟩
    | double hx => exact ⟨_, _, .number hx, by rw [Kind.held_double]; exact hx, rfl⟩
    | single hx hle =>
      obtain ⟨z, t, hz, ht, hnear⟩ := Kind.held_single hx hle
      exact ⟨_, t, .number hx, by rw [hz]; exact ht, hnear⟩
    | safe hk' _ _ _ =>
      rw [hk] at hk'
      cases hk'

theorem values_of_suits {k : Kind} {items : List Json} (h : ∀ v ∈ items, Suits k v)
    (field index : Nat) : ∃ xs, values k field index items = .ok xs := by
  induction items generalizing index with
  | nil => exact ⟨[], rfl⟩
  | cons v items ih =>
    obtain ⟨y, hy⟩ := value_of_suits (h v List.mem_cons_self) field index
    obtain ⟨ys, hys⟩ := ih (fun u hu => h u (List.mem_cons_of_mem _ hu)) (index + 1)
    exact ⟨y :: ys, Outcome.bind_ok_iff.2 ⟨y, hy, Outcome.bind_ok_iff.2 ⟨ys, hys, rfl⟩⟩⟩

theorem suits_and_keeps_of_values {k : Kind} {field index : Nat} {items : List Json} {xs : List Scalar}
    (h : values k field index items = .ok xs) :
    (∀ v ∈ items, Suits k v) ∧ List.Forall₂ (Keeps k) items (xs.map k.held) := by
  induction items generalizing index xs with
  | nil =>
    cases h
    exact ⟨by simp, .nil⟩
  | cons v items ih =>
    obtain ⟨y, hy, h⟩ := Outcome.bind_ok_iff.1 h
    obtain ⟨ys, hys, h⟩ := Outcome.bind_ok_iff.1 h
    cases h
    obtain ⟨hsuits, hkeeps⟩ := ih hys
    exact ⟨List.forall_mem_cons.2 ⟨suits_of_value hy, hsuits⟩, .cons (keeps_of_value hy) hkeeps⟩

end LeaseVec.Pack
