import LeaseVec.Scan
import LeaseVec.Proofs.Memory.Words

/-!
# What scans accept

A scan is described by the parts of the input that it reads: a relation between the offset at which it
stands, its answer, and the bytes that it moves past. The description is exact, so it tells both which
inputs are accepted and what is answered for them. Descriptions of scans one after the other are put
together the way the scans are.
-/

namespace LeaseVec

/-- The host makes a text of the bytes. -/
def Text.Readable (bytes : Bytes) : Prop := (Text.Utf8.dropMark bytes).length ≤ Text.longest

instance (bytes : Bytes) : Decidable (Text.Readable bytes) := inferInstanceAs (Decidable (_ ≤ _))

theorem Text.Utf8.length_le_dropMark (bytes : Bytes) : bytes.length ≤ (dropMark bytes).length + 3 := by
  unfold dropMark
  split_ifs
  · rw [List.length_drop]
    exact Nat.le_add_of_sub_le le_rfl
  · exact Nat.le_add_right _ _

/-- The length of what the host makes a text of fits into a word. -/
theorem Text.Readable.length_lt {bytes : Bytes} (h : Text.Readable bytes) : bytes.length < 2 ^ 32 :=
  (Text.Utf8.length_le_dropMark bytes).trans_lt
    ((Nat.add_le_add_right h 3).trans_lt (by decide))

theorem Text.ofBytes_ok_iff {bytes : Bytes} {t : Text} :
    Text.ofBytes bytes = .ok t ↔ Text.Readable bytes ∧ t = Text.Utf8.decode bytes := by
  unfold Text.ofBytes Text.Readable
  split_ifs with hlong
  · exact ⟨fun h => (nomatch h), fun h => absurd h.1 hlong.not_ge⟩
  · rw [Except.ok.injEq, eq_comm]
    exact (and_iff_right (not_lt.1 hlong)).symm

end LeaseVec

namespace LeaseVec.Scan

variable {α β : Type}

/-- The scan succeeds exactly on input that goes on with one of the given parts, and moves past that
part. -/
def Reads (s : Scan α) (part : Nat → α → Bytes → Prop) : Prop :=
  ∀ (before after : Bytes) (a : α) (offset : Nat),
    s (before ++ after) before.length = .ok a offset ↔
      ∃ p rest, after = p ++ rest ∧ part before.length a p ∧ offset = before.length + p.length

theorem bind_ok {s : Scan α} {f : α → Scan β} {bytes : Bytes} {n m : Nat} {a : α}
    (h : s bytes n = .ok a m) : (s >>= f) bytes n = f a bytes m := by
  change EStateM.bind (s bytes) (fun a => f a bytes) n = _
  unfold EStateM.bind
  rw [h]

theorem bind_error {s : Scan α} {f : α → Scan β} {bytes : Bytes} {n m : Nat} {e : Fault}
    (h : s bytes n = .error e m) : (s >>= f) bytes n = .error e m := by
  change EStateM.bind (s bytes) (fun a => f a bytes) n = _
  unfold EStateM.bind
  rw [h]

theorem bind_ok_iff {s : Scan α} {f : α → Scan β} {bytes : Bytes} {n m : Nat} {b : β} :
    (s >>= f) bytes n = .ok b m ↔ ∃ a k, s bytes n = .ok a k ∧ f a bytes k = .ok b m := by
  constructor
  · intro h
    cases hs : s bytes n with
    | ok a k =>
      rw [bind_ok hs] at h
      exact ⟨a, k, rfl, h⟩
    | error e k =>
      rw [bind_error hs] at h
      cases h
  · rintro ⟨a, k, hs, hf⟩
    rw [bind_ok hs, hf]

theorem bind_error_iff {s : Scan α} {f : α → Scan β} {bytes : Bytes} {n m : Nat} {e : Fault} :
    (s >>= f) bytes n = .error e m ↔
      s bytes n = .error e m ∨ ∃ a k, s bytes n = .ok a k ∧ f a bytes k = .error e m := by
  constructor
  · intro h
    cases hs : s bytes n with
    | ok a k =>
      rw [bind_ok hs] at h
      exact Or.inr ⟨a, k, rfl, h⟩
    | error e' k =>
      rw [bind_error hs] at h
      cases h
      exact Or.inl rfl
  · rintro (hs | ⟨a, k, hs, hf⟩)
    · exact bind_error hs
    · rw [bind_ok hs, hf]

theorem Reads.congr {s : Scan α} {P Q : Nat → α → Bytes → Prop} (h : Reads s P)
    (hpq : ∀ n a p, P n a p ↔ Q n a p) : Reads s Q := by
  intro before after a offset
  rw [h before after a offset]
  simp only [hpq]

/-- A part that is described is read, whatever comes behind it. -/
theorem Reads.ok {s : Scan α} {P : Nat → α → Bytes → Prop} (h : Reads s P) {before p : Bytes} {a : α}
    (hp : P before.length a p) (rest : Bytes) :
    s (before ++ (p ++ rest)) before.length = .ok a (before.length + p.length) :=
  (h before (p ++ rest) a _).2 ⟨p, rest, rfl, hp, rfl⟩

/-- What is answered belongs to a part of the input. -/
theorem Reads.of_ok {s : Scan α} {P : Nat → α → Bytes → Prop} (h : Reads s P) {bytes : Bytes} {n k : Nat}
    {a : α} (hn : n ≤ bytes.length) (hs : s bytes n = .ok a k) : ∃ p, P n a p := by
  have hlength : (bytes.take n).length = n := by
    rw [List.length_take]
    omega
  have hs' : s (bytes.take n ++ bytes.drop n) (bytes.take n).length = .ok a k := by
    rwa [List.take_append_drop, hlength]
  obtain ⟨p, -, -, hp, -⟩ := (h _ _ a k).1 hs'
  rw [hlength] at hp
  exact ⟨p, hp⟩

theorem reads_pure (a : α) : Reads (pure a) fun _ b p => b = a ∧ p = [] := by
  intro before after b offset
  constructor
  · intro h
    cases h
    exact ⟨[], after, rfl, ⟨rfl, rfl⟩, rfl⟩
  · rintro ⟨p, rest, rfl, ⟨rfl, rfl⟩, rfl⟩
    rfl

theorem reads_throw (e : Fault) : Reads (throw e : Scan α) fun _ _ _ => False := by
  intro before after a offset
  constructor
  · intro h
    cases h
  · rintro ⟨p, rest, -, hfalse, -⟩
    exact hfalse.elim

/-- One scan after another reads one part after another. -/
theorem Reads.bind {s : Scan α} {f : α → Scan β} {P : Nat → α → Bytes → Prop}
    {Q : α → Nat → β → Bytes → Prop} (hs : Reads s P) (hf : ∀ a, Reads (f a) (Q a)) :
    Reads (s >>= f) fun n b p =>
      ∃ a x y, p = x ++ y ∧ P n a x ∧ Q a (n + x.length) b y := by
  intro before after b offset
  rw [bind_ok_iff]
  constructor
  · rintro ⟨a, k, h, h'⟩
    obtain ⟨x, rest, rfl, hx, rfl⟩ := (hs before after a k).1 h
    rw [← List.append_assoc, ← List.length_append] at h'
    obtain ⟨y, rest', rfl, hy, rfl⟩ := (hf a (before ++ x) rest b offset).1 h'
    refine ⟨x ++ y, rest', by rw [List.append_assoc], ⟨a, x, y, rfl, hx, ?_⟩, ?_⟩
    · rwa [List.length_append] at hy
    · rw [List.length_append, List.length_append, Nat.add_assoc]
  · rintro ⟨p, rest, rfl, ⟨a, x, y, rfl, hx, hy⟩, rfl⟩
    refine ⟨a, before.length + x.length, ?_, ?_⟩
    · exact (hs before _ a _).2 ⟨x, y ++ rest, by rw [List.append_assoc], hx, rfl⟩
    · have h' := (hf a (before ++ x) (y ++ rest) b (before.length + (x ++ y).length)).2
        ⟨y, rest, rfl, by rwa [List.length_append], by
          rw [List.length_append, List.length_append, Nat.add_assoc]⟩
      rwa [List.length_append, List.append_assoc, ← List.append_assoc x] at h'

theorem skip_eq (n : Nat) (bytes : Bytes) (m : Nat) :
    skip n bytes m =
      if bytes.length - m < n then
        .error (.inputEnds (Number.Binary64.ofNat n) (bytes.length - m)) m
      else .ok m (m + n) := by
  change (if bytes.length - m < n then
      (throw (.inputEnds (Number.Binary64.ofNat n) (bytes.length - m)) : EStateM Fault Nat Nat)
    else do
      set (m + n)
      return m) m = _
  split_ifs <;> rfl

/-- Bytes can only be read where there are some. -/
theorem le_of_word {width : Nat} {bytes : Bytes} {m v k : Nat} (hw : 0 < width)
    (h : word width bytes m = .ok v k) : m + width ≤ bytes.length := by
  unfold word take at h
  obtain ⟨x, k₁, htake, -⟩ := bind_ok_iff.1 h
  obtain ⟨start, k₂, hskip, -⟩ := bind_ok_iff.1 htake
  rw [skip_eq] at hskip
  split_ifs at hskip
  omega

theorem reads_skip (n : Nat) : Reads (skip n) fun m a p => a = m ∧ p.length = n := by
  intro before after a offset
  have hl : (before ++ after).length - before.length = after.length := by
    rw [List.length_append, Nat.add_sub_cancel_left]
  rw [skip_eq, hl]
  split_ifs with h
  · constructor
    · intro he
      cases he
    · rintro ⟨p, rest, rfl, ⟨-, rfl⟩, -⟩
      rw [List.length_append] at h
      omega
  · constructor
    · intro he
      cases he
      refine ⟨after.take n, after.drop n, (List.take_append_drop n after).symm, ⟨rfl, ?_⟩, ?_⟩
      · rw [List.length_take]
        omega
      · rw [List.length_take]
        omega
    · rintro ⟨p, rest, rfl, ⟨rfl, rfl⟩, rfl⟩
      rfl

theorem reads_take (n : Nat) : Reads (take n) fun _ x p => x = p ∧ p.length = n := by
  intro before after x offset
  have hslice : ∀ p rest : Bytes, p.length = n →
      (before ++ (p ++ rest)).slice before.length n = p := by
    rintro p rest rfl
    unfold Bytes.slice
    rw [List.drop_left' rfl, List.take_left' rfl]
  unfold take
  rw [bind_ok_iff]
  constructor
  · rintro ⟨start, k, hs, hx⟩
    obtain ⟨p, rest, rfl, ⟨rfl, hp⟩, rfl⟩ := (reads_skip n before after start k).1 hs
    cases hx
    exact ⟨p, rest, rfl, ⟨hslice p rest hp, hp⟩, rfl⟩
  · rintro ⟨p, rest, rfl, ⟨rfl, hp⟩, rfl⟩
    refine ⟨before.length, before.length + x.length, ?_, ?_⟩
    · exact (reads_skip n before _ _ _).2 ⟨x, rest, rfl, ⟨rfl, hp⟩, rfl⟩
    · change EStateM.Result.ok ((before ++ (x ++ rest)).slice before.length n) _ = _
      rw [hslice x rest hp]

theorem reads_ofExcept (x : Except Fault α) :
    Reads (ofExcept x) fun _ a p => x = .ok a ∧ p = [] := by
  cases x with
  | ok a =>
    refine (reads_pure a).congr fun n b p => ?_
    constructor
    · rintro ⟨rfl, hp⟩
      exact ⟨rfl, hp⟩
    · rintro ⟨hb, hp⟩
      cases hb
      exact ⟨rfl, hp⟩
  | error e =>
    refine (reads_throw e).congr fun n b p => ?_
    constructor
    · intro h
      exact h.elim
    · rintro ⟨h, -⟩
      cases h

/-- A text is read from as many bytes as the host makes one of. -/
theorem reads_text (n : Nat) :
    Reads (text n) fun _ t p => p.length = n ∧ Text.Readable p ∧ t = Text.Utf8.decode p := by
  refine ((reads_take n).bind fun x => reads_ofExcept (Text.ofBytes x)).congr fun m t p => ?_
  constructor
  · rintro ⟨x, a, b, rfl, ⟨rfl, hlen⟩, ht, rfl⟩
    rw [List.append_nil]
    exact ⟨hlen, Text.ofBytes_ok_iff.1 ht⟩
  · rintro ⟨hlen, ht⟩
    exact ⟨p, p, [], (List.append_nil p).symm, ⟨rfl, hlen⟩, Text.ofBytes_ok_iff.2 ht, rfl⟩

/-- A word is read from the bytes that it is written as, and no other number is. -/
theorem reads_word (width : Nat) :
    Reads (word width) fun _ v p => v < 256 ^ width ∧ p = Word.encode width v := by
  refine ((reads_take width).bind fun x => reads_pure (Word.decode x)).congr fun n v p => ?_
  constructor
  · rintro ⟨x, a, b, rfl, ⟨rfl, hlen⟩, rfl, rfl⟩
    rw [List.append_nil, ← hlen]
    exact ⟨Word.decode_lt x, (Word.encode_decode x).symm⟩
  · rintro ⟨hv, rfl⟩
    refine ⟨_, Word.encode width v, [], by rw [List.append_nil], ⟨rfl, Word.length_encode ..⟩, ?_, rfl⟩
    rw [Word.decode_encode_of_lt hv]

theorem reads_u32 : Reads u32 fun _ v p => v < 256 ^ 4 ∧ p = Word.encode 4 v := reads_word 4

theorem reads_u64 : Reads u64 fun _ v p => v < 256 ^ 8 ∧ p = Word.encode 8 v := reads_word 8

/-- Any bytes may stand in the padding. -/
theorem reads_alignTo (n : Nat) : Reads (alignTo n) fun m _ p => p.length = padding n m := by
  intro before after u offset
  have hbind : alignTo n (before ++ after) before.length =
      (skip (padding n before.length) >>= fun _ => pure ()) (before ++ after) before.length := rfl
  rw [hbind, ((reads_skip (padding n before.length)).bind fun _ => reads_pure ()) before after u offset]
  constructor
  · rintro ⟨p, rest, rfl, ⟨a, x, y, rfl, ⟨rfl, hx⟩, -, rfl⟩, rfl⟩
    rw [List.append_nil]
    exact ⟨x, rest, rfl, hx, rfl⟩
  · rintro ⟨p, rest, rfl, hp, rfl⟩
    exact ⟨p, rest, rfl, ⟨before.length, p, [], by rw [List.append_nil], ⟨rfl, hp⟩, rfl, rfl⟩, rfl⟩

/-- A length given as a double is read as the number that it is. -/
theorem skipLength_of_toNat? {x : Number.Binary64} {n : Nat} (h : x.toNat? = some n)
    (bytes : Bytes) (m : Nat) :
    skipLength x bytes m =
      if bytes.length - m < n then .error (.inputEnds x (bytes.length - m)) m
      else .ok m (m + n) := by
  unfold skipLength
  rw [h]
  change (if bytes.length - m < n then throw (Fault.inputEnds x (bytes.length - m))
    else set (m + n) >>= fun _ => pure m : EStateM Fault Nat Nat) m = _
  split_ifs <;> rfl

theorem skipLength_of_none {x : Number.Binary64} (h : x.toNat? = none) (bytes : Bytes) (m : Nat) :
    skipLength x bytes m = .error (.invalidReadLength x) m := by
  unfold skipLength
  rw [h]
  rfl

end LeaseVec.Scan
