import LeaseVec.Proofs.Bundle.Encoding
import LeaseVec.Proofs.Bundle.Refusals
import LeaseVec.Proofs.Ownership.Uniform

/-!
# Bundles that are cut off

What a scan answers depends on no byte that it has not passed, and a scan that would pass more bytes than there
are runs out of input. So wherever an encoded bundle is cut off, decoding goes on as it would with the whole
bundle until it comes to the cut, and there it runs out of input. Only a header that is cut off is noticed
before anything of it is read. No encoded bundle is the start of another.
-/

namespace LeaseVec

open Number Number.Binary64

variable {α β σ : Type}

/-- A step has failed because there was no more input. -/
def InputEnded (r : EStateM.Result Fault σ α) : Prop :=
  ∃ requested remaining s, r = .error (.inputEnds requested remaining) s

namespace Scan

/-- The answer depends on the bytes that are passed only, and where some of those are missing the input has
ended. -/
structure RunsOut (s : Scan α) : Prop where
  le : ∀ {bytes : Bytes} {n m : Nat} {a : α}, s bytes n = .ok a m → n ≤ m
  within : ∀ {bytes more : Bytes} {n m : Nat} {a : α}, s (bytes ++ more) n = .ok a m →
    m ≤ bytes.length → s bytes n = .ok a m
  ends : ∀ {bytes more : Bytes} {n m : Nat} {a : α}, s (bytes ++ more) n = .ok a m →
    n ≤ bytes.length → bytes.length < m → InputEnded (s bytes n)

theorem runsOut_pure (a : α) : RunsOut (pure a) where
  le h := by
    cases h
    exact le_rfl
  within h _ := by
    cases h
    rfl
  ends h hn hm := by
    cases h
    omega

theorem runsOut_throw (e : Fault) : RunsOut (throw e : Scan α) where
  le h := by cases h
  within h _ := by cases h
  ends h _ _ := by cases h

theorem RunsOut.bind {s : Scan α} {f : α → Scan β} (hs : RunsOut s) (hf : ∀ a, RunsOut (f a)) :
    RunsOut (s >>= f) where
  le h := by
    obtain ⟨a, k, hfirst, hrest⟩ := bind_ok_iff.1 h
    exact (hs.le hfirst).trans ((hf a).le hrest)
  within h hm := by
    obtain ⟨a, k, hfirst, hrest⟩ := bind_ok_iff.1 h
    have hk := (hf a).le hrest
    exact bind_ok_iff.2 ⟨a, k, hs.within hfirst (hk.trans hm), (hf a).within hrest hm⟩
  ends {bytes} _ n _ _ h hn hm := by
    obtain ⟨a, k, hfirst, hrest⟩ := bind_ok_iff.1 h
    rcases Nat.lt_or_ge bytes.length k with hcut | hin
    · obtain ⟨requested, remaining, j, hended⟩ := hs.ends hfirst hn hcut
      exact ⟨requested, remaining, j, bind_error hended⟩
    · have hwhole := hs.within hfirst hin
      obtain ⟨requested, remaining, j, hended⟩ := (hf a).ends hrest hin hm
      exact ⟨requested, remaining, j, (bind_ok hwhole).trans hended⟩

theorem RunsOut.check {c : Prop} [Decidable c] {e : Fault} {s : Scan α} (hs : RunsOut s) :
    RunsOut (if c then throw e else s) := by
  split_ifs
  · exact runsOut_throw e
  · exact hs

theorem runsOut_ofExcept (x : Except Fault α) : RunsOut (ofExcept x) := by
  cases x with
  | ok a => exact runsOut_pure a
  | error e => exact runsOut_throw e

/-- A scan that passes bytes, as many as the offset says, and answers what depends on no others. -/
theorem runsOut_of_passes {s : Scan α} {k : Nat → Nat} {x : Nat → Binary64} {g : Bytes → Nat → α}
    (hs : ∀ bytes m, s bytes m = if bytes.length - m < k m then
      .error (.inputEnds (x m) (bytes.length - m)) m else .ok (g bytes m) (m + k m))
    (hg : ∀ bytes more m, m + k m ≤ bytes.length → g (bytes ++ more) m = g bytes m) : RunsOut s where
  le h := by
    rw [hs] at h
    split_ifs at h
    cases h
    omega
  within {bytes more} n _ _ h hm := by
    rw [hs] at h ⊢
    split_ifs at h
    cases h
    rw [if_neg (by omega), hg bytes more n hm]
  ends {bytes more} n _ _ h hn hm := by
    rw [hs] at h ⊢
    split_ifs at h
    cases h
    rw [if_pos (by omega)]
    exact ⟨_, _, _, rfl⟩

theorem runsOut_take (n : Nat) : RunsOut (take n) := by
  refine runsOut_of_passes (k := fun _ => n) (x := fun _ => ofNat n) (g := fun bytes m => bytes.slice m n)
    ?_ ?_
  · intro bytes m
    have hskip := skip_eq n bytes m
    split_ifs at hskip ⊢ with hshort
    · exact bind_error hskip
    · exact bind_ok hskip
  · intro bytes more m hm
    show ((bytes ++ more).drop m).take n = (bytes.drop m).take n
    rw [List.drop_append_of_le_length (by omega), List.take_append_of_le_length (by
      rw [List.length_drop]
      omega)]

theorem runsOut_word (width : Nat) : RunsOut (word width) :=
  (runsOut_take width).bind fun bytes => runsOut_pure (Word.decode bytes)

theorem runsOut_u32 : RunsOut u32 := runsOut_word 4

theorem runsOut_alignTo (n : Nat) : RunsOut (alignTo n) := by
  refine runsOut_of_passes (k := padding n) (x := fun m => ofNat (padding n m)) (g := fun _ _ => ()) ?_
    fun _ _ _ _ => rfl
  intro bytes m
  have hbind : alignTo n bytes m = (skip (padding n m) >>= fun _ => pure ()) bytes m := rfl
  have hskip := skip_eq (padding n m) bytes m
  rw [hbind]
  split_ifs at hskip ⊢ with hshort
  · exact bind_error hskip
  · exact bind_ok hskip

theorem runsOut_text (n : Nat) : RunsOut (text n) := (runsOut_take n).bind fun _ => runsOut_ofExcept _

theorem runsOut_count (bound : Option Scalar) : RunsOut (count bound) :=
  (runsOut_word 8).bind fun _ => runsOut_ofExcept _

/-- What is read from the whole of a part runs out of input where the part is cut off. -/
theorem RunsOut.inputEnded {s : Scan α} {before p q : Bytes} {m : Nat} {a : α} (h : RunsOut s)
    (hs : s (before ++ p) before.length = .ok a m) (hq : q <+: p) (hlt : (before ++ q).length < m) :
    InputEnded (s (before ++ q) before.length) := by
  obtain ⟨t, rfl⟩ := hq
  rw [← List.append_assoc] at hs
  exact h.ends hs (by rw [List.length_append]; omega) hlt

/-- A count and its elements are not found where they are cut off. -/
theorem inputEnded_field {kind : Kind} {stride : Binary64} {s n : Nat} {before payload q : Bytes}
    (hs : Whole stride s) (hlt : s < 2 ^ 32) (hn : n < 2 ^ 40) (hpay : payload.length = n * s * kind.width)
    (hq : q <+: Word.encode 8 n ++ payload) (hcut : q.length < 8 + payload.length)
    (hlen : (before ++ q).length < exactBound) :
    InputEnded (Scan.field kind stride none (before ++ q) before.length) := by
  have hlimit : ∃ limit : Int, corruptFrom none = .ok limit ∧ (n : Int) < limit := by
    have hceiling : (countCeiling : Int) = 2 ^ 40 := by decide
    exact ⟨countCeiling, rfl, by omega⟩
  have hcount : ∀ rest, count none (before ++ (Word.encode 8 n ++ rest)) before.length =
      .ok n (before.length + (Word.encode 8 n).length) := (reads_count none).ok ⟨hlimit, rfl⟩
  rw [field_eq]
  by_cases hshort : q.length < 8
  · have hfull := hcount []
    rw [List.append_nil, Word.length_encode] at hfull
    have hprefix : q <+: Word.encode 8 n :=
      List.prefix_of_prefix_length_le hq (List.prefix_append ..) (by rw [Word.length_encode]; omega)
    obtain ⟨requested, remaining, m, hended⟩ := (runsOut_count none).inputEnded hfull hprefix (by
      rw [List.length_append]
      omega)
    exact ⟨requested, remaining, m, bind_error hended⟩
  · obtain ⟨rest, rfl⟩ := List.prefix_of_prefix_length_le (List.prefix_append ..) hq (by
      rw [Word.length_encode]
      omega)
    obtain ⟨k, hspan⟩ := exists_whole_spanLength kind hs hlt hn.le
    rw [List.length_append, Word.length_encode] at hcut
    simp only [List.length_append, Word.length_encode] at hlen
    have hmissing : rest.length < k :=
      lt_of_whole_spanLength hs hn hspan (by rw [← hpay]; omega) (by omega)
    have hremaining : (before ++ (Word.encode 8 n ++ rest)).length - (before.length + 8) = rest.length := by
      simp only [List.length_append, Word.length_encode]
      omega
    have hskip := skipLength_of_toNat? hspan.toNat? (before ++ (Word.encode 8 n ++ rest)) (before.length + 8)
    rw [hremaining, if_pos hmissing] at hskip
    have hfound := hcount rest
    rw [Word.length_encode] at hfound
    exact ⟨_, _, _, (bind_ok hfound).trans (bind_error hskip)⟩

end Scan

namespace Bundle

open Scan

theorem runsOut_description : RunsOut scanDescription := by
  rw [scanDescription_eq]
  refine runsOut_u32.bind fun length => (runsOut_text length).bind fun name => runsOut_u32.bind fun code => ?_
  cases Kind.ofCode? code with
  | none => exact runsOut_throw _
  | some kind =>
    exact runsOut_u32.bind fun stride => ((runsOut_alignTo fieldAlign).bind fun _ => runsOut_pure _).check

end Bundle

namespace World

open LeaseVec.Bundle

variable {w w' : World} {reader : Nat} {before after q : Bytes}

theorem inputEnded_bind {x : Action α} {f : α → Action β} (h : InputEnded (x w)) :
    InputEnded ((x >>= f) w) := by
  obtain ⟨requested, remaining, w', hx⟩ := h
  exact ⟨requested, remaining, w', Action.bind_error hx⟩

theorem inputEnded_scan {s : Scan α} (h : w.At reader before after)
    (hs : InputEnded (s (before ++ after) before.length)) : InputEnded (scan reader s w) := by
  obtain ⟨requested, remaining, m, hs⟩ := hs
  rw [← h.bytes, ← h.offset] at hs
  exact ⟨requested, remaining, _, scan_error hs⟩

theorem inputEnded_readField {vec s : Nat} {stride : Binary64} {policy : ReadPolicy}
    (h : w.At reader before after) (hs : acceptStride stride = .ok s)
    (hfield : InputEnded (Scan.field (w.vec vec).kind stride policy.bound (before ++ after) before.length)) :
    InputEnded (readField reader vec stride policy w) := by
  rw [readField_eq, hs]
  show InputEnded ((scan reader (Scan.field (w.vec vec).kind stride policy.bound) >>= _) w)
  exact inputEnded_bind (inputEnded_scan h hfield)

/-- A field that is cut off is cut off in its description, or in its count and its elements. -/
theorem inputEnded_decodeField {f : FieldReading} {policy : Policy} (h : w.At reader before q)
    (hf : f.Proper before.length) (hbound : policy.read.bound = none) (hq : q <+: f.bytes)
    (hlt : q.length < f.bytes.length) : InputEnded (decodeField reader policy w) := by
  have hdescription : f.description <+: f.bytes := List.prefix_append ..
  by_cases hcut : q.length < f.description.length
  · rw [decodeField_eq]
    apply inputEnded_bind
    apply inputEnded_scan h
    have hfull := reads_description.ok ⟨f, hf.toDescribed, rfl, rfl⟩ []
    rw [List.append_nil] at hfull
    apply runsOut_description.inputEnded hfull (List.prefix_of_prefix_length_le hq hdescription hcut.le)
    rw [List.length_append]
    omega
  · obtain ⟨q', rfl⟩ := List.prefix_of_prefix_length_le hdescription hq (by omega)
    obtain ⟨w₁, hdecode, -, hat, -, hvec⟩ := decodeField_description policy h hf.toDescribed
    rw [hdecode]
    apply inputEnded_bind
    apply inputEnded_readField hat (acceptStride_ok.2 ⟨whole_stride hf.toDescribed, hf.stride_pos⟩)
    rw [hbound, hvec]
    unfold FieldReading.bytes at hq hlt
    simp only [List.length_append, Word.length_encode] at hlt
    exact Scan.inputEnded_field (whole_stride hf.toDescribed) hf.stride_lt hf.count_lt hf.payload_length
      ((List.prefix_append_right_inj _).1 hq) (by omega) hat.length_lt

theorem inputEnded_decodeFields {fs : List FieldReading} {policy : Policy} (h : w.At reader before q)
    (hl : w.Serves reader policy.read.inPlace) (hf : ProperFrom before.length fs)
    (hbound : policy.read.bound = none) (hq : q <+: fs.flatMap FieldReading.bytes)
    (hlt : q.length < (fs.flatMap FieldReading.bytes).length) :
    InputEnded (decodeFields reader policy fs.length w) := by
  induction fs generalizing w before q with
  | nil => simp at hlt
  | cons f fs ih =>
    rw [List.flatMap_cons] at hq hlt
    rw [List.length_cons, decodeFields_succ]
    have hfirst : f.bytes <+: f.bytes ++ fs.flatMap FieldReading.bytes := List.prefix_append ..
    by_cases hcut : q.length < f.bytes.length
    · exact inputEnded_bind (inputEnded_decodeField h hf.1 hbound
        (List.prefix_of_prefix_length_le hq hfirst hcut.le) hcut)
    · obtain ⟨rest, rfl⟩ := List.prefix_of_prefix_length_le hfirst hq (by omega)
      obtain ⟨field, w₁, hrun, hx, hat, -⟩ := decodeField_ok h hl hf.1 hbound
      have hnext := hf.2
      rw [← List.length_append] at hnext
      rw [List.length_append, List.length_append] at hlt
      rw [Action.bind_ok hrun]
      exact inputEnded_bind (ih hat (hl.extends hx) hnext ((List.prefix_append_right_inj _).1 hq) (by omega))

/-- What comes of a bundle of which only the first `k` bytes are there: a header that is too short, or input that
has ended. -/
def CutOff (k : Nat) (r : EStateM.Result Fault World α) : Prop :=
  if k < headerBytes then ∃ w', r = .error (.headerTooShort k) w' else InputEnded r

/-- Wherever a bundle is cut off, the cut is noticed. -/
theorem cutOff_decode {r : Reading} {policy : Policy} {k : Nat} (h : w.At reader [] (r.bytes.take k))
    (hl : w.Serves reader policy.read.inPlace) (hr : r.Proper) (hbound : policy.read.bound = none)
    (hk : k < r.bytes.length) : CutOff k (Bundle.decode reader policy w) := by
  unfold CutOff
  rw [decode_eq]
  split_ifs with hshort
  · have hlength : ([] ++ r.bytes.take k).length - ([] : Bytes).length = k := by
      rw [List.nil_append, List.length_nil, Nat.sub_zero, List.length_take, Nat.min_eq_left hk.le]
    have hheader := scanHeader_eq ([] ++ r.bytes.take k) ([] : Bytes).length
    rw [hlength, if_pos hshort] at hheader
    rw [← h.bytes, ← h.offset] at hheader
    exact ⟨_, Action.bind_error (scan_error hheader)⟩
  · have hsplit : r.bytes.take k = Reading.header r.fields.length r.spare ++
        (r.fields.flatMap FieldReading.bytes).take (k - headerBytes) := by
      unfold Reading.bytes
      rw [List.take_append, List.take_of_length_le (by rw [Reading.length_header]; omega),
        Reading.length_header]
    unfold Reading.bytes at hk
    rw [List.length_append, Reading.length_header] at hk
    rw [hsplit] at h
    obtain ⟨w₁, hscan, hx, -, hat⟩ := h.scan (reads_header.ok ⟨hr.count_lt, r.spare, hr.spare_lt, rfl⟩ _)
    rw [Action.bind_ok hscan]
    refine inputEnded_decodeFields hat (hl.extends (hx 0)) ?_ hbound (List.take_prefix ..) ?_
    · rw [List.nil_append, Reading.length_header]
      exact hr.fields
    · rw [List.length_take]
      omega

/-- The format has room for the fields: their number, their strides and their counts fit the words they are
written as, and the host makes texts of their names. What their vectors hold is there and of their own kind, as
it always is when no view of another kind is ever attached (`retains_performAll`). -/
structure Representable (w : World) (fields : List Source) : Prop where
  length_lt : fields.length < 2 ^ 32
  readable : ∀ f ∈ fields, Text.Readable (Text.Utf8.encode f.name)
  stride : ∀ f ∈ fields, ∃ s, Whole f.stride s ∧ 1 ≤ s ∧ s < 2 ^ 32 ∧ (w.vec f.vec).size / s < 2 ^ 40
  sound : ∀ f ∈ fields, (w.vec f.vec).Sound w.memory

variable {fields : List Source} {bytes : Bytes}

/-- What has been encoded has strides that divide the numbers of elements, and elements that are there. -/
theorem fitting_of_encode (h : w.Representable fields) (he : Bundle.encode w fields = .ok bytes) :
    ∀ f ∈ fields, w.Fitting f := by
  intro f hf
  have hs := h.sound f hf
  obtain ⟨writer, writer', hwrite⟩ := exists_writeSource_of_encode he f hf
  obtain ⟨view, hview⟩ := viewOf_of_writeField hwrite
  obtain ⟨s, hstride, hpos, hlt, hcount⟩ := h.stride f hf
  exact ⟨h.readable f hf, ⟨s, hstride, hpos, hlt, dvd_of_encode he f hf s hstride, hcount⟩,
    ⟨view, hview, kind_of_viewOf hs hview, length_of_viewOf hview, length_read_of_viewOf hs hview⟩⟩

theorem exists_reading_of_encode (h : w.Representable fields) (he : Bundle.encode w fields = .ok bytes) :
    ∃ r : Reading, r.Proper ∧ r.bytes = bytes := by
  obtain ⟨r, hencode, hr, -⟩ := encode_of_fitting (fitting_of_encode h he) h.length_lt
  rw [he] at hencode
  cases hencode
  exact ⟨r, hr, rfl⟩

theorem Opens.at {shares : Bool} {bytes : Bytes} (h : w.Opens shares bytes reader w') : w'.At reader [] bytes :=
  ⟨h.stands.lt, h.stands.covers, h.stands.short, h.stands.bytes_eq, h.stands.offset_eq⟩

theorem Opens.serves {bytes : Bytes} (h : w.Opens false bytes reader w') (inPlace : Bool) :
    w'.Serves reader inPlace where
  plain := Bool.eq_false_iff.2 fun hs => Bool.false_ne_true (h.runs.class_le hs)
  lends := fun _ => h.runs.lends

/-- Fields that the format has room for are encoded, and the bundle is cut off anywhere. What is left of it, in
whatever world it is found in plain bytes, is refused as a header that is too short or as input that has ended,
whether it is copied or decoded over a region that is opened for it. So no bundle that has been encoded is the
start of another one. -/
theorem cutOff_of_encode (h : w.Representable fields) (he : Bundle.encode w fields = .ok bytes) :
    (∀ (w₂ : World) (source : ByteRange) (label : Text) (policy : Policy) (k : Nat), k < bytes.length →
      w₂.memory.Covers source → (w₂.memory.buffer source.buffer).length < exactBound → source.shares = false →
      w₂.bytes source = bytes.take k → policy.read.bound = none →
      CutOff k (Bundle.decodeCopy source policy w₂) ∧ CutOff k (Bundle.decodeLent source label policy w₂)) ∧
    ∀ (w₂ : World) (fields₂ : List Source) (bytes₂ : Bytes), w₂.Representable fields₂ →
      Bundle.encode w₂ fields₂ = .ok bytes₂ → bytes <+: bytes₂ → bytes = bytes₂ := by
  obtain ⟨r, hr, rfl⟩ := exists_reading_of_encode h he
  constructor
  · intro w₂ source label policy k hk hc hshort hplain hbytes hbound
    constructor
    · obtain ⟨w₃, hnew, hopens⟩ := newReader_opens hc hshort
      rw [hbytes, hplain] at hopens
      rw [decodeCopy_eq, Action.bind_ok hnew]
      exact cutOff_decode hopens.at (hopens.serves _) hr hbound hk
    · obtain ⟨reader, w₃, hnew, hopens⟩ := borrower_opens label hc hshort
      rw [hbytes, hplain] at hopens
      rw [decodeLent_eq, Action.bind_ok hnew]
      exact cutOff_decode hopens.at (hopens.serves _) hr hbound hk
  · rintro w₂ fields₂ bytes₂ h₂ he₂ ⟨rest, hrest⟩
    obtain ⟨r₂, hr₂, rfl⟩ := exists_reading_of_encode h₂ he₂
    have hsame := Reading.unique (x := rest) (y := []) hr hr₂ (by rwa [List.append_nil])
    rw [hsame]

/-- A vector of two elements, and one without elements. -/
def twoVectors : List Command :=
  [.vecOfList .u16 [.number 1, .number 258] false, .newVec .f64 false]

/-- Both vectors, the second under an empty name. -/
def namedAndNameless : List Source := [⟨[97], 0, ofNat 2⟩, ⟨[], 1, ofNat 3⟩]

/-- Bytes and nothing else. -/
def onlyBytes (bytes : Bytes) : World := { (default : World) with memory := ⟨#[bytes], 0, default⟩ }

theorem cutOff_of_encode_twoVectors :
    (empty.performAll twoVectors).2.Representable namedAndNameless ∧
      ∃ bytes, Bundle.encode (empty.performAll twoVectors).2 namedAndNameless = .ok bytes ∧
        bytes.length = 64 ∧ ∀ k < bytes.length,
          CutOff k (Bundle.decodeCopy ⟨0, 0, k, false⟩ {} (onlyBytes (bytes.take k))) ∧
          CutOff k (Bundle.decodeLent ⟨0, 0, k, false⟩ [] {} (onlyBytes (bytes.take k))) := by
  have hnone : ∀ w : World, ∀ r ∈ ([] : List ByteRange), w.memory.Covers r := fun _ _ hr => by cases hr
  have hown : empty.OwnKindAll twoVectors := ⟨hnone _, hnone _, trivial⟩
  have hm : (empty.performAll twoVectors).2.memory.Addressable :=
    Memory.addressable_of_all (by decide +kernel)
  have hu := (retains_performAll hown).uniform hm (uniform_empty _)
  have htwo : Whole (ofNat 2) 2 := whole_ofNat (by decide)
  have hthree : Whole (ofNat 3) 3 := whole_ofNat (by decide)
  have hfields : (empty.performAll twoVectors).2.Representable namedAndNameless := by
    refine ⟨by decide, by decide, ?_, ?_⟩
    · intro f hf
      rcases List.mem_cons.1 hf with rfl | hf
      · refine ⟨2, ?_, by decide, by decide, by decide +kernel⟩
        dsimp only
        exact htwo
      · obtain rfl := List.mem_singleton.1 hf
        refine ⟨3, ?_, by decide, by decide, by decide +kernel⟩
        dsimp only
        exact hthree
    · exact fun f _ => hu.vecs f.vec
  have hlength : ((Bundle.encode (empty.performAll twoVectors).2 namedAndNameless).toOption.map
      List.length) = some 64 := by decide +kernel
  obtain ⟨bytes, hbytes, hcount⟩ := Option.map_eq_some_iff.1 hlength
  have hencode := Outcome.of_toOption hbytes
  refine ⟨hfields, bytes, hencode, hcount, fun k hk => ?_⟩
  have hk' : (bytes.take k).length = k := by
    rw [List.length_take]
    omega
  have hc : (onlyBytes (bytes.take k)).memory.Covers ⟨0, 0, k, false⟩ := by
    refine ⟨Nat.one_pos, ?_⟩
    show 0 + k ≤ (bytes.take k).length
    omega
  have hshort : ((onlyBytes (bytes.take k)).memory.buffer 0).length < exactBound := by
    have hbig : 64 < exactBound := by decide
    show (bytes.take k).length < exactBound
    omega
  have hread : (onlyBytes (bytes.take k)).bytes ⟨0, 0, k, false⟩ = bytes.take k := by
    show ((bytes.take k).drop 0).take k = bytes.take k
    rw [List.drop_zero, List.take_take, Nat.min_self]
  exact (cutOff_of_encode hfields hencode).1 _ ⟨0, 0, k, false⟩ [] {} k hk hc hshort rfl hread rfl

/-- A vector of bytes borrows a view of two 16-bit elements. -/
def borrowedWider : List Command :=
  [.alloc [1, 0, 2, 0], .lend ⟨0, 0, 4, false⟩ [76], .newVec .u8 false, .vec 0 (.attach ⟨.u16, 0, 0, 2, 0⟩ 0)]

/-- Two bytes are counted, and there are four. -/
def widerBundle : Bytes :=
  Reading.header 1 0 ++ (⟨[97], .u8, 1, [0, 0, 0], 2, [1, 0, 2, 0]⟩ : FieldReading).bytes

theorem not_cutOff_of_answer? {k : Nat} {r : EStateM.Result Fault World α} {a : α} (h : answer? r = some a)
    (hk : headerBytes ≤ k) : ¬ CutOff k r := by
  obtain ⟨w', rfl⟩ := exists_of_answer? h
  intro hcut
  unfold CutOff at hcut
  rw [if_neg (by omega)] at hcut
  obtain ⟨requested, remaining, w'', herror⟩ := hcut
  cases herror

/-- Such a vector is encoded, and the bundle can do without its last two bytes: without them it is the bundle of
a vector that has the bytes one and zero. -/
theorem wider_view_hides_cut :
    ((empty.performAll borrowedWider).1.all fun outcome => outcome.toOption.isSome) = true ∧
      Bundle.encode (empty.performAll borrowedWider).2 [⟨[97], 0, ofNat 1⟩] = .ok widerBundle ∧
      widerBundle.length = 44 ∧
      (¬ CutOff 42 (Bundle.decodeCopy ⟨0, 0, 42, false⟩ {} (onlyBytes (widerBundle.take 42))) ∧
        ¬ CutOff 43 (Bundle.decodeCopy ⟨0, 0, 43, false⟩ {} (onlyBytes (widerBundle.take 43)))) ∧
      (¬ CutOff 42 (Bundle.decodeLent ⟨0, 0, 42, false⟩ [] {} (onlyBytes (widerBundle.take 42))) ∧
        ¬ CutOff 43 (Bundle.decodeLent ⟨0, 0, 43, false⟩ [] {} (onlyBytes (widerBundle.take 43)))) ∧
      Bundle.encode (empty.performAll [.vecOfList .u8 [.number 1, .number 0] false]).2 [⟨[97], 0, ofNat 1⟩] =
        .ok (widerBundle.take 42) := by
  refine ⟨by decide +kernel, Outcome.of_toOption (by decide +kernel), by decide, ⟨?_, ?_⟩, ⟨?_, ?_⟩,
    Outcome.of_toOption (by decide +kernel)⟩
  · exact not_cutOff_of_answer? (a := [⟨[97], 1, 0, .owned⟩]) (by decide +kernel) (by decide)
  · exact not_cutOff_of_answer? (a := [⟨[97], 1, 0, .owned⟩]) (by decide +kernel) (by decide)
  · exact not_cutOff_of_answer? (a := [⟨[97], 1, 0, .borrowed⟩]) (by decide +kernel) (by decide)
  · exact not_cutOff_of_answer? (a := [⟨[97], 1, 0, .borrowed⟩]) (by decide +kernel) (by decide)

end World

end LeaseVec
