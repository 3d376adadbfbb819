import LeaseVec.Proofs.Lists.Represents

/-!
# What a step leaves as it was

A step touches a few owners and spares the rest: it leaves alone their entries in the tables, their storage
and every byte that is nobody's storage. The vectors, arrays and walks that are spared go on representing
the same lists, because their elements lie elsewhere.
-/

namespace LeaseVec.World

open Number

variable {w w' w'' : World} {s s' : Plain} {id : Nat}

/-- No region begins or ends, and no byte changes that is nobody's storage. -/
structure Undisturbed (w w' : World) : Prop where
  regions : w'.regions = w.regions
  foreign : ∀ b, w.Foreign b → w'.Foreign b
  buffer : ∀ b, w.Foreign b → w'.memory.buffer b = w.memory.buffer b

theorem Undisturbed.trans (h : w.Undisturbed w') (h' : w'.Undisturbed w'') : w.Undisturbed w'' where
  regions := h'.regions.trans h.regions
  foreign := fun b hb => h'.foreign b (h.foreign b hb)
  buffer := fun b hb => (h'.buffer b (h.foreign b hb)).trans (h.buffer b hb)

/-- A step that touches these owners at most. -/
structure Spares (w w' : World) (touched : Owner → Prop) : Prop where
  undisturbed : w.Undisturbed w'
  size_le : w.vecs.size ≤ w'.vecs.size
  vec : ∀ j, ¬ touched (.vec j) → w'.vec j = w.vec j
  array : ∀ j, ¬ touched (.array j) → w'.arrays[j]? = w.arrays[j]?
  buffer : ∀ o a, ¬ touched o → w.storage? o = some a →
    w'.memory.buffer a.buffer = w.memory.buffer a.buffer

variable {touched touched' : Owner → Prop}

theorem Spares.mono (h : w.Spares w' touched) (ht : ∀ o, touched o → touched' o) :
    w.Spares w' touched' where
  undisturbed := h.undisturbed
  size_le := h.size_le
  vec := fun j hj => h.vec j fun ho => hj (ht _ ho)
  array := fun j hj => h.array j fun ho => hj (ht _ ho)
  buffer := fun o a ho => h.buffer o a fun hto => ho (ht _ hto)

theorem Spares.storage?_eq (h : w.Spares w' touched) {o : Owner} (ho : ¬ touched o) :
    w'.storage? o = w.storage? o := by
  cases o with
  | vec j =>
    simp only [storage?]
    rw [h.vec j ho]
  | array j => exact h.array j ho

theorem Spares.trans (h : w.Spares w' touched) (h' : w'.Spares w'' touched) :
    w.Spares w'' touched where
  undisturbed := h.undisturbed.trans h'.undisturbed
  size_le := h.size_le.trans h'.size_le
  vec := fun j hj => (h'.vec j hj).trans (h.vec j hj)
  array := fun j hj => (h'.array j hj).trans (h.array j hj)
  buffer := by
    intro o a ho ha
    rw [h'.buffer o a ho ((h.storage?_eq ho).trans ha)]
    exact h.buffer o a ho ha

theorem Places.spares {o : Owner} {a : Growable} (h : w.Places w' o a) (he : w.Exclusive)
    (hr : w'.regions = w.regions) (hsize : w.vecs.size ≤ w'.vecs.size)
    (hvec : ∀ j, Owner.vec j ≠ o → w'.vec j = w.vec j)
    (harray : ∀ j, Owner.array j ≠ o → w'.arrays[j]? = w.arrays[j]?) : w.Spares w' (· = o) where
  undisturbed :=
    ⟨hr, fun _ hb => h.foreign hb, fun _ hb => h.renews.buffer_eq hb.lt fun c hc => hb.ne o c hc⟩
  size_le := hsize
  vec := hvec
  array := harray
  buffer := by
    intro q b hq hb
    refine h.renews.buffer_eq (he.stored q b hb) fun c hc heq => hq ?_
    exact he.apart q o b c hb hc heq.symm

/-- The tables of vectors and arrays change at the owners that are touched, and memory does not. -/
theorem spares_of_memory_eq (hm : w'.memory = w.memory) (hr : w'.regions = w.regions)
    (hsize : w.vecs.size ≤ w'.vecs.size) (hf : ∀ b, w.Foreign b → w'.Foreign b)
    (hvec : ∀ j, ¬ touched (.vec j) → w'.vec j = w.vec j)
    (harray : ∀ j, ¬ touched (.array j) → w'.arrays[j]? = w.arrays[j]?) :
    w.Spares w' touched where
  undisturbed := ⟨hr, hf, fun b _ => by rw [hm]⟩
  size_le := hsize
  vec := hvec
  array := harray
  buffer := fun _ _ _ _ => by rw [hm]

theorem IsVec.of_spares {j : Nat} {p : PlainVec} (h : w.IsVec (w.vec j) p) (he : w.Exclusive)
    (hs : w.Spares w' touched) (hj : ¬ touched (.vec j)) : w'.IsVec (w'.vec j) p := by
  have hv := hs.vec j hj
  have hcontents : w'.contents (.vec j) = w.contents (.vec j) := by
    refine contents_vec_congr hv (fun _ _ _ => ?_) fun b hb => ?_
    · unfold region
      rw [hs.undisturbed.regions]
    · cases hb with
      | stored o a ha => exact hs.buffer _ a hj ha
      | borrowed id view reg hh => exact hs.undisturbed.buffer _ (he.lent _ (.borrowed j view reg hh))
  have hitems : w'.elements (w'.vec j) = .ok p.items := hcontents.trans h.items
  rw [hv] at hitems ⊢
  exact ⟨h.kind, h.checked, h.mode, hitems, h.borrowed⟩

theorem IsArray.of_spares {j : Nat} {p : PlainArray} (h : w.IsArray (w.array j) p)
    (hs : w.Spares w' touched) (hj : ¬ touched (.array j)) : w'.IsArray (w'.array j) p := by
  have ha := hs.array j hj
  have hcontents : w'.contents (.array j) = w.contents (.array j) := by
    refine contents_array_congr ha fun b hb => ?_
    cases hb with
    | stored o a ha => exact hs.buffer _ a hj ha
  have harray : w'.array j = w.array j := by
    unfold array
    rw [Array.getD_eq_getD_getElem?, Array.getD_eq_getD_getElem?, ha]
  have hitems : (w'.array j).toList w'.memory = (w.array j).toList w.memory :=
    Except.ok.inj hcontents
  refine ⟨?_, ?_⟩
  · rw [harray]
    exact h.kind
  · rw [hitems]
    exact h.items

/-- A settled view goes on showing the same. -/
theorem Settled.of_spares {vec : Nat} {view : View} (h : w.Settled vec view)
    (hs : w.Spares w' touched) (hv : ¬ touched (.vec vec)) :
    w'.Settled vec view ∧ w'.memory.elements view = w.memory.elements view := by
  rcases h with hz | hf | ⟨a, ha, heq⟩
  · refine ⟨Or.inl hz, ?_⟩
    unfold Memory.elements Memory.words
    rw [hz]
    rfl
  · exact ⟨Or.inr (Or.inl (hs.undisturbed.foreign _ hf)),
      Memory.elements_congr (hs.undisturbed.buffer _ hf)⟩
  · refine ⟨Or.inr (Or.inr ⟨a, (hs.storage?_eq hv).trans ha, heq⟩), Memory.elements_congr ?_⟩
    rw [← heq]
    exact hs.buffer _ a hv ha

/-- Only a walk that is running minds what happens to its vector. -/
theorem IsWalk.of_spares {i : Iteration} {p : PlainWalk} (h : w.IsWalk s i p)
    (hs : w.Spares w' touched) (hv : ∀ vec position, p = .running vec position →
      ¬ touched (.vec vec) ∧ s'.vec vec = s.vec vec) : w'.IsWalk s' i p := by
  cases i with
  | fresh vec => cases p <;> exact h
  | finished vec => cases p <;> exact h
  | running vec view position =>
    cases p with
    | fresh vec' => exact h
    | finished vec' => exact h
    | stale vec' => exact h
    | running vec' position' =>
      obtain ⟨rfl, rfl, hlt, hshow, hsettled⟩ := h
      obtain ⟨ht, hsame⟩ := hv vec position rfl
      obtain ⟨hsettled', hshow'⟩ := hsettled.of_spares hs ht
      exact ⟨rfl, rfl, hlt.trans_le hs.size_le, by rw [hshow', hshow, hsame], hsettled'⟩

theorem IsWalk.disturb {i : Iteration} {p : PlainWalk} (h : w.IsWalk s i p) (id : Nat) :
    w.IsWalk s i (p.disturb id) := by
  cases p with
  | fresh vec => exact h
  | stale vec => exact h
  | finished vec => exact h
  | running vec position =>
    unfold PlainWalk.disturb
    simp only
    split_ifs
    · cases i with
      | fresh vec' => exact h
      | finished vec' => exact h
      | running vec' view position' => exact h.1
    · exact h

theorem vec_ne_of_disturb {p : PlainWalk} {id vec position : Nat}
    (h : p.disturb id = .running vec position) : vec ≠ id := by
  cases p with
  | fresh vec' => cases h
  | stale vec' => cases h
  | finished vec' => cases h
  | running vec' position' =>
    unfold PlainWalk.disturb at h
    simp only at h
    split_ifs at h with he
    cases h
    exact he

/-- The lists of what is spared stay; what is touched has to be looked at. -/
theorem Represents.of_spares (h : w.Represents s) (he : w.Exclusive) (hs : w.Spares w' touched)
    (hvecCount : w'.vecs.size = s'.vecCount)
    (hvec : ∀ j, touched (.vec j) → w'.IsVec (w'.vec j) (s'.vec j))
    (hvec' : ∀ j, ¬ touched (.vec j) → s'.vec j = s.vec j)
    (harrayCount : w'.arrays.size = s'.arrayCount)
    (harray : ∀ j, touched (.array j) → w'.IsArray (w'.array j) (s'.array j))
    (harray' : ∀ j, ¬ touched (.array j) → s'.array j = s.array j)
    (hwalks : w'.iterations = w.iterations) (hwalkCount : s'.walkCount = s.walkCount)
    (hwalk : ∀ j, w.IsWalk s (w.iteration j) (s'.walk j))
    (hrun : ∀ j vec position, s'.walk j = .running vec position → ¬ touched (.vec vec)) :
    w'.Represents s' where
  vecCount := hvecCount
  vec := by
    intro j
    by_cases hj : touched (.vec j)
    · exact hvec j hj
    · rw [hvec' j hj]
      exact (h.vec j).of_spares he hs hj
  arrayCount := harrayCount
  array := by
    intro j
    by_cases hj : touched (.array j)
    · exact harray j hj
    · rw [harray' j hj]
      exact (h.array j).of_spares hs hj
  walkCount := by rw [hwalks, hwalkCount, h.walkCount]
  walk := by
    intro j
    have hsame : w'.iteration j = w.iteration j := by
      unfold iteration
      rw [hwalks]
    rw [hsame]
    refine (hwalk j).of_spares hs fun vec position hp => ?_
    have ht := hrun j vec position hp
    exact ⟨ht, hvec' vec ht⟩

/-- A step that touches one vector at most changes one list. -/
theorem Represents.changeVec (h : w.Represents s) (he : w.Exclusive)
    (hs : w.Spares w' (· = .vec id)) (hvecs : w'.vecs.size = w.vecs.size)
    (harrays : w'.arrays = w.arrays) (hwalks : w'.iterations = w.iterations) {p : PlainVec}
    (hp : w'.IsVec (w'.vec id) p) : w'.Represents (s.changeVec id p) := by
  refine h.of_spares he hs (hvecs.trans h.vecCount) (fun j hj => ?_) (fun j hj => ?_) ?_
    (fun j hj => ?_) (fun _ _ => rfl) hwalks rfl (fun j => (h.walk j).disturb id)
    fun j vec position hrun => ?_
  · cases hj
    change w'.IsVec (w'.vec id) (Function.update s.vec id p id)
    rwa [Function.update_self]
  · exact Function.update_of_ne (fun heq => hj (by rw [heq])) ..
  · rw [harrays]
    exact h.arrayCount
  · cases hj
  · simpa using vec_ne_of_disturb hrun

/-- A step that touches one array at most changes one list. -/
theorem Represents.setArray (h : w.Represents s) (he : w.Exclusive)
    (hs : w.Spares w' (· = .array id)) (hvecs : w'.vecs = w.vecs)
    (harrays : w'.arrays.size = w.arrays.size) (hwalks : w'.iterations = w.iterations)
    {p : PlainArray} (hp : w'.IsArray (w'.array id) p) : w'.Represents (s.setArray id p) := by
  refine h.of_spares he hs ?_ (fun j hj => ?_) (fun _ _ => rfl) (harrays.trans h.arrayCount)
    (fun j hj => ?_) (fun j hj => ?_) hwalks rfl h.walk fun _ _ _ _ => by simp
  · rw [hvecs]
    exact h.vecCount
  · cases hj
  · cases hj
    change w'.IsArray (w'.array id) (Function.update s.array id p id)
    rwa [Function.update_self]
  · exact Function.update_of_ne (fun heq => hj (by rw [heq])) ..

/-- A new vector disturbs no walk, since no walk is over it. -/
theorem Represents.addVec (h : w.Represents s) (he : w.Exclusive)
    (hs : w.Spares w' (· = .vec w.vecs.size)) (hvecs : w'.vecs.size = w.vecs.size + 1)
    (harrays : w'.arrays = w.arrays) (hwalks : w'.iterations = w.iterations) {p : PlainVec}
    (hp : w'.IsVec (w'.vec w.vecs.size) p) : w'.Represents (s.addVec p) := by
  refine h.of_spares he hs (by rw [hvecs, h.vecCount]; rfl) (fun j hj => ?_) (fun j hj => ?_) ?_
    (fun j hj => ?_) (fun _ _ => rfl) hwalks rfl h.walk fun j vec position hrun => ?_
  · cases hj
    change w'.IsVec (w'.vec w.vecs.size) (Function.update s.vec s.vecCount p w.vecs.size)
    rwa [h.vecCount, Function.update_self, ← h.vecCount]
  · refine Function.update_of_ne (fun heq => hj ?_) ..
    rw [heq, h.vecCount]
  · rw [harrays]
    exact h.arrayCount
  · cases hj
  · have hwalk := h.walk j
    change s.walk j = .running vec position at hrun
    rw [hrun] at hwalk
    intro hvec
    cases hvec
    cases hi : w.iteration j with
    | fresh vec' =>
      rw [hi] at hwalk
      exact hwalk
    | finished vec' =>
      rw [hi] at hwalk
      exact hwalk
    | running vec' view position' =>
      rw [hi] at hwalk
      exact absurd hwalk.2.2.1 (by rw [hwalk.1]; exact lt_irrefl _)

/-- A step that makes new buffers changes no list. -/
theorem Represents.of_memory (h : w.Represents s) (he : w.Exclusive) {m : Memory}
    (hg : w.memory.Grows m) (hf : w.memory.Frame (fun _ => False) m) :
    { w with memory := m }.Represents s := by
  have hbuf : ∀ b, b < w.memory.buffers.size → m.buffer b = w.memory.buffer b :=
    fun b hb => hf b hb id
  have hq : w.Undisturbed { w with memory := m } :=
    ⟨rfl, fun b hb => ⟨hb.lt.trans_le hg.size_le,
      fun o a ha => hb.ne o a ((storage?_congr rfl rfl o).symm.trans ha)⟩, fun b hb => hbuf b hb.lt⟩
  have hs : w.Spares { w with memory := m } fun _ => False :=
    ⟨hq, le_rfl, fun _ _ => rfl, fun _ _ => rfl, fun o a _ ha => hbuf _ (he.stored o a ha)⟩
  exact h.of_spares he hs h.vecCount (fun _ hj => hj.elim) (fun _ _ => rfl) h.arrayCount
    (fun _ hj => hj.elim) (fun _ _ => rfl) rfl rfl h.walk fun _ _ _ _ => not_false

theorem spares_iterations (w : World) (iterations : Array Iteration) :
    w.Spares { w with iterations := iterations } fun _ => False :=
  spares_of_memory_eq rfl rfl le_rfl
    (fun _ hb => ⟨hb.lt, fun o a ha => hb.ne o a ((storage?_congr rfl rfl o).symm.trans ha)⟩)
    (fun _ _ => rfl) fun _ _ => rfl

theorem Represents.iterations (h : w.Represents s) (he : w.Exclusive)
    {iterations : Array Iteration} (hvec : s'.vec = s.vec) (harray : s'.array = s.array)
    (hvecCount : s'.vecCount = s.vecCount) (harrayCount : s'.arrayCount = s.arrayCount)
    (hwalkCount : iterations.size = s'.walkCount)
    (hwalk : ∀ j, w.IsWalk s (iterations.getD j default) (s'.walk j)) :
    { w with iterations := iterations }.Represents s' where
  vecCount := h.vecCount.trans hvecCount.symm
  vec := by
    intro j
    rw [hvec]
    exact (h.vec j).of_spares he (w.spares_iterations iterations) not_false
  arrayCount := h.arrayCount.trans harrayCount.symm
  array := by
    intro j
    rw [harray]
    exact (h.array j).of_spares (w.spares_iterations iterations) not_false
  walkCount := hwalkCount
  walk := fun j => (hwalk j).of_spares (w.spares_iterations iterations) fun vec _ _ =>
    ⟨not_false, congrFun hvec vec⟩

theorem Represents.addWalk (h : w.Represents s) (he : w.Exclusive) {i : Iteration} {p : PlainWalk}
    (hp : w.IsWalk s i p) :
    { w with iterations := w.iterations.push i }.Represents (s.addWalk p) := by
  refine h.iterations he rfl rfl rfl rfl ?_ fun j => ?_
  · rw [Array.size_push, h.walkCount]
    rfl
  · change w.IsWalk s ((w.iterations.push i).getD j default)
      (Function.update s.walk s.walkCount p j)
    rw [Array.getD_eq_getD_getElem?, Array.getElem?_push]
    by_cases hj : j = s.walkCount
    · subst hj
      rw [if_pos h.walkCount.symm, Function.update_self]
      exact hp
    · rw [if_neg (by rwa [h.walkCount]), Function.update_of_ne hj, ← Array.getD_eq_getD_getElem?]
      exact h.walk j

theorem Represents.setWalk (h : w.Represents s) (he : w.Exclusive) (hid : id < s.walkCount)
    {i : Iteration} {p : PlainWalk} (hp : w.IsWalk s i p) :
    (w.setIteration id i).Represents (s.setWalk id p) := by
  refine h.iterations he rfl rfl rfl rfl ?_ fun j => ?_
  · rw [Array.size_setIfInBounds, h.walkCount]
    rfl
  · change w.IsWalk s ((w.iterations.setIfInBounds id i).getD j default)
      (Function.update s.walk id p j)
    rw [Array.getD_eq_getD_getElem?, Array.getElem?_setIfInBounds]
    by_cases hj : j = id
    · subst hj
      rw [if_pos rfl, if_pos (by rwa [h.walkCount]), Function.update_self]
      exact hp
    · rw [if_neg (Ne.symm hj), Function.update_of_ne hj, ← Array.getD_eq_getD_getElem?]
      exact h.walk j

end LeaseVec.World
