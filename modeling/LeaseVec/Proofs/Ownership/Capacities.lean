import LeaseVec.Proofs.Growable.Growth
import LeaseVec.Proofs.Ownership.Promotion

/-!
# The growth law of arrays

An array that is filled and emptied again begins with some capacity. Whatever is done to it, its capacity
only grows, it grows by doubling and no further than a request makes it, and a request that cannot be met
changes nothing at all. A value of the wrong sort is refused only when there is room for it.
-/

namespace LeaseVec

open Number Number.Binary64

/-- The commands that fill an array and empty it again. Room is reserved for a number of elements. -/
def ArrayCommand.Fills : ArrayCommand → Prop
  | .push _ | .pop | .resize _ _ | .clear => True
  | .reserve extra => extra.toNat?.isSome = true
  | .share | .release | .swap _ => False

/-- The number of elements for which a command needs room in an array of a given length. -/
def ArrayCommand.need (length : Nat) : ArrayCommand → Nat
  | .push _ => length + 1
  | .resize n _ => n.toNat?.getD 0
  | .reserve extra => length + extra.toNat?.getD 0
  | _ => 0

/-- The value that a command adds. -/
def ArrayCommand.added? : ArrayCommand → Option Scalar
  | .push x => some x
  | .resize _ fill => some fill
  | _ => none

namespace World

variable {w w' : World} {id start : Nat} {c : ArrayCommand} {known : List Nat}

/-- The number of elements for which a command needs room now. -/
def needs (w : World) (id : Nat) (c : ArrayCommand) : Nat := c.need (w.array id).length

/-- Why a command that fills an array can fail. -/
inductive Denies (w : World) (id : Nat) (c : ArrayCommand) : Fault → Prop where
  /-- Memory does not give the room. -/
  | room (large : w.memory.limit.count < 2 * w.needs id c) : Denies w id c .allocationRefused
  /-- What is asked for is not a length. -/
  | length {x : Binary64} {fill : Scalar} (hc : c = .resize x fill) (hx : x.toNat? = none) :
    Denies w id c (.invalidLength x)

/-- How a command that fills an array ends. -/
inductive Filling (w : World) (id : Nat) (c : ArrayCommand) : Except Fault Reply × World → Prop where
  | done {m : Memory} {a : Growable} (reply : Reply)
      (updates : Growable.Updates w.memory (w.array id) m a)
      (room : Growable.MakesRoom w.memory (w.array id) (w.needs id c) m a)
      (reserved : ∀ extra, c = .reserve extra →
        reply = .truth (decide ((w.array id).capacity < w.needs id c)) ∧
          a.length = (w.array id).length ∧ a.live m = (w.array id).live w.memory) :
    Filling w id c (.ok reply, { w with memory := m }.setArray id a)
  /-- The value is of the wrong sort, and room has been made for it before it is refused. -/
  | misfit {m : Memory} {a : Growable} {x : Scalar} (added : c.added? = some x)
      (sort : (w.array id).kind.admits x = false) (updates : Growable.Updates w.memory (w.array id) m a)
      (room : Growable.MakesRoom w.memory (w.array id) (w.needs id c) m a)
      (length_eq : a.length = (w.array id).length) (live_eq : a.live m = (w.array id).live w.memory) :
    Filling w id c (.error .sortRefused, { w with memory := m }.setArray id a)
  | failed {e : Fault} (why : w.Denies id c e) : Filling w id c (.error e, w)

section Commands

variable (hs : (w.array id).Stored w.memory) (hm : w.memory.Addressable)

include hs hm

/-- What makes room for a value and refuses it then. -/
theorem filling_misfit {extra : Binary64} {x : Scalar} (hx : c.added? = some x)
    (hsort : (w.array id).kind.admits x = false) (hasks : Growable.Asks ((w.array id).size + extra) (w.needs id c))
    (hrun : (Command.array id c).run w =
      ((reserve id extra >>= fun _ => (throw .sortRefused : Action Unit)) >>= fun _ => pure .done) w) :
    w.Filling id c (w.perform (.array id c)) := by
  cases hr : (w.array id).reserve w.memory extra with
  | ok r =>
    obtain ⟨moved, a, m⟩ := r
    have hthrow : (reserve id extra >>= fun _ => (throw .sortRefused : Action Unit)) w =
        .error .sortRefused ({ w with memory := m }.setArray id a) := Action.bind_ok (reserveArray_ok hr)
    rw [perform_error hrun hthrow]
    exact .misfit hx hsort (Growable.updates_reserve hr) (Growable.makesRoom_reserve hm hs.fits hasks hr).2
      (Growable.length_of_reserve hr).1 (Growable.live_reserve hs.fits hs.lt hr)
  | error e =>
    rw [perform_error hrun (Action.bind_error (reserveArray_error hr))]
    obtain rfl := Growable.reserve_error hr
    rcases Growable.reserve_of_asks hm hs.fits hasks with ⟨b, m, hok, -⟩ | ⟨-, hlarge⟩
    · rw [hr] at hok
      cases hok
    · exact .failed (.room hlarge)

theorem filling_push (x : Scalar) : w.Filling id (.push x) (w.perform (.array id (.push x))) := by
  have hpush := pushArray_eq w id x
  cases hsort : (w.array id).kind.admits x with
  | false =>
    rw [if_neg (Bool.eq_false_iff.1 hsort)] at hpush
    refine filling_misfit hs hm rfl hsort ?_ (Action.bind_congr (x := pushArray id x) _ hpush)
    exact hs.fits.asks_add hm Growable.whole_one
  | true =>
    rw [if_pos hsort] at hpush
    have hrun : (Command.array id (.push x)).run w =
        (changeArray id (fun m a => a.push m x) >>= fun _ => pure Reply.done) w :=
      Action.bind_congr (x := pushArray id x) _ hpush
    cases hr : (w.array id).push w.memory x with
    | ok r =>
      rw [perform_ok hrun (changeArray_ok hr)]
      exact .done _ (Growable.updates_push hr) (Growable.makesRoom_push hm hs.fits hr) (by simp)
    | error e =>
      rw [perform_error hrun (changeArray_error hr)]
      obtain ⟨rfl, hlarge⟩ := Growable.push_error hm hs.fits hr
      exact .failed (.room hlarge)

theorem filling_resize (x : Binary64) (fill : Scalar) :
    w.Filling id (.resize x fill) (w.perform (.array id (.resize x fill))) := by
  have hneed : ∀ n, x.toNat? = some n → w.needs id (.resize x fill) = n := fun n hn => by
    rw [needs, ArrayCommand.need, hn, Option.getD_some]
  have hresize := resizeArray_eq w id x fill
  cases hfill : ((w.array id).kind.admits fill || !fills (w.array id).length x) with
  | false =>
    rw [if_neg (Bool.eq_false_iff.1 hfill)] at hresize
    obtain ⟨hsort, hfills⟩ := Bool.or_eq_false_iff.1 hfill
    obtain ⟨n, hn, hlt⟩ := exists_of_fills (by simpa using hfills)
    refine filling_misfit hs hm rfl hsort ?_ (Action.bind_congr (x := resizeArray id x fill) _ hresize)
    rw [hneed n hn]
    exact Growable.extension_cases hm hs.fits (whole_of_toNat? hn) hlt
  | true =>
    rw [if_pos hfill] at hresize
    have hrun : (Command.array id (.resize x fill)).run w =
        (changeArray id (fun m a => a.resize m x fill) >>= fun _ => pure Reply.done) w :=
      Action.bind_congr (x := resizeArray id x fill) _ hresize
    cases hr : (w.array id).resize w.memory x fill with
    | ok r =>
      rw [perform_ok hrun (changeArray_ok hr)]
      obtain ⟨n, hx, -⟩ := Growable.resize_ok hr
      refine .done _ (Growable.updates_resize hr) ?_ (by simp)
      rw [hneed n hx.toNat?]
      exact Growable.makesRoom_resize hm hs.fits hx hr
    | error e =>
      rw [perform_error hrun (changeArray_error hr)]
      rcases Growable.resize_error hm hs.fits hr with ⟨hx, rfl⟩ | ⟨rfl, n, hn, hlarge⟩
      · exact .failed (.length rfl hx)
      · refine .failed (.room ?_)
        rwa [hneed n hn]

theorem filling_reserve {extra : Binary64} {n : Nat} (hn : extra.toNat? = some n) :
    w.Filling id (.reserve extra) (w.perform (.array id (.reserve extra))) := by
  have hrun : (Command.array id (.reserve extra)).run w =
      (reserve id extra >>= fun moved => pure (Reply.truth moved)) w := rfl
  have hneed : w.needs id (.reserve extra) = (w.array id).length + n := by
    rw [needs, ArrayCommand.need, hn, Option.getD_some]
  cases hr : (w.array id).reserve w.memory extra with
  | ok r =>
    obtain ⟨moved, a, m⟩ := r
    rw [perform_ok hrun (reserveArray_ok hr)]
    obtain ⟨rfl, hroom⟩ := Growable.makesRoom_reserve hm hs.fits
      (hs.fits.asks_add hm (whole_of_toNat? hn)) hr
    rw [← hneed] at hroom ⊢
    exact .done _ (Growable.updates_reserve hr) hroom fun _ _ =>
      ⟨rfl, (Growable.length_of_reserve hr).1, Growable.live_reserve hs.fits hs.lt hr⟩
  | error e =>
    rw [perform_error hrun (reserveArray_error hr)]
    obtain rfl := Growable.reserve_error hr
    refine .failed (.room ?_)
    rw [hneed]
    exact Growable.large_of_reserve_error hm hs.fits hr hn

theorem filling_perform (hc : c.Fills) : w.Filling id c (w.perform (.array id c)) := by
  cases c with
  | push x => exact filling_push hs hm x
  | resize x fill => exact filling_resize hs hm x fill
  | reserve extra =>
    obtain ⟨n, hn⟩ := Option.isSome_iff_exists.1 hc
    exact filling_reserve hs hm hn
  | pop => exact .done _ (Growable.updates_pop w.memory _) (Growable.makesRoom_pop hm) (by simp)
  | clear => exact .done _ (Growable.updates_clear w.memory _) (Growable.makesRoom_clear hm) (by simp)
  | share => exact hc.elim
  | release => exact hc.elim
  | swap other => exact hc.elim

end Commands

/-- An array that began with a capacity and has met some requests. -/
structure Grown (w : World) (id start : Nat) (known : List Nat) : Prop where
  lt : id < w.arrays.size
  stored : (w.array id).Stored w.memory
  addressable : w.memory.Addressable
  capacity_mem : (w.array id).capacity ∈ capacities start
  bounded : (w.array id).capacity = start ∨ ∃ n ∈ known, (w.array id).capacity < 2 * n

theorem Grown.mono (h : w.Grown id start known) (n : Nat) : w.Grown id start (known ++ [n]) where
  lt := h.lt
  stored := h.stored
  addressable := h.addressable
  capacity_mem := h.capacity_mem
  bounded := h.bounded.imp_right fun ⟨k, hk, hlt⟩ => ⟨k, List.mem_append_left _ hk, hlt⟩

/-- An array that has got the room that was asked for. -/
theorem Grown.of_makesRoom (h : w.Grown id start known) {m : Memory} {a : Growable} {need : Nat}
    (updates : Growable.Updates w.memory (w.array id) m a)
    (room : Growable.MakesRoom w.memory (w.array id) need m a) :
    ({ w with memory := m }.setArray id a).Grown id start (known ++ [need]) := by
  have harray : ({ w with memory := m }.setArray id a).array id = a :=
    array_setArray_self { w with memory := m } a h.lt
  have hmono := h.mono need
  have hcapacity : a.capacity ∈ capacities start ∧
      (a.capacity = start ∨ ∃ n ∈ known ++ [need], a.capacity < 2 * n) := by
    rcases Nat.lt_or_ge (w.array id).capacity need with hmove | hstay
    · obtain ⟨-, hmoved⟩ := room.moved hmove
      rw [hmoved]
      exact ⟨(isLeast_doubledTo h.capacity_mem hmove).1.1,
        Or.inr ⟨need, by simp, Growable.doubledTo_max_lt hmove⟩⟩
    · obtain ⟨-, hkept⟩ := room.kept hstay
      rw [hkept]
      exact ⟨hmono.capacity_mem, hmono.bounded⟩
  rw [← harray] at hcapacity
  refine ⟨by simpa using h.lt, ?_, room.addressable, hcapacity.1, hcapacity.2⟩
  rw [harray]
  exact h.stored.update updates room.addressable

theorem Grown.perform (h : w.Grown id start known) (hc : c.Fills) :
    (w.perform (.array id c)).2.Grown id start (known ++ [w.needs id c]) := by
  have hends := filling_perform h.stored h.addressable hc
  generalize w.perform (.array id c) = result at hends
  cases hends with
  | failed why => exact h.mono _
  | done reply updates room => exact h.of_makesRoom updates room
  | misfit _ _ updates room => exact h.of_makesRoom updates room

/-- The requests of a history, each in the world that the commands before it left. -/
def requests (w : World) (id : Nat) : List ArrayCommand → List Nat
  | [] => []
  | c :: rest => w.needs id c :: requests (w.perform (.array id c)).2 id rest

theorem Grown.performAll (h : w.Grown id start known) {history : List ArrayCommand}
    (hh : ∀ c ∈ history, c.Fills) :
    (w.performAll (history.map (.array id))).2.Grown id start (known ++ w.requests id history) := by
  induction history generalizing w known with
  | nil =>
    rw [requests, List.append_nil]
    exact h
  | cons c rest ih =>
    have hrest := ih (h.perform (hh c (by simp))) fun c' hc' => hh c' (List.mem_cons_of_mem _ hc')
    rw [List.append_assoc] at hrest
    exact hrest

/-- What a further command does to an array that began with a capacity. -/
structure GrowsBy (w : World) (id start : Nat) (c : ArrayCommand) : Prop where
  capacity_le : (w.array id).capacity ≤ ((w.perform (.array id c)).2.array id).capacity
  /-- The elements stay where they are when there is room. -/
  kept : w.needs id c ≤ (w.array id).capacity →
    ((w.perform (.array id c)).2.array id).buffer = (w.array id).buffer ∧
      ((w.perform (.array id c)).2.array id).capacity = (w.array id).capacity
  /-- Otherwise they move, to the least room that suffices. -/
  moved : ∀ reply w', w.perform (.array id c) = (.ok reply, w') →
    (w.array id).capacity < w.needs id c → (w'.array id).buffer ≠ (w.array id).buffer ∧
      IsLeast {v ∈ capacities start | w.needs id c ≤ v} (w'.array id).capacity
  /-- The loop that looks for this room ends. -/
  rounds : ∃ k ≤ Nat.clog 2 (w.needs id c),
    doubledTo (max 1 (w.array id).capacity) (w.needs id c) = max 1 (w.array id).capacity * 2 ^ k
  /-- A command that fails has done nothing, unless it was given a value of the wrong sort. -/
  failed : ∀ e w', w.perform (.array id c) = (.error e, w') → e ≠ .sortRefused → w' = w ∧ w.Denies id c e
  /-- Then it has made room, and the array has the elements that it had. -/
  misfit : ∀ w', w.perform (.array id c) = (.error .sortRefused, w') →
    (∃ x, c.added? = some x ∧ (w.array id).kind.admits x = false) ∧
      (w'.array id).length = (w.array id).length ∧
      (w'.array id).live w'.memory = (w.array id).live w.memory ∧
      ((w.array id).capacity < w.needs id c →
        IsLeast {v ∈ capacities start | w.needs id c ≤ v} (w'.array id).capacity)
  reserved : ∀ extra reply w', c = .reserve extra → w.perform (.array id c) = (.ok reply, w') →
    reply = .truth (decide ((w.array id).capacity < w.needs id c)) ∧
      (w'.array id).length = (w.array id).length ∧
      (w'.array id).live w'.memory = (w.array id).live w.memory

theorem Grown.growsBy (h : w.Grown id start known) (hc : c.Fills) : w.GrowsBy id start c := by
  have hrounds : ∃ k ≤ Nat.clog 2 (w.needs id c), doubledTo (max 1 (w.array id).capacity) (w.needs id c) =
      max 1 (w.array id).capacity * 2 ^ k := by
    have hpos : 0 < max 1 (w.array id).capacity := by omega
    obtain ⟨k, hk, hlt⟩ := exists_rounds hpos (w.needs id c)
    exact ⟨k, rounds_le_clog hpos hlt, hk⟩
  have hends := filling_perform h.stored h.addressable hc
  have hmakes : ∀ {m : Memory} {a : Growable},
      Growable.MakesRoom w.memory (w.array id) (w.needs id c) m a → (w.array id).capacity ≤ a.capacity := by
    intro m a room
    rcases Nat.lt_or_ge (w.array id).capacity (w.needs id c) with hmove | hstay
    · rw [(room.moved hmove).2]
      exact (Nat.le_max_right 1 _).trans (le_doubledTo_left _ _)
    · exact (room.kept hstay).2.ge
  generalize hp : w.perform (.array id c) = result at hends
  cases hends with
  | @failed e why =>
    have hsort : e ≠ .sortRefused := by
      cases why <;> exact Fault.noConfusion
    refine ⟨by rw [hp], fun _ => by rw [hp]; exact ⟨rfl, rfl⟩, ?_, hrounds, ?_, ?_, ?_⟩
    · intro reply w' hok
      rw [hp] at hok
      cases hok
    · intro e' w' herror _
      rw [hp] at herror
      cases herror
      exact ⟨rfl, why⟩
    · intro w' herror
      rw [hp] at herror
      cases herror
      exact absurd rfl hsort
    · intro extra reply w' _ hok
      rw [hp] at hok
      cases hok
  | @misfit m a x added sort updates room length_eq live_eq =>
    have harray : ({ w with memory := m }.setArray id a).array id = a :=
      array_setArray_self { w with memory := m } a h.lt
    refine ⟨?_, ?_, ?_, hrounds, ?_, ?_, ?_⟩
    · rw [hp, harray]
      exact hmakes room
    · rw [hp, harray]
      exact room.kept
    · intro reply w' hok
      rw [hp] at hok
      cases hok
    · intro e w' herror hsort
      rw [hp] at herror
      cases herror
      exact absurd rfl hsort
    · intro w' herror
      rw [hp] at herror
      cases herror
      rw [harray]
      refine ⟨⟨x, added, sort⟩, length_eq, live_eq, fun hmove => ?_⟩
      rw [(room.moved hmove).2]
      exact isLeast_doubledTo h.capacity_mem hmove
    · intro extra reply w' _ hok
      rw [hp] at hok
      cases hok
  | @done m a reply updates room reserved =>
    have harray : ({ w with memory := m }.setArray id a).array id = a :=
      array_setArray_self { w with memory := m } a h.lt
    refine ⟨?_, ?_, ?_, hrounds, ?_, ?_, ?_⟩
    · rw [hp, harray]
      exact hmakes room
    · rw [hp, harray]
      exact room.kept
    · intro reply' w' hok hmove
      rw [hp] at hok
      cases hok
      obtain ⟨hbuffer, hcapacity⟩ := room.moved hmove
      rw [harray, hbuffer, hcapacity]
      exact ⟨h.stored.lt.ne', isLeast_doubledTo h.capacity_mem hmove⟩
    · intro e w' herror _
      rw [hp] at herror
      cases herror
    · intro w' herror
      rw [hp] at herror
      cases herror
    · intro extra reply' w' hc hok
      rw [hp] at hok
      cases hok
      rw [harray]
      exact reserved extra hc

/-- What holds after every history of commands that fill an array and empty it again. -/
structure GrowthLaw (w : World) (id : Nat) (history : List ArrayCommand) (w' : World) : Prop where
  length_le : (w'.array id).length ≤ (w'.array id).capacity
  capacity_mem : (w'.array id).capacity ∈ capacities (w.array id).capacity
  bounded : (w'.array id).capacity = (w.array id).capacity ∨
    ∃ n ∈ w.requests id history, (w'.array id).capacity < 2 * n
  further : ∀ c : ArrayCommand, c.Fills → w'.GrowsBy id (w.array id).capacity c

/-- The growth law: the capacity of an array is its first or a power of two times that, it is never twice of
what has been asked for, and it changes only when it must. -/
theorem growthLaw_performAll (hid : id < w.arrays.size) (hs : (w.array id).Stored w.memory)
    (hm : w.memory.Addressable) {history : List ArrayCommand} (hh : ∀ c ∈ history, c.Fills) :
    w.GrowthLaw id history (w.performAll (history.map (.array id))).2 := by
  have hstart : w.Grown id (w.array id).capacity [] := ⟨hid, hs, hm, Or.inl rfl, Or.inl rfl⟩
  have hafter := hstart.performAll hh
  exact ⟨hafter.stored.fits.length_le, hafter.capacity_mem, hafter.bounded, fun c hc => hafter.growsBy hc⟩

/-- An array of numbers of two bytes that has no elements yet. -/
def withoutElements : World := (empty.performAll [.newArray .u16 0 none]).2

/-- Room for three elements, one element, none, and a length that memory does not give. -/
def fillAndEmpty : List ArrayCommand :=
  [.reserve (ofNat 3), .push (.number 1), .clear, .resize (ofNat (2 ^ 40)) (.number 1)]

theorem growthLaw_fillAndEmpty :
    withoutElements.GrowthLaw 0 fillAndEmpty
      (withoutElements.performAll (fillAndEmpty.map (.array 0))).2 := by
  have hstored : (withoutElements.array 0).Stored withoutElements.memory :=
    ⟨by decide +kernel, by decide +kernel, by decide +kernel, by decide +kernel⟩
  have haddressable : withoutElements.memory.Addressable :=
    Memory.addressable_of_all (by decide +kernel)
  have hfills : ∀ c ∈ fillAndEmpty, c.Fills := by
    simp only [fillAndEmpty, List.forall_mem_cons, List.not_mem_nil, false_imp_iff, implies_true]
    exact ⟨by unfold ArrayCommand.Fills; decide +kernel, trivial, trivial, trivial, trivial⟩
  exact growthLaw_performAll (by decide +kernel) hstored haddressable hfills

end World

end LeaseVec
