import Mathlib.Logic.Function.Basic
import Novaio.Lib.Ring

/-!
# The single-producer single-consumer queue

`SpscQueue` of `src/include/novaio/concurrent_queues.hpp`: a ring of `capacity_` slots of raw memory
with 64-bit counters that wrap. `push` checks for room. `push` and `pop` are given whole, and the
atomic steps of which they are made are given by themselves, for the runs in which several threads
take them in turn.

The abstract view is `Holds`: the values from the head to the tail, of which the consumer may have
taken the first out of its slot already.
-/

namespace Novaio

/-- What a slot holds: no object, a value, or an object that has been moved from. -/
inductive Cell (α : Type*) where
  | raw
  | live (value : α)
  | moved

/-- `SpscQueue`, whose capacity is a power of two. -/
structure SpscQueue (α : Type*) where
  capacity : ℕ
  power_of_two : ∃ k, capacity = 2 ^ k
  capacity_le : capacity ≤ 2 ^ 63
  tail : UInt64
  head : UInt64
  buffer : ℕ → Cell α

namespace SpscQueue

variable {α : Type*}

/-- A queue as constructed, with the default capacity. -/
def new : SpscQueue α := ⟨65536, Ring.exists_eq_two_pow_16, by decide, 0, 0, fun _ => .raw⟩

/-- A queue as constructed with a capacity. -/
def ofCapacity (capacity : ℕ) (hpow : ∃ k, capacity = 2 ^ k) (hle : capacity ≤ 2 ^ 63) :
    SpscQueue α :=
  ⟨capacity, hpow, hle, 0, 0, fun _ => .raw⟩

/-- `mask_`. -/
def mask (q : SpscQueue α) : ℕ := q.capacity - 1

/-- The slot of a counter. -/
def slot (q : SpscQueue α) (i : UInt64) : Cell α := q.buffer (i.toNat &&& q.mask)

/-- A write to the slot of a counter. -/
def setSlot (q : SpscQueue α) (i : UInt64) (s : Cell α) : SpscQueue α :=
  { q with buffer := Function.update q.buffer (i.toNat &&& q.mask) s }

/-- A store to `tail_`. -/
def storeTail (q : SpscQueue α) (tail : UInt64) : SpscQueue α := { q with tail := tail }

/-- A store to `head_`. -/
def storeHead (q : SpscQueue α) (head : UInt64) : SpscQueue α := { q with head := head }

/-- The test of `push` for a full queue, on the counters that it has loaded. -/
def Full (q : SpscQueue α) (tail head : UInt64) : Prop := q.capacity < (tail + 1 - head).toNat

/-- Whether a queue looks full can be computed. -/
instance (q : SpscQueue α) (tail head : UInt64) : Decidable (q.Full tail head) :=
  inferInstanceAs (Decidable (_ < _))

/-- `SpscQueue::push`. -/
def push (q : SpscQueue α) (item : α) : Bool × SpscQueue α :=
  if q.Full q.tail q.head then (false, q)
  else (true, (q.setSlot q.tail (.live item)).storeTail (q.tail + 1))

/-- `SpscQueue::pop`. Its behaviour is undefined where the slot holds no value. -/
def pop (q : SpscQueue α) : Option (Option α × SpscQueue α) :=
  if q.head = q.tail then some (none, q)
  else
    match q.slot q.head with
    | .live item =>
      -- The value is moved out, and what is left in the slot is destroyed.
      some (some item, ((q.setSlot q.head .moved).setSlot q.head .raw).storeHead (q.head + 1))
    | _ => none

/-- The loop of `SpscQueue::~SpscQueue`, in at most `n` iterations: what the slots hold whose
objects are destroyed, and the queue left. -/
def destroyAll : ℕ → SpscQueue α → List (Cell α) × SpscQueue α
  | 0, q => ([], q)
  | n + 1, q =>
    if q.head = q.tail then ([], q)
    else
      let (slots, rest) := destroyAll n ((q.setSlot q.head .raw).storeHead (q.head + 1))
      (q.slot q.head :: slots, rest)

/-- A push writes one slot, with its value. -/
theorem live_of_push {q q' : SpscQueue α} {item : α} {pushed : Bool}
    (h : q.push item = (pushed, q')) {n : ℕ} {x : α} (hx : q'.buffer n = .live x) :
    x = item ∨ q.buffer n = .live x := by
  unfold push at h
  split_ifs at h
  · rw [(Prod.mk.inj h).2]
    exact .inr hx
  · rw [← (Prod.mk.inj h).2] at hx
    rcases eq_or_ne n (q.tail.toNat &&& q.mask) with rfl | hne
    · have hself : (q.setSlot q.tail (.live item)).buffer (q.tail.toNat &&& q.mask) = .live item :=
        Function.update_self _ _ _
      exact .inl (Cell.live.inj (hx.symm.trans hself))
    · exact .inr ((Function.update_of_ne hne _ _).symm.trans hx)

/-- What a pop takes was in a slot, and the slots of the queue that it leaves hold nothing new. -/
theorem live_of_pop {q q' : SpscQueue α} {item : α} (h : q.pop = some (some item, q')) :
    q.slot q.head = .live item ∧ ∀ n x, q'.buffer n = .live x → q.buffer n = .live x := by
  unfold pop at h
  split_ifs at h
  · simp at h
  · split at h
    · rename_i item' hslot
      simp only [Option.some.injEq, Prod.mk.injEq] at h
      obtain ⟨rfl, rfl⟩ := h
      refine ⟨hslot, fun n x hx => ?_⟩
      rcases eq_or_ne n (q.head.toNat &&& q.mask) with rfl | hne
      · have hself : (((q.setSlot q.head .moved).setSlot q.head .raw).storeHead (q.head + 1)).buffer
            (q.head.toNat &&& q.mask) = .raw := Function.update_self _ _ _
        rw [hself] at hx
        simp at hx
      · exact ((Function.update_of_ne hne _ _).trans (Function.update_of_ne hne _ _)).symm.trans hx
    · simp at h

/-! ## The abstract view -/

/-- The number of slots in use, by the counters. -/
def size (q : SpscQueue α) : ℕ := Ring.count (2 ^ 64) q.head.toNat q.tail.toNat

/-- The value in a slot, if any. -/
def value : Cell α → Option α
  | .live item => some item
  | .raw | .moved => none

/-- The values in the slots in use, in order. -/
def contents (q : SpscQueue α) : List α :=
  (Ring.window q.capacity q.buffer q.head.toNat q.size).filterMap value

/-- The queue holds the values `items`, in order, after the first `taken` of the slots in use. -/
structure Holds (q : SpscQueue α) (taken : ℕ) (items : List α) : Prop where
  size_eq : q.size = taken + items.length
  size_le : taken + items.length ≤ q.capacity
  slots : Ring.window q.capacity q.buffer (q.head.toNat + taken) items.length = items.map .live

variable {q : SpscQueue α} {taken : ℕ} {items : List α}

/-- `head_` has 64 bits. -/
theorem head_lt (q : SpscQueue α) : q.head.toNat < 2 ^ 64 := q.head.toNat_lt

/-- `tail_` has 64 bits. -/
theorem tail_lt (q : SpscQueue α) : q.tail.toNat < 2 ^ 64 := q.tail.toNat_lt

/-- Masking is reduction modulo the capacity. -/
theorem and_mask (q : SpscQueue α) (x : ℕ) : x &&& q.mask = x % q.capacity :=
  Ring.and_sub_one q.power_of_two x

/-- The counters wrap at a multiple of the capacity. -/
theorem capacity_dvd (q : SpscQueue α) : q.capacity ∣ 2 ^ 64 :=
  Ring.dvd_two_pow q.power_of_two (by have := q.capacity_le; omega)

/-- The slot that follows those in use is that of the tail. -/
theorem slot_tail (q : SpscQueue α) :
    (q.head.toNat + q.size) % q.capacity = q.tail.toNat % q.capacity :=
  Ring.slot_add_count q.capacity_dvd q.head_lt q.tail_lt

/-- The slot has its new content. -/
@[simp]
theorem slot_setSlot_self (q : SpscQueue α) (i : UInt64) (s : Cell α) :
    (q.setSlot i s).slot i = s :=
  Function.update_self _ _ _

/-- A counter ahead of the head by fewer slots than there are has a slot of its own. -/
theorem slot_setSlot_head_tail (q : SpscQueue α) (s : Cell α) (hpos : 0 < q.size)
    (hlt : q.size < q.capacity) : (q.setSlot q.head s).slot q.tail = q.slot q.tail := by
  unfold slot
  show Function.update q.buffer (q.head.toNat &&& q.mask) s (q.tail.toNat &&& q.mask) = _
  apply Function.update_of_ne
  rw [and_mask, and_mask, ← slot_tail]
  intro h
  have := Ring.slot_injective (j := 0) hlt (by omega) (by rw [h, Nat.add_zero])
  omega

/-- The tail has a slot of its own, too. -/
theorem slot_setSlot_tail_head (q : SpscQueue α) (s : Cell α) (hpos : 0 < q.size)
    (hlt : q.size < q.capacity) : (q.setSlot q.tail s).slot q.head = q.slot q.head := by
  unfold slot
  show Function.update q.buffer (q.tail.toNat &&& q.mask) s (q.head.toNat &&& q.mask) = _
  apply Function.update_of_ne
  rw [and_mask, and_mask, ← slot_tail]
  intro h
  have := Ring.slot_injective (i := 0) (by omega) hlt (by rw [← h, Nat.add_zero])
  omega

/-- `pop` finds nothing only in a queue that has nothing. -/
theorem contents_of_pop_none {q' : SpscQueue α} (h : q.pop = some (none, q')) :
    q.contents = [] := by
  unfold pop at h
  split_ifs at h with heq
  · have hsize : q.size = 0 := by
      unfold size
      rw [Ring.count_eq_zero_iff q.head_lt q.tail_lt, heq]
    unfold contents
    rw [hsize, Ring.window_zero, List.filterMap_nil]
  · split at h <;> simp at h

/-- A queue as constructed holds nothing. -/
theorem ofCapacity_holds (capacity : ℕ) (hpow : ∃ k, capacity = 2 ^ k) (hle : capacity ≤ 2 ^ 63) :
    (ofCapacity capacity hpow hle : SpscQueue α).Holds 0 [] :=
  ⟨(Ring.count_eq_zero_iff (head_lt _) (tail_lt _)).mpr rfl, by simp, rfl⟩

/-- A queue as constructed with the default capacity holds nothing. -/
theorem new_holds : (new : SpscQueue α).Holds 0 [] := ofCapacity_holds 65536 _ _

namespace Holds

/-- The values held are the contents. -/
theorem contents_eq (h : q.Holds 0 items) : q.contents = items := by
  have hsize := h.size_eq
  have hslots := h.slots
  rw [Nat.zero_add] at hsize
  rw [Nat.add_zero] at hslots
  unfold contents
  rw [hsize, hslots, List.filterMap_map]
  exact List.filterMap_some

/-- The test for an empty queue. -/
theorem head_eq_tail_iff (h : q.Holds taken items) :
    q.head = q.tail ↔ taken + items.length = 0 := by
  rw [← h.size_eq, size, Ring.count_eq_zero_iff q.head_lt q.tail_lt, UInt64.toNat_inj]

/-- The size after one more slot is used. -/
theorem size_succ (h : q.Holds taken items) :
    Ring.count (2 ^ 64) q.head.toNat (q.tail + 1).toNat = q.size + 1 := by
  have hsize := h.size_eq
  have hle := h.size_le
  have hcap := q.capacity_le
  rw [UInt64.toNat_add, UInt64.toNat_one]
  apply Ring.count_succ_right q.head_lt q.tail_lt
  unfold size at hsize
  omega

/-- The test for a full queue. -/
theorem full_iff (h : q.Holds taken items) :
    q.Full q.tail q.head ↔ taken + items.length = q.capacity := by
  have hsucc := h.size_succ
  have hsize := h.size_eq
  have hle := h.size_le
  unfold Full
  rw [UInt64.toNat_sub, ← Ring.count, hsucc]
  omega

/-- A write to the slot of the tail, where there is room. -/
theorem setSlot_tail (h : q.Holds taken items) (hroom : taken + items.length < q.capacity)
    (s : Cell α) : (q.setSlot q.tail s).Holds taken items := by
  refine ⟨h.size_eq, h.size_le, ?_⟩
  rw [← h.slots]
  show Ring.window q.capacity (Function.update q.buffer (q.tail.toNat &&& q.mask) s) _ _ = _
  rw [and_mask, ← slot_tail, h.size_eq]
  apply Ring.window_update_of_ne
  intro i hi he
  rw [Nat.add_assoc] at he
  have := Ring.slot_injective (by omega) (by omega) he
  omega

/-- The store to the tail, once the value is in its slot. -/
theorem storeTail (h : q.Holds taken items) (hroom : taken + items.length < q.capacity) {item : α}
    (hslot : q.slot q.tail = .live item) :
    (q.storeTail (q.tail + 1)).Holds taken (items ++ [item]) := by
  have hlen : (items ++ [item]).length = items.length + 1 := by simp
  refine ⟨?_, by rw [hlen]; exact hroom, ?_⟩
  · rw [hlen, ← Nat.add_assoc, ← h.size_eq]
    exact h.size_succ
  · show Ring.window q.capacity q.buffer (q.head.toNat + taken) _ = _
    have hpos : (q.head.toNat + taken + items.length) % q.capacity = q.tail.toNat % q.capacity := by
      rw [Nat.add_assoc, ← h.size_eq, slot_tail]
    rw [hlen, Ring.window_succ, h.slots, hpos, ← and_mask, List.map_append]
    congr 1
    exact congrArg (fun s => [s]) hslot

/-- The slot of the head has the first value. -/
theorem slot_head {item : α} (h : q.Holds 0 (item :: items)) : q.slot q.head = .live item := by
  have hslots := h.slots
  rw [Nat.add_zero, List.length_cons, Ring.window_succ_left, List.map_cons] at hslots
  unfold slot
  rw [and_mask]
  exact (List.cons.inj hslots).1

/-- The first value is taken. -/
theorem take {item : α} (h : q.Holds 0 (item :: items)) : q.Holds 1 items := by
  have hslots := h.slots
  rw [Nat.add_zero, List.length_cons, Ring.window_succ_left, List.map_cons] at hslots
  have hsize := h.size_eq
  have hle := h.size_le
  rw [List.length_cons] at hsize hle
  exact ⟨by omega, by omega, (List.cons.inj hslots).2⟩

/-- A write to the slot of the head, whose value is taken. -/
theorem setSlot_head (h : q.Holds 1 items) (s : Cell α) : (q.setSlot q.head s).Holds 1 items := by
  refine ⟨h.size_eq, h.size_le, ?_⟩
  rw [← h.slots]
  show Ring.window q.capacity (Function.update q.buffer (q.head.toNat &&& q.mask) s) _ _ = _
  rw [and_mask]
  apply Ring.window_update_of_ne
  intro i hi he
  have hle := h.size_le
  have he' : (q.head.toNat + (1 + i)) % q.capacity = (q.head.toNat + 0) % q.capacity := by
    rw [← Nat.add_assoc]
    exact he
  have := Ring.slot_injective (by omega) (by omega) he'
  omega

/-- The store to the head, once the value is taken. -/
theorem storeHead (h : q.Holds 1 items) :
    (q.storeHead (q.head + 1)).Holds 0 items := by
  have hhead : (q.head + 1).toNat = (q.head.toNat + 1) % 2 ^ 64 := by
    rw [UInt64.toNat_add, UInt64.toNat_one]
  have hsize := h.size_eq
  have hle := h.size_le
  refine ⟨?_, show 0 + items.length ≤ q.capacity by omega, ?_⟩
  · show Ring.count (2 ^ 64) (q.head + 1).toNat q.tail.toNat = _
    have := Ring.count_succ_left q.head_lt q.tail_lt (by unfold size at hsize; omega)
    rw [hhead]
    unfold size at hsize
    omega
  · show Ring.window q.capacity q.buffer ((q.head + 1).toNat + 0) _ = _
    rw [hhead, Nat.add_zero, Ring.window_mod q.capacity_dvd]
    exact h.slots

/-- `push` appends the value, unless the queue is full. -/
theorem push (h : q.Holds 0 items) (item : α) :
    (q.push item).1 = decide (items.length < q.capacity) ∧
      (q.push item).2.capacity = q.capacity ∧
      (q.push item).2.Holds 0 (if items.length < q.capacity then items ++ [item] else items) := by
  have hle := h.size_le
  unfold SpscQueue.push
  by_cases hfull : q.Full q.tail q.head
  · have hnot : ¬ items.length < q.capacity := by
      have := h.full_iff.mp hfull
      omega
    rw [if_pos hfull, if_neg hnot]
    exact ⟨by simp [hnot], rfl, h⟩
  · have hroom : items.length < q.capacity := by
      have := mt h.full_iff.mpr hfull
      omega
    have hroom' : 0 + items.length < q.capacity := by omega
    rw [if_neg hfull, if_pos hroom]
    exact ⟨by simp [hroom], rfl,
      (h.setSlot_tail hroom' _).storeTail hroom' (slot_setSlot_self _ _ _)⟩

/-- `pop` finds an empty queue. -/
theorem pop_nil (h : q.Holds 0 []) : q.pop = some (none, q) :=
  if_pos (h.head_eq_tail_iff.mpr rfl)

/-- `pop` takes the first value. -/
theorem pop_cons {item : α} (h : q.Holds 0 (item :: items)) :
    ∃ q', q.pop = some (some item, q') ∧ q'.capacity = q.capacity ∧ q'.Holds 0 items := by
  -- The tail is ahead, and the slot of the head has the value.
  have hne : q.head ≠ q.tail := by
    rw [Ne, h.head_eq_tail_iff, List.length_cons]
    omega
  refine ⟨((q.setSlot q.head .moved).setSlot q.head .raw).storeHead (q.head + 1),
    by rw [pop, if_neg hne, h.slot_head], rfl, ?_⟩
  exact ((h.take.setSlot_head .moved).setSlot_head .raw).storeHead

/-- The destructor destroys the objects of the values held, and comes to an end. -/
theorem destroyAll_eq (n : ℕ) (h : q.Holds 0 items) (hn : items.length ≤ n) :
    (q.destroyAll n).1 = items.map .live ∧ (q.destroyAll n).2.head = (q.destroyAll n).2.tail := by
  induction n generalizing q items with
  | zero =>
    obtain rfl := List.length_eq_zero_iff.mp (Nat.le_zero.mp hn)
    exact ⟨rfl, h.head_eq_tail_iff.mpr rfl⟩
  | succ n ih =>
    cases items with
    | nil =>
      have heq := h.head_eq_tail_iff.mpr rfl
      rw [destroyAll, if_pos heq]
      exact ⟨rfl, heq⟩
    | cons item rest =>
      have hne : q.head ≠ q.tail := by
        rw [Ne, h.head_eq_tail_iff, List.length_cons]
        omega
      obtain ⟨hslots, hend⟩ := ih ((h.take.setSlot_head .raw).storeHead) (by
        rw [List.length_cons] at hn
        omega)
      rw [destroyAll, if_neg hne]
      refine ⟨?_, hend⟩
      rw [h.slot_head, List.map_cons]
      exact congrArg _ hslots

end Holds

end SpscQueue

end Novaio
