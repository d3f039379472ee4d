import Mathlib.Data.List.Count
import Mathlib.Data.List.Perm.Basic
import Novaio.Lib.Path
import Novaio.Lib.Ring

/-!
# The run queue of a scheduler

`Scheduler::schedule` and `Scheduler::try_dequeue_batch` of `src/scheduler.cpp` keep the runnable
coroutines of a core in the `runnext_` slot and, behind it, in the `LocalQueue` of
`concurrent_queues.hpp`: a ring of `capacity_` handles with wrapping 32-bit counters. Its `push`
does not check for room.

The abstract view is the list `RunQueue.contents` of handles that are due, in the order in which
they come out. `tryDequeueBatch_spec` says that a batch is a prefix of it. `schedule_balanced_iff`
says exactly when scheduling adds the handle and loses none (`HasRoom`).
-/

namespace Novaio

open Transition

variable {η : Type*}

/-! ## `LocalQueue` -/

/-- `LocalQueue`, whose capacity is a power of two. A null handle is `none`. -/
structure LocalQueue (η : Type*) where
  capacity : ℕ
  power_of_two : ∃ k, capacity = 2 ^ k
  head : UInt32
  tail : UInt32
  buffer : ℕ → Option η

/-- `mask_`. -/
def LocalQueue.mask (q : LocalQueue η) : ℕ := q.capacity - 1

/-- `LocalQueue::push`, which has no check for room. -/
def LocalQueue.push (q : LocalQueue η) (item : Option η) : LocalQueue η :=
  { q with
    buffer := Function.update q.buffer (q.tail.toNat &&& q.mask) item
    tail := q.tail + 1 }

/-- `LocalQueue::pop`. -/
def LocalQueue.pop (q : LocalQueue η) : Option η × LocalQueue η :=
  if q.head = q.tail then (none, q)
  else (q.buffer (q.head.toNat &&& q.mask), { q with head := q.head + 1 })

/-! ## The run queue -/

/-- The runnable coroutines of a `Scheduler`: `runnext_` and `local_queue_`. -/
structure RunQueue (η : Type*) where
  runnext : Option η
  localQueue : LocalQueue η

/-- `Scheduler::schedule`. -/
def RunQueue.schedule (q : RunQueue η) (handle : Option η) : RunQueue η :=
  if q.runnext.isNone then { q with runnext := handle }
  else { q with localQueue := q.localQueue.push handle }

/-- The loop of `Scheduler::try_dequeue_batch`, with room for `n` more handles. -/
def LocalQueue.popBatch : ℕ → LocalQueue η → List η × LocalQueue η
  | 0, q => ([], q)
  | n + 1, q =>
    match q.pop with
    | (some h, q) =>
      let (batch, q) := popBatch n q
      (h :: batch, q)
    | (none, q) => ([], q)

/-- `Scheduler::try_dequeue_batch`: the handles written to `batch_out`, whose number is the result,
and the queue left. -/
def RunQueue.tryDequeueBatch (q : RunQueue η) (maxCount : ℕ) : List η × RunQueue η :=
  match q.runnext with
  | some h =>
    -- The handle in `runnext_` comes first, and counts.
    let (batch, rest) := q.localQueue.popBatch (maxCount - 1)
    (h :: batch, ⟨none, rest⟩)
  | none =>
    let (batch, rest) := q.localQueue.popBatch maxCount
    (batch, ⟨none, rest⟩)

/-- The queue of a `Scheduler` as constructed, over the handles `mem` that the ring's memory
holds. The default capacity is 65536. -/
def RunQueue.new (mem : ℕ → Option η) : RunQueue η :=
  ⟨none, ⟨65536, Ring.exists_eq_two_pow_16, 0, 0, mem⟩⟩

/-! ## The abstract view -/

/-- The number of handles in the ring, by its counters. -/
def LocalQueue.size (q : LocalQueue η) : ℕ := Ring.count (2 ^ 32) q.head.toNat q.tail.toNat

/-- The slots of the ring from the head to the tail. -/
def LocalQueue.slots (q : LocalQueue η) : List (Option η) :=
  Ring.window q.capacity q.buffer q.head.toNat q.size

/-- The handles due, in the order in which they come out. -/
def RunQueue.contents (q : RunQueue η) : List (Option η) :=
  (q.runnext.map some).toList ++ q.localQueue.slots

/-- What every queue in use has: a capacity that the counters can hold, and no null handle between
head and tail. -/
structure LocalQueue.WellFormed (q : LocalQueue η) : Prop where
  capacity_le : q.capacity ≤ 2 ^ 31
  filled : ∀ h ∈ q.slots, h.isSome

namespace LocalQueue

variable {q : LocalQueue η}

/-- `head_` has 32 bits. -/
theorem head_lt (q : LocalQueue η) : q.head.toNat < 2 ^ 32 := q.head.toNat_lt

/-- `tail_` has 32 bits. -/
theorem tail_lt (q : LocalQueue η) : q.tail.toNat < 2 ^ 32 := q.tail.toNat_lt

/-- Masking is reduction modulo the capacity. -/
theorem and_mask (q : LocalQueue η) (x : ℕ) : x &&& q.mask = x % q.capacity :=
  Ring.and_sub_one q.power_of_two x

/-- The counters wrap at a multiple of the capacity. -/
theorem capacity_dvd (hq : q.capacity ≤ 2 ^ 31) : q.capacity ∣ 2 ^ 32 :=
  Ring.dvd_two_pow q.power_of_two (by omega)

/-- The slot past the window is the tail's. -/
theorem slot_tail (hq : q.capacity ≤ 2 ^ 31) :
    (q.head.toNat + q.size) % q.capacity = q.tail.toNat % q.capacity :=
  Ring.slot_add_count (capacity_dvd hq) q.head_lt q.tail_lt

/-- A pop takes the first of the slots, if there is one. -/
theorem pop_spec (hw : q.WellFormed) :
    (q.slots = [] ∧ q.pop = (none, q)) ∨
      ∃ h q', q.pop = (some h, q') ∧ q.slots = some h :: q'.slots ∧ q'.WellFormed := by
  unfold pop
  by_cases heq : q.head = q.tail
  · left
    have hsize : q.size = 0 := (Ring.count_eq_zero_iff q.head_lt q.tail_lt).mpr (by rw [heq])
    refine ⟨?_, if_pos heq⟩
    unfold slots
    rw [hsize, Ring.window_zero]
  · right
    rw [if_neg heq, and_mask]
    set q' : LocalQueue η := { q with head := q.head + 1 } with hq'
    have hpos : 0 < q.size := by
      rw [Nat.pos_iff_ne_zero]
      intro h0
      exact heq (UInt32.toNat_inj.mp ((Ring.count_eq_zero_iff q.head_lt q.tail_lt).mp h0))
    have hhead : q'.head.toNat = (q.head.toNat + 1) % 2 ^ 32 := by
      simp [hq', UInt32.toNat_add]
    have hsize : q'.size + 1 = q.size := by
      unfold size
      rw [hhead]
      exact Ring.count_succ_left q.head_lt q.tail_lt hpos
    have hslots : q.slots = q.buffer (q.head.toNat % q.capacity) :: q'.slots := by
      unfold slots
      rw [← hsize, Ring.window_succ_left, hhead, Ring.window_mod (capacity_dvd hw.capacity_le)]
    -- The slot of the head is in use, so that it has a handle.
    have hsome := hw.filled (q.buffer (q.head.toNat % q.capacity))
      (by rw [hslots]; exact List.mem_cons_self)
    obtain ⟨h, hh⟩ := Option.isSome_iff_exists.mp hsome
    refine ⟨h, q', by rw [hh], by rw [hslots, hh], hw.capacity_le, ?_⟩
    intro x hx
    exact hw.filled x (by rw [hslots]; exact List.mem_cons_of_mem _ hx)

/-- A batch of pops takes the first slots, as many as there are up to its size. -/
theorem popBatch_spec (n : ℕ) (hw : q.WellFormed) :
    q.slots = (q.popBatch n).1.map some ++ (q.popBatch n).2.slots ∧
      (q.popBatch n).2.WellFormed ∧
      (q.popBatch n).1.length = min n q.slots.length := by
  induction n generalizing q with
  | zero => simp [popBatch, hw]
  | succ n ih =>
    rcases pop_spec hw with ⟨hslots, hpop⟩ | ⟨h, q', hpop, hslots, hw'⟩
    · simp [popBatch, hpop, hslots, hw]
    · obtain ⟨hcat, hwf, hlen⟩ := ih hw'
      simp only [popBatch, hpop, hslots, List.map_cons, List.cons_append, List.length_cons]
      exact ⟨by rw [← hcat], hwf, by omega⟩

/-- The slots after a push. The counters meet again at `2 ^ 32` handles, and the queue then counts
as empty. -/
theorem push_slots (q : LocalQueue η) (item : Option η) :
    (q.push item).slots =
      if q.size + 1 < 2 ^ 32 then
        Ring.window q.capacity (Function.update q.buffer (q.tail.toNat % q.capacity) item)
          q.head.toNat (q.size + 1)
      else [] := by
  have htail : (q.push item).tail.toNat = (q.tail.toNat + 1) % 2 ^ 32 := by
    simp [push, UInt32.toNat_add]
  have hlt : q.size < 2 ^ 32 := Ring.count_lt (by omega)
  have hcap : (q.push item).capacity = q.capacity := rfl
  have hhead : (q.push item).head = q.head := rfl
  have hbuf : (q.push item).buffer =
      Function.update q.buffer (q.tail.toNat % q.capacity) item := by
    rw [← and_mask]
    rfl
  unfold slots
  rw [hcap, hhead, hbuf]
  split_ifs with h
  · have hsize : (q.push item).size = q.size + 1 := by
      rw [size, htail, hhead]
      exact Ring.count_succ_right q.head_lt q.tail_lt h
    rw [hsize]
  · have hsize : (q.push item).size = 0 := by
      rw [size, htail, hhead]
      apply Ring.count_succ_right_wrap q.head_lt q.tail_lt
      rw [size] at h hlt
      omega
    rw [hsize, Ring.window_zero]

/-- A push of a handle that is not null keeps the queue well formed. -/
theorem push_wellFormed (hw : q.WellFormed) (h : η) : (q.push (some h)).WellFormed := by
  refine ⟨hw.capacity_le, ?_⟩
  rw [push_slots]
  split_ifs
  · rw [Ring.window_succ, slot_tail hw.capacity_le, Function.update_self]
    intro x hx
    rcases List.mem_append.mp hx with hx | hx
    · obtain ⟨i, hi, rfl⟩ := List.mem_map.mp hx
      rcases eq_or_ne ((q.head.toNat + i) % q.capacity) (q.tail.toNat % q.capacity) with hs | hs
      · rw [hs, Function.update_self]
        rfl
      · rw [Function.update_of_ne hs]
        exact hw.filled _ (List.mem_map_of_mem hi)
    · rw [List.mem_singleton.mp hx]
      rfl
  · simp

/-- Where a push adds its handle and keeps every other: the ring is not full, or the handle that
it overwrites is the one pushed and the counters do not meet. -/
def HasRoom (q : LocalQueue η) (h : η) : Prop :=
  q.size < q.capacity ∨
    q.size + 1 < 2 ^ 32 ∧ q.buffer (q.tail.toNat % q.capacity) = some h

/-- A push with room appends its handle. -/
theorem push_slots_of_hasRoom (hw : q.WellFormed) {h : η} (hr : q.HasRoom h) :
    (q.push (some h)).slots = q.slots ++ [some h] := by
  have hcap := hw.capacity_le
  have hlt : q.size + 1 < 2 ^ 32 := by
    rcases hr with hr | hr
    · omega
    · exact hr.1
  rw [push_slots, if_pos hlt, ← slot_tail hcap]
  rcases hr with hr | ⟨-, hr⟩
  · exact Ring.window_push hr
  · rw [Ring.window_succ, slot_tail hcap, ← hr, Function.update_eq_self]
    rfl

/-- Where pushing `h` leaves the handle `k` in the queue, if `k` is in it or is `h` itself: the
handle that a full ring overwrites is another one, and the counters do not meet. -/
def Keeps (q : LocalQueue η) (h k : η) : Prop :=
  q.size < q.capacity ∨
    q.size + 1 < 2 ^ 32 ∧ (h = k ∨ q.buffer (q.tail.toNat % q.capacity) ≠ some k)

/-- A handle that is kept is in the queue after the push. -/
theorem Keeps.mem_push (hw : q.WellFormed) {h k : η} (hkeep : q.Keeps h k)
    (hk : h = k ∨ some k ∈ q.slots) : some k ∈ (q.push (some h)).slots := by
  have hcap := hw.capacity_le
  rcases hkeep with hroom | ⟨hlt, hslot⟩
  · rw [push_slots_of_hasRoom hw (.inl hroom)]
    rcases hk with rfl | hk
    · simp
    · exact List.mem_append_left _ hk
  · rw [push_slots, if_pos hlt, Ring.window_succ, slot_tail hcap, Function.update_self]
    by_cases hhk : h = k
    · simp [hhk]
    · obtain ⟨i, hi, hread⟩ := List.mem_map.mp (hk.resolve_left hhk)
      have hne : (q.head.toNat + i) % q.capacity ≠ q.tail.toNat % q.capacity := by
        intro heq
        exact hslot.resolve_left hhk (heq ▸ hread)
      refine List.mem_append_left _ (List.mem_map.mpr ⟨i, hi, ?_⟩)
      rw [Function.update_of_ne hne, hread]

/-- A push adds no handle but its own. -/
theorem mem_of_mem_push (hw : q.WellFormed) {h : η} {k : Option η}
    (hk : k ∈ (q.push (some h)).slots) : k = some h ∨ k ∈ q.slots := by
  have hcap := hw.capacity_le
  rw [push_slots] at hk
  split_ifs at hk with hlt
  · rw [Ring.window_succ, slot_tail hcap, Function.update_self] at hk
    rcases List.mem_append.mp hk with hk | hk
    · obtain ⟨i, hi, rfl⟩ := List.mem_map.mp hk
      by_cases hslot : (q.head.toNat + i) % q.capacity = q.tail.toNat % q.capacity
      · exact .inl (by rw [hslot, Function.update_self])
      · rw [Function.update_of_ne hslot]
        exact .inr (List.mem_map_of_mem hi)
    · exact .inl (List.mem_singleton.mp hk)
  · exact (List.not_mem_nil hk).elim

/-- A push without room loses handles: there are too few left, or too few copies of the one
overwritten. -/
theorem push_slots_of_not_hasRoom [DecidableEq η] (hw : q.WellFormed) {h : η}
    (hr : ¬ q.HasRoom h) :
    (q.push (some h)).slots.length < q.slots.length ∨
      ∃ g, g ≠ h ∧ (q.push (some h)).slots.count (some g) < q.slots.count (some g) := by
  have hcap := hw.capacity_le
  obtain ⟨hfull, hdiff⟩ := not_or.mp hr
  obtain ⟨k, hk⟩ := q.power_of_two
  have hpos : 0 < q.capacity := by
    rw [hk]
    exact Nat.two_pow_pos k
  rw [push_slots]
  by_cases hlt : q.size + 1 < 2 ^ 32
  · right
    rw [if_pos hlt]
    -- The slot of the tail is read by a position that is still queued.
    have hread : ∃ i < q.size, (q.head.toNat + i) % q.capacity = q.tail.toNat % q.capacity := by
      refine ⟨q.size - q.capacity, by omega, ?_⟩
      rw [← slot_tail hcap, ← Nat.add_mod_right (q.head.toNat + (q.size - q.capacity))]
      congr 1
      omega
    obtain ⟨i, hi, hslot⟩ := hread
    have hsome : (q.buffer (q.tail.toNat % q.capacity)).isSome := by
      rw [← hslot]
      exact hw.filled _ (List.mem_map_of_mem (List.mem_range.mpr hi))
    obtain ⟨g, hg⟩ := Option.isSome_iff_exists.mp hsome
    have hne : g ≠ h := by
      rintro rfl
      exact hdiff ⟨hlt, hg⟩
    have hne' : (some h : Option η) ≠ some g := fun e => hne (Option.some.inj e).symm
    refine ⟨g, hne, ?_⟩
    have := (Ring.count_window_update (n := q.size) hg hne').2
      ⟨i, hi, hslot⟩
    rw [Ring.window_succ, List.count_append, slot_tail hcap, Function.update_self,
      List.count_singleton, if_neg (by simpa using hne'), Nat.add_zero]
    exact this
  · left
    rw [if_neg hlt, List.length_nil, slots, Ring.length_window]
    omega

end LocalQueue

/-- The loop of `try_dequeue_batch` leaves the capacity. -/
theorem RunQueue.popBatch_capacity (n : ℕ) (q : LocalQueue η) :
    (q.popBatch n).2.capacity = q.capacity := by
  induction n generalizing q with
  | zero => rfl
  | succ n ih =>
    have hpop : q.pop.2.capacity = q.capacity := by
      rw [LocalQueue.pop]
      split_ifs <;> rfl
    rw [LocalQueue.popBatch]
    split <;> rename_i hq <;> rw [hq] at hpop
    · exact (ih _).trans hpop
    · exact hpop

/-- A batch is the first handles due, as many as there are up to its size. -/
theorem RunQueue.tryDequeueBatch_spec {q : RunQueue η} (n : ℕ) (hn : 1 ≤ n)
    (hw : q.localQueue.WellFormed) :
    q.contents = (q.tryDequeueBatch n).1.map some ++ (q.tryDequeueBatch n).2.contents ∧
      (q.tryDequeueBatch n).2.localQueue.WellFormed ∧
      (q.tryDequeueBatch n).1.length = min n q.contents.length := by
  obtain ⟨runnext, lq⟩ := q
  cases runnext with
  | none =>
    obtain ⟨hcat, hwf, hlen⟩ := LocalQueue.popBatch_spec n hw
    simp only [contents, tryDequeueBatch, Option.map_none, Option.toList_none, List.nil_append]
    exact ⟨hcat, hwf, hlen⟩
  | some h =>
    obtain ⟨hcat, hwf, hlen⟩ := LocalQueue.popBatch_spec (n - 1) hw
    refine ⟨?_, hwf, ?_⟩
    · simp only [contents, tryDequeueBatch, Option.map_some, Option.toList_some, Option.map_none,
        Option.toList_none, List.map_cons, List.cons_append, List.nil_append]
      rw [← hcat]
    · simp only [contents, tryDequeueBatch, Option.map_some, Option.toList_some,
        List.singleton_append, List.length_cons]
      dsimp only at hlen
      omega

/-- Scheduling a handle that is not null keeps the queue well formed. -/
theorem RunQueue.schedule_wellFormed {q : RunQueue η} (hw : q.localQueue.WellFormed) (h : η) :
    (q.schedule (some h)).localQueue.WellFormed := by
  unfold schedule
  split_ifs
  · exact hw
  · exact LocalQueue.push_wellFormed hw h

/-- Where scheduling `h` leaves the handle `k` due, if `k` is due or is `h` itself. -/
def RunQueue.Keeps (q : RunQueue η) (h k : η) : Prop :=
  q.runnext = none ∨ q.localQueue.Keeps h k

/-- A handle that is kept is due after the call. -/
theorem RunQueue.Keeps.mem_contents {q : RunQueue η} {h k : η} (hkeep : q.Keeps h k)
    (hw : q.localQueue.WellFormed) (hk : h = k ∨ some k ∈ q.contents) :
    some k ∈ (q.schedule (some h)).contents := by
  unfold schedule
  cases hrun : q.runnext with
  | none =>
    have hk : h = k ∨ some k ∈ q.localQueue.slots := by simpa [contents, hrun] using hk
    rcases hk with rfl | hk
    · simp [contents]
    · simp [contents, hk]
  | some g =>
    have hk : k = g ∨ h = k ∨ some k ∈ q.localQueue.slots := by
      simp only [contents, hrun, Option.map_some, Option.toList_some, List.singleton_append,
        List.mem_cons, Option.some.injEq] at hk
      tauto
    have hlocal := hkeep.resolve_left (by simp [hrun])
    simp only [Option.isNone_some, Bool.false_eq_true, if_false, contents, Option.map_some,
      Option.toList_some, List.singleton_append, List.mem_cons, Option.some.injEq]
    exact hk.imp_right (hlocal.mem_push hw)

/-- Scheduling a handle makes no other one due. -/
theorem RunQueue.mem_of_mem_schedule {q : RunQueue η} (hw : q.localQueue.WellFormed) {h : η}
    {k : Option η} (hk : k ∈ (q.schedule (some h)).contents) : k = some h ∨ k ∈ q.contents := by
  unfold schedule at hk
  cases hrun : q.runnext with
  | none =>
    simp only [hrun, Option.isNone_none, if_true, contents, Option.map_some, Option.toList_some,
      List.singleton_append, List.mem_cons] at hk
    exact hk.imp_right fun hk => by simp [contents, hrun, hk]
  | some g =>
    simp only [hrun, Option.isNone_some, Bool.false_eq_true, if_false, contents, Option.map_some,
      Option.toList_some, List.singleton_append, List.mem_cons] at hk
    rcases hk with rfl | hk
    · exact .inr (by simp [contents, hrun])
    · exact (LocalQueue.mem_of_mem_push hw hk).imp_right fun hk => by simp [contents, hrun, hk]

/-- The queue of a new scheduler is well formed and empty. -/
theorem RunQueue.new_wellFormed (mem : ℕ → Option η) :
    (RunQueue.new mem).localQueue.WellFormed ∧ (RunQueue.new mem).contents = [] := by
  have hsize : (RunQueue.new mem).localQueue.size = 0 :=
    (Ring.count_eq_zero_iff (LocalQueue.head_lt _) (LocalQueue.tail_lt _)).mpr rfl
  have hslots : (RunQueue.new mem).localQueue.slots = [] := by
    rw [LocalQueue.slots, hsize, Ring.window_zero]
  have hcap : (RunQueue.new mem).localQueue.capacity = 65536 := rfl
  refine ⟨⟨by rw [hcap]; omega, by rw [hslots]; simp⟩, ?_⟩
  rw [contents, hslots]
  rfl

/-! ## Runs -/

/-- A queue with the handles scheduled and returned so far. -/
structure RunState (η : Type*) where
  queue : RunQueue η
  scheduled : List η
  returned : List η

/-- A call of `schedule` with a handle that is not null, or of `try_dequeue_batch`. -/
inductive RunOp (η : Type*) where
  | schedule (handle : η)
  | dequeue (maxCount : ℕ)

/-- The effect of a call. -/
def runStep (s : RunState η) (op : RunOp η) (t : RunState η) : Prop :=
  match op with
  | .schedule h => t = ⟨s.queue.schedule (some h), s.scheduled ++ [h], s.returned⟩
  | .dequeue n => 1 ≤ n ∧
      t = ⟨(s.queue.tryDequeueBatch n).2, s.scheduled,
        s.returned ++ (s.queue.tryDequeueBatch n).1⟩

/-- A new scheduler's queue, before any call. -/
def runStart (mem : ℕ → Option η) : RunState η := ⟨RunQueue.new mem, [], []⟩

/-- The run consists of calls of `try_dequeue_batch`. -/
def Dequeues (l : List (RunOp η × RunState η)) : Prop := ∀ x ∈ l, ∃ n, x.1 = .dequeue n

/-- The law of conservation, in one state: no handle was returned more often than it was
scheduled, and each exactly as often if a call of `try_dequeue_batch` now returns 0. -/
def Counted [DecidableEq η] (s : RunState η) : Prop :=
  (∀ h, s.returned.count h ≤ s.scheduled.count h) ∧
    ∀ n, 1 ≤ n → (s.queue.tryDequeueBatch n).1.length = 0 →
      ∀ h, s.returned.count h = s.scheduled.count h

/-- The law of conservation, in a state and in every state that calls of `try_dequeue_batch` lead
to from it. -/
def CountedThroughout [DecidableEq η] (s : RunState η) : Prop :=
  ∀ l, Path runStep s l → Dequeues l → Counted (last s l)

/-- The condition on a call that the ring has room for what it schedules, unless it goes to
`runnext_`. -/
def ScheduleHasRoom (s : RunState η) : RunOp η → Prop
  | .schedule h => s.queue.runnext = none ∨ s.queue.localQueue.HasRoom h
  | .dequeue _ => True

/-- The handles returned and those due are, in some order, those scheduled. -/
def Balanced (s : RunState η) : Prop :=
  (s.returned.map some ++ s.queue.contents).Perm (s.scheduled.map some)

/-- Every call keeps the queue well formed. -/
theorem runStep_wellFormed (s : RunState η) (op : RunOp η) (t : RunState η)
    (hw : s.queue.localQueue.WellFormed) (hstep : runStep s op t) :
    t.queue.localQueue.WellFormed := by
  cases op with
  | schedule h =>
    rw [runStep] at hstep
    subst hstep
    exact RunQueue.schedule_wellFormed hw h
  | dequeue n =>
    obtain ⟨hn, rfl⟩ := hstep
    exact (RunQueue.tryDequeueBatch_spec n hn hw).2.1

/-- The step lemma of `try_dequeue_batch`: what it takes off the queue it returns. -/
theorem dequeue_balanced_iff {s t : RunState η} {n : ℕ} (hw : s.queue.localQueue.WellFormed)
    (hstep : runStep s (.dequeue n) t) : Balanced t ↔ Balanced s := by
  obtain ⟨hn, rfl⟩ := hstep
  obtain ⟨hcat, -, -⟩ := RunQueue.tryDequeueBatch_spec n hn hw
  unfold Balanced
  rw [List.map_append, List.append_assoc, ← hcat]

/-- The step lemma of `schedule`: a balanced queue stays balanced if and only if the call has
room. -/
theorem schedule_balanced_iff [DecidableEq η] {s t : RunState η} {h : η}
    (hw : s.queue.localQueue.WellFormed) (hb : Balanced s) (hstep : runStep s (.schedule h) t) :
    Balanced t ↔ ScheduleHasRoom s (.schedule h) := by
  obtain ⟨⟨runnext, lq⟩, scheduled, returned⟩ := s
  rw [runStep] at hstep
  subst hstep
  unfold Balanced ScheduleHasRoom RunQueue.contents at *
  cases runnext with
  | none =>
    refine iff_of_true ?_ (.inl rfl)
    simp only [RunQueue.schedule, Option.isNone_none, if_true, Option.map_some,
      Option.toList_some, Option.map_none, Option.toList_none, List.nil_append,
      List.map_append, List.map_cons, List.map_nil, List.singleton_append] at hb ⊢
    calc List.Perm _ (some h :: (returned.map some ++ lq.slots)) := List.perm_middle
      List.Perm _ (some h :: scheduled.map some) := hb.cons _
      List.Perm _ (scheduled.map some ++ [some h]) := (List.perm_append_singleton _ _).symm
  | some g =>
    simp only [RunQueue.schedule, Option.isNone_some, Bool.false_eq_true, if_false,
      Option.map_some, Option.toList_some, reduceCtorEq, false_or, List.map_append,
      List.map_cons, List.map_nil, List.singleton_append] at hb ⊢
    constructor
    · -- Without room, a handle is lost: the ring is shorter, or another handle is counted less.
      intro hp
      by_contra hr
      rcases LocalQueue.push_slots_of_not_hasRoom hw hr with hlt | ⟨x, hx, hlt⟩ <;>
        dsimp only at hlt
      · have h1 := hp.length_eq
        have h2 := hb.length_eq
        simp only [List.length_append, List.length_cons, List.length_map, List.length_nil]
          at h1 h2
        omega
      · have h1 := hp.count_eq (some x)
        have h2 := hb.count_eq (some x)
        have hne : (some h == some x) = false := by simpa using Ne.symm hx
        simp only [List.count_append, List.count_cons, List.count_nil, hne] at h1 h2
        simp only [Bool.false_eq_true, if_false] at h1
        omega
    · intro hr
      rw [LocalQueue.push_slots_of_hasRoom hw hr, ← List.cons_append, ← List.append_assoc]
      exact hb.append_right _

/-- A balanced queue meets the law of conservation. -/
theorem Balanced.counted [DecidableEq η] {s : RunState η} (hw : s.queue.localQueue.WellFormed)
    (hb : Balanced s) : Counted s := by
  have hinj := Option.some_injective η
  constructor
  · intro h
    have hc := hb.count_eq (some h)
    rw [List.count_append, List.count_map_of_injective _ _ hinj,
      List.count_map_of_injective _ _ hinj] at hc
    omega
  · intro n hn hzero h
    obtain ⟨-, -, hlen⟩ := RunQueue.tryDequeueBatch_spec n hn hw
    have hempty : s.queue.contents = [] := by
      rw [← List.length_eq_zero_iff]
      omega
    unfold Balanced at hb
    rw [hempty, List.append_nil] at hb
    have hc := hb.count_eq (some h)
    rwa [List.count_map_of_injective _ _ hinj, List.count_map_of_injective _ _ hinj] at hc

/-- Calls of `try_dequeue_batch` keep a queue balanced. -/
theorem Balanced.dequeues {s : RunState η} {l : List (RunOp η × RunState η)}
    (hw : s.queue.localQueue.WellFormed) (hb : Balanced s) (hl : Path runStep s l)
    (hd : Dequeues l) : (last s l).queue.localQueue.WellFormed ∧ Balanced (last s l) := by
  induction l generalizing s with
  | nil => exact ⟨hw, hb⟩
  | cons x l ih =>
    obtain ⟨⟨n, hn⟩, hrest⟩ := List.forall_mem_cons.mp hd
    have hstep := hl.1
    have hw' := runStep_wellFormed _ _ _ hw hstep
    rw [hn] at hstep
    exact ih hw' ((dequeue_balanced_iff hw hstep).mpr hb) hl.2 hrest

/-- The law of conservation holds in a state, and through every drain from it, exactly when the
handles returned and those due are those scheduled. -/
theorem countedThroughout_iff [DecidableEq η] {s : RunState η}
    (hw : s.queue.localQueue.WellFormed) : CountedThroughout s ↔ Balanced s := by
  constructor
  · -- One batch drains the queue, and the handles returned are then those scheduled.
    intro hall
    set n := s.queue.contents.length + 1 with hn
    set t : RunState η := ⟨(s.queue.tryDequeueBatch n).2, s.scheduled,
      s.returned ++ (s.queue.tryDequeueBatch n).1⟩ with ht
    obtain ⟨hcat, hw', hlen⟩ := RunQueue.tryDequeueBatch_spec n (by omega) hw
    have hstep : runStep s (.dequeue n) t := ⟨by omega, rfl⟩
    have hempty : t.queue.contents = [] := by
      have hlen' := congrArg List.length hcat
      rw [List.length_append, List.length_map] at hlen'
      rw [← List.length_eq_zero_iff]
      show (s.queue.tryDequeueBatch n).2.contents.length = 0
      omega
    obtain ⟨-, -, hlen1⟩ := RunQueue.tryDequeueBatch_spec 1 (le_refl _) hw'
    have hcounted := hall [(.dequeue n, t)] ⟨hstep, trivial⟩ (by simp [Dequeues])
    have hzero : (t.queue.tryDequeueBatch 1).1.length = 0 := by
      have hlen0 : (s.queue.tryDequeueBatch n).2.contents.length = 0 := by
        rw [List.length_eq_zero_iff]
        exact hempty
      show ((s.queue.tryDequeueBatch n).2.tryDequeueBatch 1).1.length = 0
      omega
    have hperm : t.returned.Perm t.scheduled :=
      List.perm_iff_count.mpr (hcounted.2 1 (le_refl _) hzero)
    rw [← dequeue_balanced_iff hw hstep]
    unfold Balanced
    rw [hempty, List.append_nil]
    exact hperm.map some
  · intro hb l hl hd
    obtain ⟨hw', hb'⟩ := hb.dequeues hw hl hd
    exact hb'.counted hw'

/-- In every run from a new scheduler, the law of conservation holds in every state reached, and
through every drain from it, if and only if every call of `schedule` has room. -/
theorem run_queue_conserved_iff [DecidableEq η] (mem : ℕ → Option η)
    (l : List (RunOp η × RunState η)) (hl : Path runStep (runStart mem) l) :
    (CountedThroughout (runStart mem) ∧ ∀ x ∈ l, CountedThroughout x.2) ↔
      Meets ScheduleHasRoom (runStart mem) l := by
  obtain ⟨hw, hempty⟩ := RunQueue.new_wellFormed mem
  have hb : Balanced (runStart mem) := by
    unfold Balanced runStart
    rw [hempty]
    exact .refl _
  have hstart : CountedThroughout (runStart mem) := (countedThroughout_iff hw).mpr hb
  rw [and_iff_right hstart]
  refine hl.always_iff_meets (I := fun s => s.queue.localQueue.WellFormed) runStep_wellFormed ?_
    hw hstart
  intro s op t hws hs hstep
  rw [countedThroughout_iff (runStep_wellFormed s op t hws hstep)]
  rw [countedThroughout_iff hws] at hs
  cases op with
  | schedule h => exact schedule_balanced_iff hws hs hstep
  | dequeue n => exact iff_of_true ((dequeue_balanced_iff hws hstep).mpr hs) trivial

/-- Handles go through `runnext_` and the ring, one of them twice. -/
theorem run_queue_conserved_five :
    ∃ l, Path runStep (runStart fun _ => none) l ∧
      l.map Prod.fst = [.schedule 7, .schedule 8, .schedule 9, .dequeue 2, .schedule 10,
        .schedule 8, .dequeue 4] ∧
      (last (runStart fun _ => none) l).returned = [7, 8, 10, 9, 8] ∧
      ∀ x ∈ l, CountedThroughout x.2 := by
  obtain ⟨l, hl, hops, hreturned, hroom⟩ : ∃ l : List (RunOp ℕ × RunState ℕ),
      Path runStep (runStart fun _ => none) l ∧
      l.map Prod.fst = [.schedule 7, .schedule 8, .schedule 9, .dequeue 2, .schedule 10,
        .schedule 8, .dequeue 4] ∧
      (last (runStart fun _ => none) l).returned = [7, 8, 10, 9, 8] ∧
      Meets ScheduleHasRoom (runStart fun _ => none) l :=
    ⟨[(.schedule 7, _), (.schedule 8, _), (.schedule 9, _), (.dequeue 2, _), (.schedule 10, _),
      (.schedule 8, _), (.dequeue 4, _)],
      ⟨rfl, rfl, rfl, ⟨by decide, rfl⟩, rfl, rfl, ⟨by decide, rfl⟩, trivial⟩, rfl, rfl,
      .inl rfl, .inr (.inl (by decide)), .inr (.inl (by decide)), trivial, .inl rfl,
      .inr (.inl (by decide)), trivial, trivial⟩
  exact ⟨l, hl, hops, hreturned, ((run_queue_conserved_iff _ l hl).mpr hroom).2⟩

/-- The calls of `schedule` with the handles of a list, and the states that they lead to. -/
def schedules (s : RunState η) : List η → List (RunOp η × RunState η)
  | [] => []
  | h :: hs =>
    let t := ⟨s.queue.schedule (some h), s.scheduled ++ [h], s.returned⟩
    (.schedule h, t) :: schedules t hs

/-- The calls of `schedule` with the handles of a list are a run. -/
theorem schedules_path (s : RunState η) (hs : List η) :
    Path runStep s (schedules s hs) ∧ (schedules s hs).map Prod.fst = hs.map .schedule := by
  induction hs generalizing s with
  | nil => exact ⟨trivial, rfl⟩
  | cons h hs ih =>
    obtain ⟨hp, hm⟩ := ih ⟨s.queue.schedule (some h), s.scheduled ++ [h], s.returned⟩
    exact ⟨⟨rfl, hp⟩, by simp [schedules, hm]⟩

/-- One more call of `schedule`. -/
theorem schedules_concat (s : RunState η) (hs : List η) (h : η) :
    schedules s (hs ++ [h]) = schedules s hs ++ schedules (last s (schedules s hs)) [h] := by
  induction hs generalizing s with
  | nil => rfl
  | cons g hs ih =>
    simp only [List.cons_append, schedules, last]
    rw [ih]
    rfl

/-- Up to the capacity of the ring, the calls of `schedule` on a new scheduler with the handles
`0, 1, …` fill `runnext_` and then the ring in order. -/
theorem schedules_fill (n : ℕ) (hn : n ≤ 65536) :
    let s := last (runStart fun _ => none) (schedules (runStart fun _ => none)
      (List.range (n + 1)))
    s.queue.runnext = some 0 ∧ s.queue.localQueue.capacity = 65536 ∧
      s.queue.localQueue.WellFormed ∧ Balanced s ∧
      s.queue.localQueue.slots = (List.range n).map fun i => some (i + 1) := by
  induction n with
  | zero =>
    obtain ⟨hw, hempty⟩ := RunQueue.new_wellFormed (fun _ => (none : Option ℕ))
    have hslots : (RunQueue.new fun _ => (none : Option ℕ)).localQueue.slots = [] := by
      simpa [RunQueue.contents, RunQueue.new] using hempty
    refine ⟨rfl, rfl, hw, ?_, hslots⟩
    have hb : Balanced (runStart fun _ => (none : Option ℕ)) := by
      unfold Balanced runStart
      rw [hempty]
      exact .refl _
    exact (schedule_balanced_iff hw hb rfl).mpr (.inl rfl)
  | succ n ih =>
    obtain ⟨hnext, hcap, hw, hb, hslots⟩ := ih (by omega)
    rw [List.range_succ, schedules_concat, last_append]
    set s := last (runStart fun _ => none) (schedules (runStart fun _ => none)
      (List.range (n + 1))) with hs
    -- The ring has taken all but the first one, and there is room.
    have hsize : s.queue.localQueue.size = n := by
      have := congrArg List.length hslots
      rwa [LocalQueue.slots, Ring.length_window, List.length_map, List.length_range] at this
    have hroom : s.queue.localQueue.HasRoom (n + 1) := .inl (by omega)
    have hstep : runStep s (.schedule (n + 1))
      ⟨s.queue.schedule (some (n + 1)), s.scheduled ++ [n + 1], s.returned⟩ := rfl
    have hpush : (s.queue.schedule (some (n + 1))).localQueue =
        s.queue.localQueue.push (some (n + 1)) := by
      simp [RunQueue.schedule, hnext]
    refine ⟨?_, ?_, runStep_wellFormed _ _ _ hw hstep,
      (schedule_balanced_iff hw hb hstep).mpr (.inr hroom), ?_⟩
    · simp [schedules, last, RunQueue.schedule, hnext]
    · simp only [schedules, last, hpush]
      exact hcap
    · simp only [schedules, last, hpush]
      rw [LocalQueue.push_slots_of_hasRoom hw hroom, hslots, List.range_succ, List.map_append]
      rfl

/-- One handle more than the ring and `runnext_` hold overwrites a handle that is still due. -/
theorem schedules_overflow {n : ℕ} (hn : n = 65536) :
    ¬ CountedThroughout (last (runStart fun _ => none) (schedules (runStart fun _ => none)
      (List.range (n + 2)))) := by
  obtain ⟨hnext, hcap, hw, hb, hslots⟩ := schedules_fill n (by omega)
  rw [List.range_succ, schedules_concat, last_append]
  set s := last (runStart fun _ => none) (schedules (runStart fun _ => none)
    (List.range (n + 1))) with hs
  have hstep : runStep s (.schedule (n + 1))
    ⟨s.queue.schedule (some (n + 1)), s.scheduled ++ [n + 1], s.returned⟩ := rfl
  have hsize : s.queue.localQueue.size = n := by
    have := congrArg List.length hslots
    rwa [LocalQueue.slots, Ring.length_window, List.length_map, List.length_range] at this
  -- The slot of the tail is that of the head, which holds the handle 1.
  have hhead : s.queue.localQueue.buffer (s.queue.localQueue.tail.toNat % 65536) = some 1 := by
    have hslot := LocalQueue.slot_tail hw.capacity_le
    rw [hcap, hsize, hn, Nat.add_mod_right] at hslot
    rw [LocalQueue.slots, hcap, hsize] at hslots
    obtain ⟨m, rfl⟩ : ∃ m, n = m + 1 := ⟨n - 1, by omega⟩
    rw [Ring.window_succ_left, List.range_succ_eq_map, List.map_cons] at hslots
    rw [← hslot]
    exact (List.cons.inj hslots).1
  have hnot : ¬ ScheduleHasRoom s (.schedule (n + 1)) := by
    unfold ScheduleHasRoom LocalQueue.HasRoom
    rw [hnext, hcap, hsize, hhead]
    simp [hn]
  simp only [schedules, last]
  rw [countedThroughout_iff (runStep_wellFormed _ _ _ hw hstep)]
  exact fun h => hnot ((schedule_balanced_iff hw hb hstep).mp h)

/-- A burst of 65538 handles: the last one overwrites the second, so that a drain returns one
handle twice and another not at all. -/
theorem run_queue_not_conserved :
    ∃ l, Path runStep (runStart fun _ => none) l ∧
      l.map Prod.fst = (List.range (65536 + 2)).map RunOp.schedule ∧
      ¬ CountedThroughout (last (runStart fun _ => none) l) := by
  generalize hn : 65536 = n
  obtain ⟨hp, hm⟩ := schedules_path (runStart fun _ => none) (List.range (n + 2))
  exact ⟨_, hp, hm, schedules_overflow hn.symm⟩

end Novaio
