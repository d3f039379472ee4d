import Novaio.TimeWheel.Count
import Novaio.Worker.Blocked

/-!
# Coroutines that sleep again and again

Coroutines that each sleep for 1 ms are resumed two ticks later, and sleep again. The count of the
timers goes up with every sleep, and does not go down when a timer fires, so that after enough
rounds it has gone round. The scheduler then waits without a timeout, while the coroutines sleep
(`sleepers_not_woken`).
-/

namespace Novaio

open Transition

/-! ## The run queue -/

namespace RunQueue

variable {η : Type*} {q : RunQueue η} {handles : List η}

/-- The handles due, with room in the ring. A handle is due next if any is due. -/
structure Lines (q : RunQueue η) (handles : List η) : Prop where
  wellFormed : q.localQueue.WellFormed
  capacity : q.localQueue.capacity = 65536
  contents : q.contents = handles.map some
  runnext : q.runnext = none → handles = []

/-- The queue of a new scheduler. -/
theorem new_lines (mem : ℕ → Option η) : (RunQueue.new mem).Lines [] :=
  ⟨(new_wellFormed mem).1, rfl, (new_wellFormed mem).2, fun _ => rfl⟩

/-- A handle that is scheduled is the last one due. -/
theorem Lines.schedule (h : q.Lines handles) (hroom : handles.length ≤ 65536) (handle : η) :
    (q.schedule (some handle)).Lines (handles ++ [handle]) := by
  have hcontents := h.contents
  have hlength := congrArg List.length hcontents
  refine ⟨schedule_wellFormed h.wellFormed handle, ?_, ?_, ?_⟩
  · rw [RunQueue.schedule]
    split_ifs <;> exact h.capacity
  · cases hnext : q.runnext with
    | none =>
      obtain rfl := h.runnext hnext
      simp only [RunQueue.contents, hnext] at hcontents
      simpa [RunQueue.contents, RunQueue.schedule, hnext] using hcontents
    | some g =>
      simp only [RunQueue.contents, hnext, LocalQueue.slots, Ring.length_window, Option.map_some,
        Option.toList_some, List.singleton_append, List.length_cons, List.length_map] at hlength
      have hlt : q.localQueue.size < q.localQueue.capacity := by
        rw [h.capacity]
        omega
      have hpush := LocalQueue.push_slots_of_hasRoom h.wellFormed (h := handle) (.inl hlt)
      have hsame : (q.schedule (some handle)).contents = q.contents ++ [some handle] := by
        simp [RunQueue.contents, RunQueue.schedule, hnext, hpush]
      rw [hsame, hcontents, List.map_append, List.map_singleton]
  · intro hnone
    rw [RunQueue.schedule] at hnone
    split_ifs at hnone with hnext
    rw [hnone] at hnext
    simp at hnext

/-- A batch of all handles due leaves none. -/
theorem Lines.tryDequeueBatch (h : q.Lines handles) (hle : handles.length ≤ 16) :
    (q.tryDequeueBatch 16).1 = handles ∧ (q.tryDequeueBatch 16).2.Lines [] := by
  obtain ⟨hcontents, hwellFormed, hlength⟩ := tryDequeueBatch_spec 16 (by decide) h.wellFormed
  rw [h.contents] at hcontents hlength
  have hcount := congrArg List.length hcontents
  rw [List.length_append, List.length_map, List.length_map] at hcount
  rw [List.length_map] at hlength
  have hnil : (q.tryDequeueBatch 16).2.contents = [] := List.length_eq_zero_iff.mp (by omega)
  rw [hnil, List.append_nil] at hcontents
  refine ⟨(List.map_injective_iff.mpr (Option.some_injective η) hcontents).symm, hwellFormed, ?_,
    hnil, fun _ => rfl⟩
  rw [RunQueue.tryDequeueBatch]
  split <;> exact (popBatch_capacity _ _).trans h.capacity

end RunQueue

/-! ## The wheel -/

namespace TimeWheel

variable {ν η : Type*} [DecidableEq ν] {w w' : TimeWheel ν η} {lists : Slot → List ν}
  {pending : List ν} {n : ν} {t : UInt64}

/-- All timers are in `tv1_`. -/
def Near (w : TimeWheel ν η) : Prop := ∀ tv i, w.heads (.tvn tv i) = none

/-- Where all timers are in `tv1_`, nothing is cascaded, and so `tick` leaves the count. -/
theorem Near.tickLoop {current : Bool} {walk fuel : ℕ} (hw : w.Near)
    (h : tickLoop current walk t fuel w = some w') :
    w'.Near ∧ w'.activeTimers = w.activeTimers := by
  induction fuel generalizing w with
  | zero =>
    obtain ⟨-, h⟩ := Option.ite_none_left_eq_some.mp h
    obtain rfl := Option.some.inj h
    exact ⟨hw, rfl⟩
  | succ fuel ih =>
    rw [TimeWheel.tickLoop] at h
    split_ifs at h
    · obtain ⟨w₁, hw₁, h⟩ := Option.bind_eq_some_iff.mp h
      obtain ⟨w₂, hw₂, hrest⟩ := Option.bind_eq_some_iff.mp hw₁
      obtain ⟨w₃, hw₃, hrest⟩ := Option.bind_eq_some_iff.mp hrest
      obtain rfl := Option.some.inj hrest
      rw [cascades_none walk fun tv _ _ => hw tv _] at hw₂
      obtain rfl := Option.some.inj hw₂
      obtain ⟨hheads, -, hfire⟩ := fireLoop_frame hw₃
      rw [setHead_activeTimers] at hfire
      have hnear : w₃.Near := fun tv i => by
        rw [hheads, setHead_heads, Function.update_of_ne (by simp)]
        exact hw tv i
      obtain ⟨hnear', hcount⟩ := ih (w := { w₃ with currentTick := w₃.currentTick + 1 }) hnear h
      exact ⟨hnear', hcount.trans hfire⟩
    · obtain rfl := Option.some.inj h
      exact ⟨hw, rfl⟩

/-- The slot of a timer that expires at the next tick. -/
theorem slotFor_next (c : UInt64) : slotFor (c + 1) c = .tv1 (tvrIndex (c + 1)) := by
  have hone : c + 1 - c = 1 := by rw [UInt64.add_comm, UInt64.add_sub_cancel]
  rw [slotFor, hone]
  rfl

/-- A timer for the next tick is put into `tv1_`, and counted. -/
theorem Near.arm (h : w.Near) (n : ν) (handle : η) :
    (w.arm n (w.currentTick + 1) handle).Near ∧
      (w.arm n (w.currentTick + 1) handle).activeTimers = w.activeTimers + 1 := by
  obtain ⟨hheads, -, hcount, -⟩ := addTimer_heads
    (w.setNode n ({ · with expiresAt := w.currentTick + 1, handle := handle })) n
  refine ⟨fun tv i => ?_, hcount⟩
  rw [TimeWheel.arm, hheads, slotOf, setNode_nodes, if_pos rfl, setNode_currentTick, slotFor_next,
    Function.update_of_ne (by simp)]
  exact h tv i

end TimeWheel

/-! ## Rounds of the loop -/

namespace Worker

variable {σ : Type*} {w w' : Worker σ ℕ} {handles pending : List ℕ} {tick count : UInt64}

/-- A step of the worker while the runtime runs, where the clock does not go back. -/
def loopStep (w : Worker σ ℕ) (op : WorkerOp ℕ) (w' : Worker σ ℕ) : Prop :=
  w.step true op = some w' ∧ ∀ now, op = .plan now → w.lastTickTime ≤ now

/-- Nothing comes from outside. These handles are due, and these coroutines sleep, each with the
node of its number, until the next tick. -/
structure Calm (w : Worker σ ℕ) (handles pending : List ℕ) (tick expiry count : UInt64) :
    Prop where
  queue : w.queue.Lines handles
  cqes : w.engine.cqes = []
  inbox : w.inbox.head = w.inbox.tail
  wound : ∃ lists, w.wheel.Wound lists pending
  near : w.wheel.Near
  currentTick : w.wheel.currentTick = tick
  activeTimers : w.wheel.activeTimers = count
  timers : ∀ n ∈ pending, (w.wheel.nodes n).expiresAt = expiry ∧ (w.wheel.nodes n).handle = n

variable {expiry : UInt64}

/-- The steps of a worker up to its first batch, when its inbox has a task that starts four
coroutines. -/
def startOps : List (WorkerOp ℕ) :=
  [.init (fun _ _ => true) 0, .check 0, .pop, .schedule 0, .schedule 1, .schedule 2, .schedule 3,
    .leave, .pop]

/-- The steps in which the coroutines of a batch go to sleep, one after the other. -/
def sleepOps (tick : UInt64) (ks : List ℕ) : List (WorkerOp ℕ) :=
  ks.flatMap fun k => [.resume false, .sleepFor k 1 tick k, .leave]

/-- The steps in which the coroutines that are due go to sleep. -/
def batchOps (tick : UInt64) (ks : List ℕ) : List (WorkerOp ℕ) :=
  [.tryDequeueBatch] ++ sleepOps tick ks ++ [.resume false] ++ [.poll]

/-- The steps of the loop two ticks later. -/
def wakeOps (tick : UInt64) (fuel₁ fuel₂ : ℕ) : List (WorkerOp ℕ) :=
  [.check (tick + 2), .tick fuel₁, .tick fuel₂, .tick 0, .pop]

/-- The steps of the last round, in which no time passes after the coroutines have gone to sleep. -/
def endOps (tick : UInt64) (ks : List ℕ) : List (WorkerOp ℕ) :=
  batchOps tick ks ++ [.check tick, .pop, .tryDequeueBatch]

/-- A step, for the composition of runs. -/
theorem takes_step {op : WorkerOp ℕ} (h : w.step true op = some w')
    (hop : ∀ now, op ≠ .plan now) : Takes loopStep [op] w w' :=
  .single ⟨h, fun now hnow => (hop now hnow).elim⟩

/-- A handle is scheduled. -/
theorem Calm.schedule (h : Calm w handles pending tick expiry count)
    (hroom : handles.length ≤ 65536) (k : ℕ) :
    Calm (w.schedule k) (handles ++ [k]) pending tick expiry count :=
  { h with queue := h.queue.schedule hroom k }

/-- Handles are scheduled. -/
theorem Calm.schedule_foldl {α : Type*} (f : α → ℕ) (l : List α)
    (h : Calm w handles pending tick expiry count)
    (hroom : handles.length + l.length ≤ 65536) :
    Calm (l.foldl (fun w a => w.schedule (f a)) w) (handles ++ l.map f) pending tick expiry
      count := by
  induction l generalizing w handles with
  | nil => rwa [List.map_nil, List.append_nil]
  | cons a l ih =>
    rw [List.length_cons] at hroom
    have hrest := ih (h.schedule (by omega) (f a)) (by
      rw [List.length_append, List.length_singleton]
      omega)
    rwa [List.append_assoc] at hrest

/-- A coroutine that does not sleep yet sleeps until the next tick. -/
theorem Calm.sleep (h : Calm w handles pending tick (tick + 1) count) {k : ℕ} (hk : k ∉ pending) :
    (w.wheel.nodes k).headPtr = none ∧
      Calm { w with wheel := w.wheel.arm k (tick + 1) k } handles (k :: pending) tick (tick + 1)
        (count + 1) := by
  obtain ⟨lists, hwound⟩ := h.wound
  have hnone : (w.wheel.nodes k).headPtr = none :=
    hwound.rep.free k List.not_mem_nil fun hl => hk ((hwound.mem_iff k).mpr hl)
  obtain ⟨hnear, hcount⟩ := h.near.arm k k
  rw [h.currentTick] at hnear hcount
  refine ⟨hnone, h.queue, h.cqes, h.inbox, hwound.arm hk (tick + 1) k, hnear, ?_, ?_, ?_⟩
  · exact (TimeWheel.arm_currentTick _ _ _ _).1.trans h.currentTick
  · rw [hcount, h.activeTimers]
  · intro n hn
    rcases List.mem_cons.mp hn with rfl | hn
    · exact TimeWheel.arm_self w.wheel n (tick + 1) n
    · have hne : n ≠ k := ne_of_mem_of_not_mem hn hk
      obtain ⟨hexpires, hhandle⟩ := TimeWheel.arm_of_ne w.wheel (tick + 1) k hne
      exact ⟨hexpires.trans (h.timers n hn).1, hhandle.trans (h.timers n hn).2⟩

/-- A call of `tick` that goes past the current tick fires the coroutines that are due before its
time. -/
theorem Calm.fire (h : Calm w handles pending tick expiry count) {t : UInt64}
    (ht : tick.toNat ≤ t.toNat) (hexpiry : tick ≤ expiry)
    (hroom : handles.length + pending.length ≤ 65536) :
    ∃ fuel wheel due pending', w.wheel.tick true fuel t = some wheel ∧
      pending.Perm (due ++ pending') ∧ (∀ n ∈ due, expiry.toNat < t.toNat) ∧
      (∀ n ∈ pending', t.toNat ≤ expiry.toNat) ∧
      Calm (w.fire wheel) (handles ++ due) pending' t expiry count := by
  obtain ⟨lists, hwound⟩ := h.wound
  obtain ⟨wheel, lists', due, pending', ⟨fuel, htick⟩, hwound', hticked⟩ := hwound.tick t
  have hwheel := htick fuel (le_refl _)
  obtain ⟨hnear, hcount⟩ := h.near.tickLoop hwheel
  have hdueAt : ∀ n ∈ pending, w.wheel.dueAt n = expiry.toNat := fun n hn => by
    rw [TimeWheel.dueAt, (h.timers n hn).1, h.currentTick]
    exact dueTick_of_le hexpiry
  have hdue : ∀ n ∈ due, n ∈ pending := fun n hn =>
    hticked.perm.mem_iff.mpr (List.mem_append_left _ hn)
  have hpending : ∀ n ∈ pending', n ∈ pending := fun n hn =>
    hticked.perm.mem_iff.mpr (List.mem_append_right _ hn)
  have hlength := hticked.perm.length_eq
  rw [List.length_append] at hlength
  -- What the tick has fired are the nodes that are due, with their own handles.
  have hfired : wheel.fired.drop w.wheel.fired.length = due.map w.wheel.firing := by
    rw [hticked.fired, List.drop_left]
  have hhandles : (due.map w.wheel.firing).map Firing.handle = due := by
    rw [List.map_map]
    exact (List.map_congr_left fun n hn => (h.timers n (hdue n hn)).2).trans (List.map_id due)
  have hstill : Calm { w with wheel := wheel } handles pending' t expiry count := by
    refine ⟨h.queue, h.cqes, h.inbox, ⟨lists', hwound'⟩, hnear, ?_, ?_, fun n hn => ?_⟩
    · apply UInt64.toNat_inj.mp
      rw [hticked.currentTick, h.currentTick]
      omega
    · exact hcount.trans h.activeTimers
    · obtain ⟨hexpires, hhandle⟩ := h.timers n (hpending n hn)
      exact ⟨(hticked.expiresAt n).trans hexpires, (hticked.handle n).trans hhandle⟩
  have hcalm := hstill.schedule_foldl Firing.handle (due.map w.wheel.firing) (by
    rw [List.length_map]
    omega)
  rw [hhandles, ← hfired] at hcalm
  refine ⟨fuel, wheel, due, pending', hwheel, hticked.perm, fun n hn => ?_, fun n hn => ?_, hcalm⟩
  · rw [← hdueAt n (hdue n hn)]
    exact hticked.due_lt n hn
  · rw [← hdueAt n (hpending n hn)]
    exact hticked.le_dueAt hn

/-- The coroutines of a batch go to sleep, one after the other. -/
theorem Calm.sleep_batch (h : Calm w [] pending tick (tick + 1) count) {ks : List ℕ}
    (hpc : w.pc = .batch ks) (hks : ks.Nodup) (hdisjoint : ∀ k ∈ ks, k ∉ pending) :
    ∃ w', Takes loopStep (sleepOps tick ks) w w' ∧ w'.pc = .batch [] ∧
      w'.lastTickTime = w.lastTickTime ∧
      Calm w' [] (ks.reverse ++ pending) tick (tick + 1) (count + UInt64.ofNat ks.length) := by
  induction ks generalizing w pending count with
  | nil =>
    refine ⟨w, Takes.refl loopStep w, hpc, rfl, ?_⟩
    have hcount : count + UInt64.ofNat 0 = count := UInt64.add_zero count
    rwa [List.length_nil, hcount]
  | cons k ks ih =>
    obtain ⟨hk, hks⟩ := List.nodup_cons.mp hks
    obtain ⟨hnode, hslept⟩ := h.sleep (hdisjoint k List.mem_cons_self)
    -- It is resumed, sleeps for 1 ms, and returns to the loop.
    have hresume : w.step true (.resume false) = some (w.goto (.coroutine k ks)) := by
      simp [step, hpc]
    have hsleep : (w.goto (.coroutine k ks)).step true (.sleepFor k 1 tick k) =
        some { w.goto (.coroutine k ks) with wheel := w.wheel.arm k (tick + 1) k } := by
      simp [step, LoopPc.user, hnode]
    set w₁ : Worker σ ℕ := { w with wheel := w.wheel.arm k (tick + 1) k, pc := .batch ks } with hw₁
    have hleave : ({ w.goto (.coroutine k ks) with
        wheel := w.wheel.arm k (tick + 1) k } : Worker σ ℕ).step true .leave = some w₁ := rfl
    have hcalm : Calm w₁ [] (k :: pending) tick (tick + 1) (count + 1) := { hslept with }
    obtain ⟨w', hrest, hpc', htime, hcalm'⟩ := ih hcalm rfl hks fun n hn hmem => by
      rcases List.mem_cons.mp hmem with rfl | hmem
      · exact hk hn
      · exact hdisjoint n (List.mem_cons_of_mem k hn) hmem
    refine ⟨w', ?_, hpc', htime, ?_⟩
    · calc Takes loopStep _ w (w.goto (.coroutine k ks)) := takes_step hresume (by simp)
        Takes loopStep _ _ _ := takes_step hsleep (by simp)
        Takes loopStep _ _ w₁ := takes_step hleave (by simp)
        Takes loopStep _ _ w' := hrest
    · have hcount : count + 1 + UInt64.ofNat ks.length = count + UInt64.ofNat (k :: ks).length := by
        rw [List.length_cons, UInt64.ofNat_add, UInt64.add_assoc, UInt64.add_comm 1]
        rfl
      rw [List.reverse_cons, List.append_assoc, ← hcount]
      exact hcalm'

/-- The coroutines that are due go to sleep. -/
theorem Calm.sleep_all (h : Calm w handles [] tick (tick + 1) count) (hpc : w.pc = .dequeue)
    (hhandles : handles.Nodup) (hle : handles.length ≤ 16) (hne : handles ≠ []) :
    ∃ w', Takes loopStep (batchOps tick handles) w w' ∧ w'.pc = .head ∧
      w'.lastTickTime = w.lastTickTime ∧
      Calm w' [] handles.reverse tick (tick + 1) (count + UInt64.ofNat handles.length) := by
  obtain ⟨hbatch, hqueue⟩ := h.queue.tryDequeueBatch hle
  set w₁ : Worker σ ℕ := { w with queue := (w.queue.tryDequeueBatch 16).2, pc := .batch handles }
  have hdequeue : w.step true .tryDequeueBatch = some w₁ := by
    simp [step, hpc, hbatch, hne, w₁]
  have hcalm₁ : Calm w₁ [] [] tick (tick + 1) count := { h with queue := hqueue }
  obtain ⟨w₂, hslept, hpc₂, htime₂, hcalm₂⟩ :=
    hcalm₁.sleep_batch rfl hhandles fun _ _ => List.not_mem_nil
  have hend : w₂.step true (.resume false) = some (w₂.goto .poll) := by
    simp [step, hpc₂]
  have hpoll : (w₂.goto .poll).step true .poll = some (w₂.goto .head) := by
    simp [step, hcalm₂.cqes, goto]
  rw [List.append_nil] at hcalm₂
  refine ⟨w₂.goto .head, ?_, rfl, htime₂, { hcalm₂ with }⟩
  calc Takes loopStep _ w w₁ := takes_step hdequeue (by simp)
    Takes loopStep _ _ w₂ := hslept
    Takes loopStep _ _ (w₂.goto .poll) := takes_step hend (by simp)
    Takes loopStep _ _ (w₂.goto .head) := takes_step hpoll (by simp)

/-- Two ticks later, the coroutines that sleep are due. -/
theorem Calm.wake_all (h : Calm w [] pending tick (tick + 1) count) (hpc : w.pc = .head)
    (htime : w.lastTickTime = tick) (hlt : tick.toNat + 3 < 2 ^ 64)
    (hroom : pending.length ≤ 65536) :
    ∃ fuel₁ fuel₂ w' handles, Takes loopStep (wakeOps tick fuel₁ fuel₂) w w' ∧ w'.pc = .dequeue ∧
      w'.lastTickTime = tick + 2 ∧ pending.Perm handles ∧
      Calm w' handles [] (tick + 2) (tick + 2 + 1) count := by
  have hone : (tick + 1).toNat = tick.toNat + 1 := by
    rw [UInt64.toNat_add, UInt64.toNat_one, Nat.mod_eq_of_lt (by omega)]
  have htwo : (tick + 2).toNat = tick.toNat + 2 := by
    rw [UInt64.toNat_add, show (2 : UInt64).toNat = 2 from rfl, Nat.mod_eq_of_lt (by omega)]
  have hthree : (tick + 2 + 1).toNat = tick.toNat + 3 := by
    rw [UInt64.toNat_add, UInt64.toNat_one, htwo, Nat.mod_eq_of_lt (by omega)]
  have hnext : tick + 1 + 1 = tick + 2 := by
    rw [UInt64.add_assoc]
    rfl
  set w₀ := w.goto (.ticking (tick + 1) (tick + 2)) with hw₀
  have hcheck : w.step true (.check (tick + 2)) = some w₀ := by
    have hlt' : tick < tick + 2 := UInt64.lt_iff_toNat_lt.mpr (by omega)
    simp [step, hpc, htime, hlt', hw₀]
  -- The first tick is up to the expiry, and fires nothing.
  have hcalm₀ : Calm w₀ [] pending tick (tick + 1) count := { h with }
  obtain ⟨fuel₁, wheel₁, due₁, pending₁, htick₁, hperm₁, hdue₁, -, hcalm₁⟩ :=
    hcalm₀.fire (t := tick + 1) (by omega) (UInt64.le_iff_toNat_le.mpr (by omega))
      (by simpa using hroom)
  obtain rfl : due₁ = [] := List.eq_nil_iff_forall_not_mem.mpr fun n hn => by
    have hlt' := hdue₁ n hn
    omega
  set w₁ := (w₀.fire wheel₁).goto (.ticking (tick + 2) (tick + 2)) with hw₁
  have hstep₁ : w₀.step true (.tick fuel₁) = some w₁ := by
    have hpc₀ : w₀.pc = .ticking (tick + 1) (tick + 2) := rfl
    have hle : tick + 1 ≤ tick + 2 := UInt64.le_iff_toNat_le.mpr (by omega)
    simp only [step, hpc₀, if_pos hle, htick₁, Option.map_some, hnext]
    rfl
  have hcalm₁' : Calm w₁ [] pending₁ (tick + 1) (tick + 1) count := { hcalm₁ with }
  rw [List.nil_append] at hperm₁
  -- The second one goes past it, and fires all.
  obtain ⟨fuel₂, wheel₂, due₂, pending₂, htick₂, hperm₂, -, hrest₂, hcalm₂⟩ :=
    hcalm₁'.fire (t := tick + 2) (by omega) (UInt64.le_refl _) (by
      rw [← hperm₁.length_eq]
      simpa using hroom)
  obtain rfl : pending₂ = [] := List.eq_nil_iff_forall_not_mem.mpr fun n hn => by
    have hle := hrest₂ n hn
    omega
  rw [List.append_nil] at hperm₂
  set w₂ := (w₁.fire wheel₂).goto (.ticking (tick + 2 + 1) (tick + 2)) with hw₂
  have hstep₂ : w₁.step true (.tick fuel₂) = some w₂ := by
    have hpc₁ : w₁.pc = .ticking (tick + 2) (tick + 2) := rfl
    simp only [step, hpc₁, if_pos (UInt64.le_refl _), htick₂, Option.map_some]
    rfl
  set w₃ : Worker σ ℕ := { w₂ with pc := .inbox false, lastTickTime := tick + 2 } with hw₃
  have hstep₃ : w₂.step true (.tick 0) = some w₃ := by
    have hpc₂ : w₂.pc = .ticking (tick + 2 + 1) (tick + 2) := rfl
    have hnot : ¬ tick + 2 + 1 ≤ tick + 2 := by
      rw [UInt64.le_iff_toNat_le]
      omega
    simp only [step, hpc₂, if_neg hnot]
    rfl
  have hcalm₃ : Calm w₃ due₂ [] (tick + 2) (tick + 2 + 1) count :=
    { hcalm₂ with timers := fun n hn => (List.not_mem_nil hn).elim }
  have hpop : w₃.step true .pop = some (w₃.goto .dequeue) := by
    have hnone : w₃.inbox.pop = some (none, w₃.inbox) := if_pos hcalm₃.inbox
    have hpc₃ : w₃.pc = .inbox false := rfl
    simp only [step, hpc₃, hnone]
    rfl
  refine ⟨fuel₁, fuel₂, w₃.goto .dequeue, due₂, ?_, rfl, rfl, hperm₁.trans hperm₂,
    { hcalm₃ with }⟩
  calc Takes loopStep _ w w₀ := takes_step hcheck (by simp)
    Takes loopStep _ _ w₁ := takes_step hstep₁ (by simp)
    Takes loopStep _ _ w₂ := takes_step hstep₂ (by simp)
    Takes loopStep _ _ w₃ := takes_step hstep₃ (by simp)
    Takes loopStep _ _ (w₃.goto .dequeue) := takes_step hpop (by simp)

/-- The steps of so many rounds, in each of which the four coroutines go to sleep in some order. -/
inductive Rounds : ℕ → List (WorkerOp ℕ) → Prop where
  | none : Rounds 0 []
  | round {rounds : ℕ} {ops : List (WorkerOp ℕ)} {ks : List ℕ} (fuel₁ fuel₂ : ℕ)
      (h : Rounds rounds ops) (hks : ks.Perm [0, 1, 2, 3]) :
      Rounds (rounds + 1) (ops ++ (batchOps (UInt64.ofNat (2 * rounds)) ks ++
        wakeOps (UInt64.ofNat (2 * rounds)) fuel₁ fuel₂))

/-- After so many rounds of 2 ms, four coroutines are due, and each round has counted four
timers. -/
def Rested (w : Worker σ ℕ) (rounds : ℕ) : Prop :=
  w.pc = .dequeue ∧ w.lastTickTime = UInt64.ofNat (2 * rounds) ∧
    ∃ handles : List ℕ, handles.Perm [0, 1, 2, 3] ∧
      Calm w handles [] (UInt64.ofNat (2 * rounds)) (UInt64.ofNat (2 * rounds) + 1)
        (UInt64.ofNat (4 * rounds))

/-- One more round. -/
theorem Rested.round {rounds : ℕ} (h : Rested w rounds) (hlt : 2 * rounds + 3 < 2 ^ 64) :
    ∃ ks fuel₁ fuel₂ w', ks.Perm [0, 1, 2, 3] ∧
      Takes loopStep (batchOps (UInt64.ofNat (2 * rounds)) ks ++
        wakeOps (UInt64.ofNat (2 * rounds)) fuel₁ fuel₂) w w' ∧ Rested w' (rounds + 1) := by
  obtain ⟨hpc, htime, handles, hks, hcalm⟩ := h
  have hnodup : handles.Nodup := hks.nodup_iff.mpr (by decide)
  have hfour : handles.length = 4 := hks.length_eq
  have hne : handles ≠ [] := List.ne_nil_of_length_pos (by omega)
  obtain ⟨w₁, hslept, hpc₁, htime₁, hcalm₁⟩ := hcalm.sleep_all hpc hnodup (by omega) hne
  have htick : (UInt64.ofNat (2 * rounds)).toNat = 2 * rounds := by
    rw [UInt64.toNat_ofNat', Nat.mod_eq_of_lt (by omega)]
  obtain ⟨fuel₁, fuel₂, w', handles', hwoken, hpc', htime', hperm, hcalm'⟩ :=
    hcalm₁.wake_all hpc₁ (htime₁.trans htime) (by omega) (by
      rw [List.length_reverse]
      omega)
  have htwo : UInt64.ofNat (2 * rounds) + 2 = UInt64.ofNat (2 * (rounds + 1)) := by
    rw [Nat.mul_add, UInt64.ofNat_add]
    rfl
  have hcount : UInt64.ofNat (4 * rounds) + UInt64.ofNat handles.length =
      UInt64.ofNat (4 * (rounds + 1)) := by
    rw [hfour, Nat.mul_add, UInt64.ofNat_add]
  rw [htwo, hcount] at hcalm'
  exact ⟨handles, fuel₁, fuel₂, w', hks, hslept.trans hwoken, hpc', htime'.trans htwo, handles',
    hperm.symm.trans ((List.reverse_perm handles).trans hks), hcalm'⟩

/-- Any number of rounds that the clock has time for. -/
theorem Rested.rounds (h : Rested w 0) (rounds : ℕ) (hlt : 2 * rounds + 1 < 2 ^ 64) :
    ∃ ops w', Rounds rounds ops ∧ Takes loopStep ops w w' ∧ Rested w' rounds := by
  induction rounds with
  | zero => exact ⟨[], w, .none, Takes.refl loopStep w, h⟩
  | succ rounds ih =>
    obtain ⟨ops, w₁, hops, hbefore, h₁⟩ := ih (by omega)
    obtain ⟨ks, fuel₁, fuel₂, w', hks, hround, h'⟩ := h₁.round (by omega)
    exact ⟨_, w', hops.round fuel₁ fuel₂ hks, hbefore.trans hround, h'⟩

/-- After `2 ^ 62 - 1` rounds the four coroutines sleep once more. The count is zero then, and the
loop finds nothing to do. -/
theorem Rested.wrap (h : Rested w (2 ^ 62 - 1)) :
    ∃ ks w', ks.Perm [0, 1, 2, 3] ∧
      Takes loopStep (endOps (UInt64.ofNat (2 ^ 63 - 2)) ks) w w' ∧
      w'.pc = .submit ∧ w'.engine.cqes = [] ∧ w'.lastTickTime = UInt64.ofNat (2 ^ 63 - 2) ∧
      w'.wheel.activeTimers = 0 ∧ ∃ n, w'.wheel.IsLinked n := by
  obtain ⟨hpc, htime, handles, hks, hcalm⟩ := h
  have hnodup : handles.Nodup := hks.nodup_iff.mpr (by decide)
  have hfour : handles.length = 4 := hks.length_eq
  have hne : handles ≠ [] := List.ne_nil_of_length_pos (by omega)
  obtain ⟨w₁, hslept, hpc₁, htime₁, hcalm₁⟩ := hcalm.sleep_all hpc hnodup (by omega) hne
  have htick : w₁.lastTickTime = UInt64.ofNat (2 ^ 63 - 2) := htime₁.trans htime
  have hcheck : w₁.step true (.check (UInt64.ofNat (2 ^ 63 - 2))) =
      some (w₁.goto (.inbox false)) := by
    rw [← htick]
    simp [step, hpc₁]
  have hpop : (w₁.goto (.inbox false)).step true .pop = some (w₁.goto .dequeue) := by
    have hnone : w₁.inbox.pop = some (none, w₁.inbox) := if_pos hcalm₁.inbox
    simp only [step, goto_pc, goto_inbox, hnone]
    rfl
  obtain ⟨hbatch, -⟩ := hcalm₁.queue.tryDequeueBatch (by simp)
  have hdequeue : (w₁.goto .dequeue).step true .tryDequeueBatch =
      some { w₁ with queue := (w₁.queue.tryDequeueBatch 16).2, pc := .submit } := by
    simp [step, hbatch, goto]
  obtain ⟨lists, hwound⟩ := hcalm₁.wound
  obtain ⟨n, hn⟩ := List.exists_mem_of_ne_nil _ hne
  have hend : Takes loopStep [.check (UInt64.ofNat (2 ^ 63 - 2)), .pop, .tryDequeueBatch] w₁
      { w₁ with queue := (w₁.queue.tryDequeueBatch 16).2, pc := .submit } :=
    calc Takes loopStep _ w₁ (w₁.goto (.inbox false)) := takes_step hcheck (by simp)
      Takes loopStep _ _ (w₁.goto .dequeue) := takes_step hpop (by simp)
      Takes loopStep _ _ _ := takes_step hdequeue (by simp)
  refine ⟨handles, { w₁ with queue := (w₁.queue.tryDequeueBatch 16).2, pc := .submit }, hks,
    hslept.trans hend, rfl, hcalm₁.cqes, htick, ?_, n, ?_⟩
  · show w₁.wheel.activeTimers = 0
    rw [hcalm₁.activeTimers, hfour]
    decide
  · exact hwound.isLinked_iff.mpr (List.mem_reverse.mpr hn)

/-- A worker whose inbox has one task that is not of a coroutine comes to the first round: the task
starts four coroutines. -/
theorem exists_rested (buffer : ℕ → Option ℕ) (expiresAt : ℕ → UInt64) (handle : ℕ → ℕ) :
    ∃ w' : Worker σ ℕ, Takes loopStep startOps
      { Worker.new buffer expiresAt handle with
        inbox := (SpscQueue.new.push ⟨some (.other ())⟩).2 } w' ∧ Rested w' 0 := by
  set w : Worker σ ℕ := { Worker.new buffer expiresAt handle with
    inbox := (SpscQueue.new.push ⟨some (.other ())⟩).2 } with hw
  -- The loop starts, and takes the task of its inbox.
  set w₁ : Worker σ ℕ := { w with
    pc := .head, engine := w.engine.init 4096, lastTickTime := 0 } with hw₁
  have hinit : w.step true (.init (fun _ _ => true) 0) = some w₁ := rfl
  have hcheck : w₁.step true (.check 0) = some (w₁.goto (.inbox false)) := rfl
  obtain ⟨inbox, hpop, hempty⟩ : ∃ inbox,
      w₁.inbox.pop = some (some ⟨some (.other ())⟩, inbox) ∧ inbox.head = inbox.tail := by
    obtain ⟨-, -, hholds⟩ := SpscQueue.new_holds.push
      (⟨some (.other ())⟩ : UniqueTask (Closure ℕ Unit))
    rw [if_pos (by decide)] at hholds
    obtain ⟨inbox, hpop, -, hrest⟩ := hholds.pop_cons
    exact ⟨inbox, hpop, hrest.head_eq_tail_iff.mpr rfl⟩
  set w₂ : Worker σ ℕ := { w₁ with pc := .task false, inbox := inbox } with hw₂
  have hinvoke : (w₁.goto (.inbox false)).step true .pop = some w₂ := by
    simp only [step, goto_pc, goto_inbox, hpop]
    rfl
  have hcalm₂ : Calm w₂ [] [] 0 (0 + 1) 0 :=
    ⟨RunQueue.new_lines buffer, rfl, hempty, ⟨_, TimeWheel.empty_wound expiresAt handle⟩,
      fun _ _ => rfl, rfl, rfl, fun n hn => (List.not_mem_nil hn).elim⟩
  -- The task schedules four coroutines, and returns.
  have hcalm₃ :=
    (((hcalm₂.schedule (by simp) 0).schedule (by simp) 1).schedule (by simp) 2).schedule (by simp) 3
  set w₃ := (((w₂.schedule 0).schedule 1).schedule 2).schedule 3 with hw₃
  have hschedule (v : Worker σ ℕ) (k : ℕ) (hv : v.pc = .task false) :
      Takes loopStep [.schedule k] v (v.schedule k) := by
    have hstep : v.step true (.schedule k) = some (v.schedule k) := by
      simp [step, hv, LoopPc.user]
    exact takes_step hstep (by simp)
  have hleave : w₃.step true .leave = some (w₃.goto (.inbox false)) := rfl
  -- The inbox is empty by now.
  have hnone : (w₃.goto (.inbox false)).step true .pop = some (w₃.goto .dequeue) := by
    have hnone : w₃.inbox.pop = some (none, w₃.inbox) := if_pos hcalm₃.inbox
    simp only [step, goto_pc, goto_inbox, hnone]
    rfl
  refine ⟨w₃.goto .dequeue, ?_, rfl, rfl, [0, 1, 2, 3], .refl _, { hcalm₃ with }⟩
  calc Takes loopStep _ w w₁ := takes_step hinit (by simp)
    Takes loopStep _ _ (w₁.goto (.inbox false)) := takes_step hcheck (by simp)
    Takes loopStep _ _ w₂ := takes_step hinvoke (by simp)
    Takes loopStep _ _ _ := hschedule w₂ 0 rfl
    Takes loopStep _ _ _ := hschedule _ 1 rfl
    Takes loopStep _ _ _ := hschedule _ 2 rfl
    Takes loopStep _ _ w₃ := hschedule _ 3 rfl
    Takes loopStep _ _ (w₃.goto (.inbox false)) := takes_step hleave (by simp)
    Takes loopStep _ _ (w₃.goto .dequeue) := takes_step hnone (by simp)

end Worker

/-! ## The run -/

namespace Workers

variable {σ τ : Type*} [DecidableEq σ] [DecidableEq τ]

/-- A run of one worker is a run of all. -/
theorem takes_worker {s : Workers σ τ ℕ} {i : σ} {w : Worker σ ℕ} {ops : List (WorkerOp ℕ)}
    (hrunning : s.isRunning = true) (hcall : s.calls (.inl i) = .idle)
    (h : Takes Worker.loopStep ops (s.workers i) w) :
    Takes (fun s op t => workersStep s op t ∧ Dependable s op) (ops.map (.worker i)) s
      (s.setWorker i w) := by
  obtain ⟨l, rfl, hl, rfl⟩ := h
  induction l generalizing s with
  | nil =>
    have hsame : s.setWorker i (s.workers i) = s := by
      rw [setWorker, Function.update_eq_self]
    rw [last, hsame]
    exact Takes.refl _ s
  | cons x l ih =>
    obtain ⟨op, w₁⟩ := x
    obtain ⟨⟨hstep, hclock⟩, hl⟩ := hl
    have hfirst : workersStep s (.worker i op) (s.setWorker i w₁) := by
      refine ⟨?_, trivial⟩
      rw [Workers.step, hcall]
      simp only [hrunning, hstep, Option.map_some]
    have hdep : Dependable s (.worker i op) := by
      cases op with
      | plan now => exact hclock now rfl
      | _ => trivial
    have hrest := ih (s := s.setWorker i w₁) hrunning hcall (by rwa [setWorker_self])
    have hsame : (s.setWorker i w₁).setWorker i (last ((s.setWorker i w₁).workers i) l) =
        s.setWorker i (last (s.workers i) ((op, w₁) :: l)) := by
      rw [setWorker_self, last]
      simp [setWorker]
    rw [hsame] at hrest
    exact (Takes.single ⟨hfirst, hdep⟩).trans hrest

/-- A worker that has nothing to submit and finds the count at zero waits without a timeout. -/
theorem takes_wait {s : Workers σ τ ℕ} {i : σ} {now : UInt64} (hcall : s.calls (.inl i) = .idle)
    (hpc : (s.workers i).pc = .submit) (htime : (s.workers i).lastTickTime = now)
    (hcount : (s.workers i).wheel.activeTimers = 0) :
    ∃ t, Takes (fun s op t => workersStep s op t ∧ Dependable s op)
        [.submit i true, .worker i (.plan now)] s t ∧
      t.workers i = { s.workers i with
        engine := ((s.workers i).engine.submit true).1, pc := .wait none } := by
  set w : Worker σ ℕ := { s.workers i with
    engine := ((s.workers i).engine.submit true).1, pc := .plan } with hw
  set t : Workers σ τ ℕ := { s.setWorker i w with
    inFlight := s.inFlight ++ ((s.workers i).engine.submit true).2.map fun sqe => (some i, sqe) }
    with ht
  have htw : t.workers i = w := setWorker_self s i w
  have hsubmit : s.step (.submit i true) = some t := by
    simp only [Workers.step, hpc]
    rfl
  have hplan : t.step (.worker i (.plan now)) = some (t.setWorker i (w.goto (.wait none))) := by
    have htimeout : w.wheel.nextTimeout now = -1 := by
      rw [TimeWheel.nextTimeout, if_pos hcount]
    have hstep : w.step t.isRunning (.plan now) = some (w.goto (.wait none)) := by
      have hpcw : w.pc = .plan := rfl
      simp only [Worker.step, hpcw, htimeout, if_true]
    have hcallt : t.calls (.inl i) = .idle := hcall
    rw [Workers.step, hcallt]
    simp only [htw, hstep, Option.map_some]
  have hclock : (t.workers i).lastTickTime ≤ now := by
    rw [htw, ← htime]
    exact UInt64.le_refl _
  exact ⟨t.setWorker i (w.goto (.wait none)),
    Takes.trans (.single ⟨⟨hsubmit, trivial⟩, rfl⟩) (.single ⟨⟨hplan, trivial⟩, hclock⟩),
    setWorker_self _ _ _⟩

end Workers

/-- A scheduler counts `2 ^ 64` timers of four coroutines that sleep in turn, started by a task of
another thread. Then it waits without a timeout, with no completion, while they sleep. -/
theorem sleepers_not_woken :
    ∃ (l : List (WorkersOp Unit Unit ℕ × Workers Unit Unit ℕ)) (ops : List (WorkerOp ℕ))
        (ks : List ℕ),
      l.map Prod.fst = [.push (.inr ()) () ⟨some (.other ())⟩, .ringFd (.inr ())] ++
        (Worker.startOps ++ (ops ++ Worker.endOps (UInt64.ofNat (2 ^ 63 - 2)) ks)).map
          (.worker ()) ++
        [.submit () true, .worker () (.plan (UInt64.ofNat (2 ^ 63 - 2)))] ∧
      Worker.Rounds (2 ^ 62 - 1) ops ∧ ks.Perm [0, 1, 2, 3] ∧
      Path workersStep (.new (fun _ => none) (fun _ => 0) fun _ => 0) l ∧
      Meets Workers.Dependable (.new (fun _ => none) (fun _ => 0) fun _ => 0) l ∧
      ((last (.new (fun _ => none) (fun _ => 0) fun _ => 0) l).workers ()).Blocked ∧
      ((last (.new (fun _ => none) (fun _ => 0) fun _ => 0) l).workers ()).pc = .wait none ∧
      ∃ n,
        ((last (.new (fun _ => none) (fun _ => 0) fun _ => 0) l).workers ()).wheel.IsLinked n := by
  set s₀ : Workers Unit Unit ℕ := .new (fun _ => none) (fun _ => 0) fun _ => 0 with hs₀
  set w₀ : Worker Unit ℕ := { s₀.workers () with
    inbox := (SpscQueue.new.push ⟨some (.other ())⟩).2 } with hw₀
  -- Another thread dispatches a task before the ring is there.
  have hpush : Takes (fun s op t => workersStep s op t ∧ Workers.Dependable s op)
      [.push (.inr ()) () ⟨some (.other ())⟩] s₀
      ((s₀.setWorker () w₀).setCall (.inr ()) (.pushed ())) := by
    have hpushed :
        (SpscQueue.new.push (⟨some (.other ())⟩ : UniqueTask (Closure ℕ Unit))).1 = true :=
      (SpscQueue.new_holds.push _).1.trans (by decide)
    have hstep : s₀.step (.push (.inr ()) () ⟨some (.other ())⟩) =
        some ((s₀.setWorker () w₀).setCall (.inr ()) (.pushed ())) := by
      have hinbox : (s₀.workers ()).inbox.push ⟨some (.other ())⟩ = (true, w₀.inbox) :=
        Prod.ext hpushed rfl
      simp only [Workers.step]
      rw [hinbox]
      rfl
    exact .single ⟨⟨hstep, fun c hc => hc⟩, trivial⟩
  have hreturn : Takes (fun s op t => workersStep s op t ∧ Workers.Dependable s op)
      [.ringFd (.inr ())] ((s₀.setWorker () w₀).setCall (.inr ()) (.pushed ()))
      (((s₀.setWorker () w₀).setCall (.inr ()) (.pushed ())).setCall (.inr ()) .idle) :=
    .single ⟨⟨rfl, trivial⟩, trivial⟩
  set s₁ := ((s₀.setWorker () w₀).setCall (.inr ()) (.pushed ())).setCall (.inr ()) .idle with hs₁
  obtain ⟨w₁, hstart, hrested⟩ := Worker.exists_rested (σ := Unit) (fun _ => none) (fun _ => 0)
    fun _ => 0
  obtain ⟨ops, w₂, hops, hrounds, hrested₂⟩ := hrested.rounds (2 ^ 62 - 1) (by decide)
  obtain ⟨ks, w₃, hks, hwrap, hpc, hcqes, htime, hcount, n, hn⟩ := hrested₂.wrap
  have hloop := Workers.takes_worker (s := s₁) (i := ()) rfl rfl
    (hstart.trans (hrounds.trans hwrap))
  set s₂ := s₁.setWorker () w₃ with hs₂
  have hw₂ : s₂.workers () = w₃ := Workers.setWorker_self s₁ () w₃
  obtain ⟨s₃, hend, hw₃⟩ := Workers.takes_wait (s := s₂) (i := ()) rfl (hw₂ ▸ hpc) (hw₂ ▸ htime)
    (hw₂ ▸ hcount)
  rw [hw₂] at hw₃
  obtain ⟨l, hlabels, hl, hlast⟩ := ((hpush.trans hreturn).trans hloop).trans hend
  obtain ⟨hpath, hmeets⟩ := hl.of_and
  refine ⟨l, ops, ks, hlabels, hops, hks, hpath, hmeets, ?_⟩
  rw [hlast, hw₃]
  exact ⟨⟨⟨none, rfl⟩, hcqes⟩, rfl, n, hn⟩

end Novaio
