import Mathlib.Data.List.Nodup
import Novaio.Lib.Path
import Novaio.Runtime

/-!
# The threads of the runtime

`Runtime::start` appends schedulers to `schedulers_` and threads to `workers_`, and the thread with
the index `i` runs the scheduler at the position `i`. The indices start from 0 in every call, also
where there are schedulers from an earlier one, and `Runtime::stop` clears neither list. So every
call of `start` after the first one starts a second thread on schedulers that had one, and none on
its own. `one_worker_iff` says that there is one worker per scheduler exactly if `start` adds
schedulers only once.
-/

namespace Novaio

open Transition

/-- A thread of `workers_`: the index that it was started with, and whether it has been joined. -/
structure WorkerThread where
  core : ℕ
  joined : Bool

/-- `Runtime` with its threads. Of the schedulers, those at the positions before `stopped` were
there at a call of `stop`. -/
structure Threads (ω κ : Type*) where
  runtime : Runtime ω κ
  isRunning : Bool
  workers : List WorkerThread
  stopped : ℕ

/-- A call of `Runtime::start`, or of `Runtime::stop` with the empty callable that it dispatches. -/
inductive ThreadsOp (κ : Type*) where
  | start (numCores : ℕ)
  | stop (wake : κ)

namespace Threads

variable {ω κ : Type*}

/-- A runtime as constructed. -/
def new : Threads ω κ := ⟨.new, true, [], 0⟩

/-- `Runtime::start`. -/
def start (t : Threads ω κ) (numCores : ℕ) : Threads ω κ :=
  { t with
    runtime := t.runtime.start numCores
    isRunning := true
    workers := t.workers ++ (List.range numCores).map fun i => ⟨i, false⟩ }

/-- `Runtime::stop`, up to its return: every thread that was joinable has been joined. -/
def stop (t : Threads ω κ) (wake : κ) : Threads ω κ where
  -- Every scheduler is sent a task that does nothing, so that its thread wakes up.
  runtime := (List.range t.runtime.schedulers.length).foldl
    (fun rt i => rt.dispatchOn i ⟨some (.other wake)⟩) t.runtime
  isRunning := false
  workers := t.workers.map ({ · with joined := true })
  stopped := t.runtime.schedulers.length

/-- A call. -/
def call (t : Threads ω κ) : ThreadsOp κ → Threads ω κ
  | .start numCores => t.start numCores
  | .stop wake => t.stop wake

/-- `get_core_count`. -/
def getCoreCount (t : Threads ω κ) : ℕ := t.runtime.schedulers.length

/-- The indices of the threads that have not been joined. -/
def live (t : Threads ω κ) : List ℕ :=
  (t.workers.filter fun worker => !worker.joined).map WorkerThread.core

/-- Every thread that has not been joined runs a scheduler of its own, and every scheduler that has
not been stopped is run by one thread. -/
structure OnePerScheduler (t : Threads ω κ) : Prop where
  nodup : t.live.Nodup
  lt : ∀ i ∈ t.live, i < t.getCoreCount
  run : ∀ p, t.stopped ≤ p → p < t.getCoreCount → t.live.count p = 1

/-- The condition on a call that it adds schedulers only where there are none. -/
def StartsOnce (t : Threads ω κ) : ThreadsOp κ → Prop
  | .start numCores => numCores ≠ 0 → t.getCoreCount = 0
  | .stop _ => True

/-- `dispatch_on` neither adds nor removes schedulers. -/
theorem length_dispatchOn (rt : Runtime ω κ) (core : ℕ) (task : UniqueTask (Closure ω κ)) :
    (rt.dispatchOn core task).schedulers.length = rt.schedulers.length := by
  unfold Runtime.dispatchOn
  cases rt.schedulers[core]? with
  | none => rfl
  | some target => exact List.length_set

/-- The threads and the schedulers after `start`. -/
theorem start_spec (t : Threads ω κ) (numCores : ℕ) :
    (t.start numCores).live = t.live ++ List.range numCores ∧
      (t.start numCores).getCoreCount = t.getCoreCount + numCores ∧
      (t.start numCores).stopped = t.stopped := by
  refine ⟨?_, ?_, rfl⟩
  · have hnew : ((List.range numCores).map fun i => (⟨i, false⟩ : WorkerThread)).filter
        (fun worker => !worker.joined) = (List.range numCores).map fun i => ⟨i, false⟩ := by
      rw [List.filter_eq_self]
      intro worker hworker
      obtain ⟨i, -, rfl⟩ := List.mem_map.mp hworker
      rfl
    rw [live, start, List.filter_append, hnew, List.map_append, List.map_map]
    congr 1
    exact List.map_id _
  · rw [getCoreCount, start, Runtime.start, List.length_append, List.length_map, List.length_range]
    rfl

/-- The threads and the schedulers after `stop`. -/
theorem stop_spec (t : Threads ω κ) (wake : κ) :
    (t.stop wake).live = [] ∧ (t.stop wake).getCoreCount = t.getCoreCount ∧
      (t.stop wake).stopped = t.getCoreCount := by
  refine ⟨?_, ?_, rfl⟩
  · rw [live, List.map_eq_nil_iff, List.filter_eq_nil_iff]
    intro worker hworker
    obtain ⟨worker', -, rfl⟩ := List.mem_map.mp hworker
    simp
  · have hlength : ∀ (l : List ℕ) (rt : Runtime ω κ),
        (l.foldl (fun rt i => rt.dispatchOn i ⟨some (.other wake)⟩) rt).schedulers.length =
          rt.schedulers.length := by
      intro l
      induction l with
      | nil => exact fun rt => rfl
      | cons i l ih => exact fun rt => (ih _).trans (length_dispatchOn rt i _)
    exact hlength _ _

/-- The step lemma: from a state with one worker per scheduler, a call leads to such a state if and
only if it adds schedulers only where there are none. -/
theorem OnePerScheduler.call_iff {t : Threads ω κ} (h : t.OnePerScheduler)
    (hstopped : t.stopped ≤ t.getCoreCount) (op : ThreadsOp κ) :
    (t.call op).OnePerScheduler ↔ t.StartsOnce op := by
  cases op with
  | stop wake =>
    obtain ⟨hlive, hcount, hstop⟩ := t.stop_spec wake
    refine ⟨fun _ => trivial, fun _ => ⟨?_, ?_, fun p hle hlt => ?_⟩⟩
    · rw [call, hlive]
      exact List.nodup_nil
    · rw [call, hlive]
      exact fun i hi => (List.not_mem_nil hi).elim
    · rw [call] at hle hlt
      omega
  | start numCores =>
    obtain ⟨hlive, hcount, hstop⟩ := t.start_spec numCores
    constructor
    · intro h' hne
      by_contra hpos
      -- The last of the new schedulers is not run by an old thread, and not by a new one.
      have hrun := h'.run (t.getCoreCount + numCores - 1) (by rw [call, hstop]; omega)
        (by rw [call, hcount]; omega)
      rw [call, hlive, List.count_append] at hrun
      have hold : t.live.count (t.getCoreCount + numCores - 1) = 0 := by
        rw [List.count_eq_zero]
        intro hmem
        have hlt := h.lt _ hmem
        omega
      have hnew : (List.range numCores).count (t.getCoreCount + numCores - 1) = 0 := by
        rw [List.count_eq_zero, List.mem_range]
        omega
      omega
    · intro honce
      rcases Nat.eq_zero_or_pos numCores with rfl | hpos
      · rw [List.range_zero, List.append_nil] at hlive
        rw [Nat.add_zero] at hcount
        refine ⟨?_, ?_, ?_⟩
        · rw [call, hlive]
          exact h.nodup
        · rw [call, hlive, hcount]
          exact h.lt
        · rw [call, hlive, hcount, hstop]
          exact h.run
      · have hzero : t.getCoreCount = 0 := honce (by omega)
        have hnil : t.live = [] := by
          refine List.eq_nil_iff_forall_not_mem.mpr fun i hi => ?_
          have hlt := h.lt i hi
          omega
        rw [hnil, List.nil_append] at hlive
        refine ⟨?_, ?_, fun p _ hp => ?_⟩
        · rw [call, hlive]
          exact List.nodup_range
        · rw [call, hlive, hcount]
          intro i hi
          have hlt := List.mem_range.mp hi
          omega
        · rw [call, hcount] at hp
          rw [call, hlive]
          exact List.count_eq_one_of_mem List.nodup_range (List.mem_range.mpr (by omega))

end Threads

open Threads

/-- In every sequence of calls of `start` and `stop`, there is one worker per scheduler in every
state between calls if and only if every call of `start` that adds schedulers is made where there
are none. -/
theorem one_worker_iff {ω κ : Type*} (l : List (ThreadsOp κ × Threads ω κ))
    (hl : Path (fun t op t' => t' = t.call op) Threads.new l) :
    (∀ x ∈ l, x.2.OnePerScheduler) ↔ Meets StartsOnce Threads.new l := by
  refine hl.always_iff_meets (I := fun t => t.stopped ≤ t.getCoreCount) ?_ ?_ (le_refl 0) ?_
  · rintro t op _ hstopped rfl
    cases op with
    | start numCores =>
      obtain ⟨-, hcount, hstop⟩ := t.start_spec numCores
      rw [call, hcount, hstop]
      omega
    | stop wake =>
      obtain ⟨-, hcount, hstop⟩ := t.stop_spec wake
      rw [call, hcount, hstop]
  · rintro t op _ hstopped h rfl
    exact h.call_iff hstopped op
  · refine ⟨List.nodup_nil, fun i hi => (List.not_mem_nil hi).elim, fun p _ hp => ?_⟩
    exact (Nat.not_lt_zero p hp).elim

/-- Two cores are started once and stopped. -/
theorem one_worker_iff_two :
    ((Threads.new : Threads Unit Unit).start 2).OnePerScheduler ∧
      (((Threads.new : Threads Unit Unit).start 2).stop ()).OnePerScheduler := by
  have h := (one_worker_iff (ω := Unit) (κ := Unit)
    [(.start 2, Threads.new.start 2), (.stop (), (Threads.new.start 2).stop ())]
    ⟨rfl, rfl, trivial⟩).mpr ⟨fun _ => rfl, trivial, trivial⟩
  exact ⟨h _ List.mem_cons_self, h _ (List.mem_cons_of_mem _ List.mem_cons_self)⟩

/-- Two cores are started, stopped and started again. No thread runs the schedulers 2 and 3, which
`dispatch_on` accepts. -/
theorem one_worker_restarted :
    let t := (((Threads.new : Threads Unit Unit).start 2).stop ()).start 2
    t.live = [0, 1] ∧ t.getCoreCount = 4 ∧ t.stopped = 2 ∧ ¬ t.OnePerScheduler := by
  refine ⟨rfl, rfl, rfl, fun h => ?_⟩
  have hrun := h.run 2 (le_refl 2) (by decide)
  exact absurd hrun (by decide)

end Novaio
