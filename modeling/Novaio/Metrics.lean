import Mathlib.Data.List.Basic
import Mathlib.Logic.Function.Basic
import Novaio.Lib.Path

/-!
# The metrics registry

`MetricsRegistry` of `metrics.hpp` lists the addresses of the threads' `current_thread_metrics`. A
thread is known here by that address, which another thread may have after it has exited.

`Scheduler::run` registers the address of the thread that runs it. `Scheduler::~Scheduler`
unregisters the address of the thread that destroys the scheduler, which need not be the one that
ran it. A worker thread exits after `run` without unregistering, so `aggregate` reads its metrics
afterwards. `registry_live_iff` says that the registry only points at live threads exactly if every
thread that exits is not registered then.
-/

namespace Novaio

open Transition

/-- `TcmMetrics`. -/
structure TcmMetrics where
  tasksExecuted : UInt64 := 0
  ioEventsReaped : UInt64 := 0
  inboxMessagesProcessed : UInt64 := 0
  deriving DecidableEq

namespace TcmMetrics

/-- An iteration of `MetricsRegistry::aggregate`. -/
def add (total m : TcmMetrics) : TcmMetrics where
  tasksExecuted := total.tasksExecuted + m.tasksExecuted
  ioEventsReaped := total.ioEventsReaped + m.ioEventsReaped
  inboxMessagesProcessed := total.inboxMessagesProcessed + m.inboxMessagesProcessed

/-- `metrics_record_task_executed`. -/
def recordTaskExecuted (m : TcmMetrics) : TcmMetrics :=
  { m with tasksExecuted := m.tasksExecuted + 1 }

/-- `metrics_record_io_event`. -/
def recordIoEvent (m : TcmMetrics) : TcmMetrics :=
  { m with ioEventsReaped := m.ioEventsReaped + 1 }

/-- `metrics_record_inbox_processed`. -/
def recordInboxProcessed (m : TcmMetrics) : TcmMetrics :=
  { m with inboxMessagesProcessed := m.inboxMessagesProcessed + 1 }

end TcmMetrics

/-- What a thread is and how far it is: a worker before `Scheduler::run`, in its loop, or after
it. -/
inductive ThreadPhase where
  | external
  | created
  | running
  | returned
  deriving DecidableEq

/-- A live thread, with its `current_thread_metrics`. -/
structure MetricsThread where
  phase : ThreadPhase
  metrics : TcmMetrics := {}

/-- `MetricsRegistry` with the live threads by the addresses of their metrics, `is_running_` of the
runtime, and the number of schedulers that are not destroyed. -/
structure Metrics (α : Type*) where
  threadMetrics : List α
  threads : α → Option MetricsThread
  isRunning : Bool
  schedulers : ℕ

/-- A step of a thread, or of the runtime. -/
inductive MetricsOp (α : Type*) where
  | spawn (thread : α)
  | newScheduler
  | start (workers : List α)
  | enterRun (worker : α)
  | record (thread : α) (event : TcmMetrics → TcmMetrics)
  | leaveRun (worker : α)
  | exit (thread : α)
  | stop
  | join
  | destroyScheduler (thread : α)
  | aggregate (total : Option TcmMetrics)

namespace Metrics

variable {α : Type*}

/-- Before the first call, with the main thread. -/
def new [DecidableEq α] (main : α) : Metrics α where
  threadMetrics := []
  threads := Function.update (fun _ => none) main (some ⟨.external, {}⟩)
  isRunning := true
  schedulers := 0

/-- A thread with a phase. -/
def InPhase (r : Metrics α) (thread : α) (phase : ThreadPhase) : Prop :=
  (r.threads thread).map MetricsThread.phase = some phase

section Operations

variable [DecidableEq α]

/-- `MetricsRegistry::register_thread`. -/
def registerThread (r : Metrics α) (metrics : α) : Metrics α :=
  { r with threadMetrics := r.threadMetrics ++ [metrics] }

/-- `MetricsRegistry::unregister_thread`. -/
def unregisterThread (r : Metrics α) (metrics : α) : Metrics α :=
  { r with threadMetrics := r.threadMetrics.erase metrics }

/-- A thread is created, with metrics of its own. -/
def createThread (r : Metrics α) (thread : α) (phase : ThreadPhase) : Metrics α :=
  { r with threads := Function.update r.threads thread (some ⟨phase, {}⟩) }

/-- A write to the data of a thread. -/
def setThread (r : Metrics α) (thread : α) (f : MetricsThread → MetricsThread) : Metrics α :=
  { r with threads := Function.update r.threads thread ((r.threads thread).map f) }

/-- A thread exits, and its `current_thread_metrics` is gone. -/
def exitThread (r : Metrics α) (thread : α) : Metrics α :=
  { r with threads := Function.update r.threads thread none }

end Operations

/-- `MetricsRegistry::aggregate`, or `none` if it reads the metrics of a thread that has exited. -/
def aggregate (r : Metrics α) : Option TcmMetrics :=
  r.threadMetrics.foldlM (fun total m => (r.threads m).map fun t => total.add t.metrics) {}

end Metrics

/-- The effect of a step. A new thread's metrics are at an address that no live thread's are at. A
worker enters `run` once, leaves its loop when `is_running_` is false, and exits after that. `join`
is the return of `stop`, when every worker has exited. A scheduler is destroyed by any live
thread. -/
def metricsStep {α : Type*} [DecidableEq α] (r : Metrics α) (op : MetricsOp α) (r' : Metrics α) :
    Prop :=
  match op with
  | .spawn thread => r.threads thread = none ∧ r' = r.createThread thread .external
  | .newScheduler => r' = { r with schedulers := r.schedulers + 1 }
  | .start workers => workers.Nodup ∧ (∀ worker ∈ workers, r.threads worker = none) ∧
      r' = workers.foldl (fun r worker => r.createThread worker .created)
        { r with isRunning := true, schedulers := r.schedulers + workers.length }
  | .enterRun worker => r.InPhase worker .created ∧
      r' = (r.setThread worker ({ · with phase := .running })).registerThread worker
  | .record thread event => r.threads thread ≠ none ∧
      event ∈ [TcmMetrics.recordTaskExecuted, TcmMetrics.recordIoEvent,
        TcmMetrics.recordInboxProcessed] ∧
      r' = r.setThread thread fun t => { t with metrics := event t.metrics }
  | .leaveRun worker => r.InPhase worker .running ∧ r.isRunning = false ∧
      r' = r.setThread worker ({ · with phase := .returned })
  | .exit thread => (r.InPhase thread .returned ∨ r.InPhase thread .external) ∧
      r' = r.exitThread thread
  | .stop => r' = { r with isRunning := false }
  | .join => (∀ thread, r.threads thread = none ∨ r.InPhase thread .external) ∧ r' = r
  | .destroyScheduler thread => r.threads thread ≠ none ∧ 0 < r.schedulers ∧
      r' = { r.unregisterThread thread with schedulers := r.schedulers - 1 }
  | .aggregate total => total = r.aggregate ∧ r' = r

namespace Metrics

variable {α : Type*} {r r' : Metrics α} {op : MetricsOp α}

/-- Every pointer of the registry is the address of the metrics of a live thread. -/
def PointsAtLive (r : Metrics α) : Prop := ∀ m ∈ r.threadMetrics, r.threads m ≠ none

/-- The condition on a step that a thread that exits is not registered. -/
def ExitsUnregistered (r : Metrics α) : MetricsOp α → Prop
  | .exit thread => thread ∉ r.threadMetrics
  | _ => True

/-- `aggregate` reads the metrics of live threads only if and only if every pointer of the registry
is the address of such. -/
theorem aggregate_ne_none_iff (r : Metrics α) : r.aggregate ≠ none ↔ r.PointsAtLive := by
  unfold aggregate PointsAtLive
  generalize ({} : TcmMetrics) = total
  induction r.threadMetrics generalizing total with
  | nil => simp
  | cons m l ih =>
    rw [List.foldlM_cons, List.forall_mem_cons]
    cases hm : r.threads m with
    | none => simp
    | some t => simpa using ih (total.add t.metrics)

variable [DecidableEq α]

/-- A write to a live thread's data leaves it live, and every other thread as it is. -/
theorem setThread_live (r : Metrics α) (thread m : α) (f : MetricsThread → MetricsThread) :
    (r.setThread thread f).threads m ≠ none ↔ r.threads m ≠ none := by
  rw [setThread]
  rcases eq_or_ne m thread with rfl | hm
  · simp
  · simp [hm]

/-- A thread that is created is live, and so are those that were. -/
theorem createThread_live (r : Metrics α) (thread : α) (phase : ThreadPhase) {m : α}
    (hm : r.threads m ≠ none) : (r.createThread thread phase).threads m ≠ none := by
  rw [createThread]
  rcases eq_or_ne m thread with rfl | hne
  · simp
  · simpa [hne] using hm

/-- The threads that `start` creates are live, and so are those that were. -/
theorem createThreads_live (workers : List α) (r : Metrics α) :
    let r' := workers.foldl (fun r worker => r.createThread worker .created) r
    r'.threadMetrics = r.threadMetrics ∧ ∀ m, r.threads m ≠ none → r'.threads m ≠ none := by
  induction workers generalizing r with
  | nil => exact ⟨rfl, fun _ hm => hm⟩
  | cons worker workers ih =>
    obtain ⟨hregistry, hlive⟩ := ih (r.createThread worker .created)
    exact ⟨hregistry, fun m hm => hlive m (r.createThread_live worker .created hm)⟩

/-- The step lemma: from a state in which the registry only points at live threads, a step leads to
such a state if and only if a thread that exits is not registered. -/
theorem PointsAtLive.step_iff (h : r.PointsAtLive) (hstep : metricsStep r op r') :
    r'.PointsAtLive ↔ r.ExitsUnregistered op := by
  cases op with
  | spawn thread =>
    obtain ⟨-, rfl⟩ := hstep
    exact ⟨fun _ => trivial, fun _ m hm => r.createThread_live thread .external (h m hm)⟩
  | newScheduler =>
    obtain rfl := hstep
    exact ⟨fun _ => trivial, fun _ => h⟩
  | start workers =>
    obtain ⟨-, -, rfl⟩ := hstep
    obtain ⟨hregistry, hlive⟩ := createThreads_live workers
      { r with isRunning := true, schedulers := r.schedulers + workers.length }
    refine ⟨fun _ => trivial, fun _ m hm => hlive m (h m ?_)⟩
    rwa [hregistry] at hm
  | enterRun worker =>
    obtain ⟨hphase, rfl⟩ := hstep
    refine ⟨fun _ => trivial, fun _ m hm => (setThread_live r worker m _).mpr ?_⟩
    -- A worker registers itself, and runs.
    rcases List.mem_append.mp hm with hm | hm
    · exact h m hm
    · rw [List.mem_singleton.mp hm]
      intro hnone
      rw [InPhase, hnone] at hphase
      simp at hphase
  | record thread event =>
    obtain ⟨-, -, rfl⟩ := hstep
    exact ⟨fun _ => trivial, fun _ m hm => (setThread_live r thread m _).mpr (h m hm)⟩
  | leaveRun worker =>
    obtain ⟨-, -, rfl⟩ := hstep
    exact ⟨fun _ => trivial, fun _ m hm => (setThread_live r worker m _).mpr (h m hm)⟩
  | exit thread =>
    obtain ⟨-, rfl⟩ := hstep
    -- The thread is the only one that is not live any more.
    constructor
    · intro h' hm
      exact h' thread hm (Function.update_self thread _ r.threads)
    · intro hnot m hm
      have hne : m ≠ thread := ne_of_mem_of_not_mem hm hnot
      rw [exitThread]
      simpa [hne] using h m hm
  | stop =>
    obtain rfl := hstep
    exact ⟨fun _ => trivial, fun _ => h⟩
  | join =>
    obtain ⟨-, rfl⟩ := hstep
    exact ⟨fun _ => trivial, fun _ => h⟩
  | destroyScheduler thread =>
    obtain ⟨-, -, rfl⟩ := hstep
    exact ⟨fun _ => trivial, fun _ m hm => h m (List.mem_of_mem_erase hm)⟩
  | aggregate total =>
    obtain ⟨-, rfl⟩ := hstep
    exact ⟨fun _ => trivial, fun _ => h⟩

end Metrics

open Metrics

/-- In every run, in every state the registry only points at live threads and `aggregate` reads the
metrics of live threads only, if and only if every thread that exits is not registered then. -/
theorem registry_live_iff {α : Type*} [DecidableEq α] (main : α)
    (l : List (MetricsOp α × Metrics α)) (hl : Path metricsStep (new main) l) :
    (∀ x ∈ l, x.2.PointsAtLive ∧ x.2.aggregate ≠ none) ↔ Meets ExitsUnregistered (new main) l := by
  simp only [aggregate_ne_none_iff, and_self]
  refine hl.always_iff_meets (I := fun _ => True) (fun _ _ _ _ _ => trivial) ?_ trivial ?_
  · exact fun r op r' _ h hstep => h.step_iff hstep
  · exact fun m hm => (List.not_mem_nil hm).elim

/-- A worker that destroys a scheduler before it exits is no longer registered. -/
theorem registry_live_iff_unregistered :
    ∃ l : List (MetricsOp Bool × Metrics Bool), Path metricsStep (new false) l ∧
      l.map Prod.fst = [.start [true], .enterRun true, .stop, .leaveRun true,
        .destroyScheduler true, .exit true, .join] ∧
      ∀ x ∈ l, x.2.PointsAtLive ∧ x.2.aggregate ≠ none := by
  have hl : Path metricsStep (new false) [(.start [true], _), (.enterRun true, _), (.stop, _),
      (.leaveRun true, _), (.destroyScheduler true, _), (.exit true, _), (.join, _)] :=
    ⟨⟨by decide, by decide, rfl⟩, ⟨rfl, rfl⟩, rfl, ⟨rfl, rfl, rfl⟩, ⟨by decide, by decide, rfl⟩,
      ⟨.inl rfl, rfl⟩, ⟨Bool.forall_bool.mpr ⟨.inr rfl, .inl rfl⟩, rfl⟩, trivial⟩
  exact ⟨_, hl, rfl, (registry_live_iff false _ hl).mpr
    ⟨trivial, trivial, trivial, trivial, trivial, List.not_mem_nil, trivial, trivial⟩⟩

/-- A worker runs, is stopped and exits. The registry still points at its metrics, and `aggregate`
reads them. -/
theorem registry_stale :
    ∃ l : List (MetricsOp Bool × Metrics Bool), Path metricsStep (new false) l ∧
      l.map Prod.fst = [.start [true], .enterRun true, .stop, .leaveRun true, .exit true, .join,
        .aggregate none] ∧
      ¬ (last (new false) l).PointsAtLive ∧ (last (new false) l).aggregate = none := by
  have hl : Path metricsStep (new false) [(.start [true], _), (.enterRun true, _), (.stop, _),
      (.leaveRun true, _), (.exit true, _), (.join, _), (.aggregate none, _)] :=
    ⟨⟨by decide, by decide, rfl⟩, ⟨rfl, rfl⟩, rfl, ⟨rfl, rfl, rfl⟩, ⟨.inl rfl, rfl⟩,
      ⟨Bool.forall_bool.mpr ⟨.inr rfl, .inl rfl⟩, rfl⟩, ⟨rfl, rfl⟩, trivial⟩
  refine ⟨_, hl, rfl, fun hlive => ?_, rfl⟩
  exact hlive true List.mem_cons_self rfl

end Novaio
