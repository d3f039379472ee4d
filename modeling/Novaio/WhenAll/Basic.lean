import Mathlib.Logic.Function.Basic
import Novaio.Lib.Path
import Novaio.Task.Basic

/-!
# `when_all`

`when_all` of `include/novaio/when_all.hpp`, for `n` tasks. The loop of `start_tasks` runs one
`run_task` after another, each until its task suspends or the helper coroutine ends; a task that has
suspended is resumed later by any thread, and then runs the rest of its `run_task` there. Each step
performs at most one access to `count_`, so that the completions interleave in every way.

A task ends with an outcome (`Outcome`), where `none` is the value of a `Task<void>`. `run_task`
takes the outcome with the `await_resume` of the task. An exception leaves `run_task` through
`WhenAllHelper`'s `unhandled_exception`, which calls `std::terminate`.
-/

namespace Novaio

/-- A cell of `results_`: as it is constructed, the `0` of a void task, or the value of another
one. -/
inductive ResultCell (ν : Type*) where
  | initial
  | zero
  | value (v : ν)
  deriving DecidableEq

/-- What `run_task` assigns for what its task returned. -/
def ResultCell.of {ν : Type*} : Option ν → ResultCell ν
  | some v => .value v
  | none => .zero

/-- Where a child is: its task, and then the `run_task` that awaits the task. -/
inductive ChildPc where
  /-- Not started. -/
  | created
  | running
  | suspended
  /-- The task has ended, and `run_task` goes on. -/
  | finished
  /-- The result is assigned. -/
  | assigned
  /-- `notify` has decremented the counter, and was the last to do so or not. -/
  | notified (last : Bool)
  /-- `run_task` has ended. -/
  | done
  /-- An exception has left `run_task`. -/
  | rethrown
  deriving DecidableEq

/-- Where the awaiting coroutine is. -/
inductive ParentPc where
  | running
  | suspended
  | resumed
  deriving DecidableEq

/-- How `notify` resumes the awaiting coroutine: through a scheduler, or itself. -/
inductive Wake (σ : Type*) where
  | schedule (scheduler : σ)
  | resume
  deriving DecidableEq

/-- `WhenAllAwaiter` with its `WhenAllCounter`, the children, and the awaiting coroutine. `started`
and `starting` are the place in the loop of `start_tasks`. `promises` has the outcomes of the tasks
that have ended, `wakes` the resumptions that `notify` has arranged, and `returned` what
`await_resume` has returned. -/
structure WhenAll (n : ℕ) (ν ε σ : Type*) where
  parent : ParentPc
  continuation : Bool
  started : ℕ
  starting : Option (Fin n)
  pc : Fin n → ChildPc
  promises : Fin n → Option (Outcome (Option ν) ε)
  results : Fin n → ResultCell ν
  count : ℕ
  wakes : List (Wake σ)
  returned : List (Fin n → ResultCell ν)
  terminated : Bool

/-- A step: of the awaiting coroutine (`await`, `start`, `resumeParent`), of a task (`suspend`,
`resume`, `finish`), or of a `run_task`. `wake` takes `Scheduler::current()`. -/
inductive WhenAllStep (n : ℕ) (ν ε σ : Type*) where
  | await
  | start (i : Fin n)
  | suspend (i : Fin n)
  | resume (i : Fin n)
  | finish (i : Fin n) (outcome : Outcome (Option ν) ε)
  | takeResult (i : Fin n)
  | fetchSub (i : Fin n)
  | wake (i : Fin n) (current : Option σ)
  | resumeParent

namespace WhenAll

variable {n : ℕ} {ν ε σ : Type*}

/-- The awaiter as `when_all` returns it. -/
def new : WhenAll n ν ε σ where
  parent := .running
  continuation := false
  started := 0
  starting := none
  pc _ := .created
  promises _ := none
  results _ := .initial
  count := n
  wakes := []
  returned := []
  terminated := false

/-- A child is at a place. -/
def goto (s : WhenAll n ν ε σ) (i : Fin n) (pc : ChildPc) : WhenAll n ν ε σ :=
  { s with pc := Function.update s.pc i pc }

/-- Control returns to the loop of `start_tasks`, if the child runs inside of it. -/
def leave (s : WhenAll n ν ε σ) (i : Fin n) : WhenAll n ν ε σ :=
  { s with starting := if s.starting = some i then none else s.starting }

/-- `await_ready`. -/
def awaitReady (_ : WhenAll n ν ε σ) : Bool := n == 0

/-- `await_resume`, in the awaiting coroutine. -/
def awaitResume (s : WhenAll n ν ε σ) : WhenAll n ν ε σ :=
  { s with parent := .resumed, returned := s.returned ++ [s.results] }

/-- `await_suspend`, up to the loop of `start_tasks`. -/
def awaitSuspend (s : WhenAll n ν ε σ) : WhenAll n ν ε σ :=
  if n = 0 then s.awaitResume else { s with parent := .suspended, continuation := true }

/-- `co_await` of the awaiter. -/
def await (s : WhenAll n ν ε σ) : WhenAll n ν ε σ :=
  if s.awaitReady then s.awaitResume else s.awaitSuspend

/-- The next call of `run_task` in `start_tasks`. -/
def start (s : WhenAll n ν ε σ) (i : Fin n) : WhenAll n ν ε σ :=
  { s.goto i .running with started := s.started + 1, starting := some i }

/-- The end of a task. -/
def finish (s : WhenAll n ν ε σ) (i : Fin n) (outcome : Outcome (Option ν) ε) : WhenAll n ν ε σ :=
  { s.goto i .finished with promises := Function.update s.promises i (some outcome) }

/-- `run_task` takes the outcome of its task: a value is assigned, an exception is rethrown. -/
def takeResult (s : WhenAll n ν ε σ) (i : Fin n) : Outcome (Option ν) ε → WhenAll n ν ε σ
  | .value r =>
    { s.goto i .assigned with results := Function.update s.results i (.of r) }
  | .exception _ => { s.goto i .rethrown with terminated := true }

/-- `fetch_sub` in `WhenAllCounter::notify`. -/
def fetchSub (s : WhenAll n ν ε σ) (i : Fin n) : WhenAll n ν ε σ :=
  { s.goto i (.notified (s.count == 1)) with count := s.count - 1 }

/-- The rest of `WhenAllCounter::notify`, and the end of `run_task`. -/
def wake (s : WhenAll n ν ε σ) (i : Fin n) (last : Bool) (current : Option σ) : WhenAll n ν ε σ :=
  let s := (s.goto i .done).leave i
  if last ∧ s.continuation then
    match current with
    | some scheduler => { s with wakes := s.wakes ++ [.schedule scheduler] }
    | none => { s with wakes := s.wakes ++ [.resume] }
  else s

/-- What a step does, where it is possible, while the program runs. -/
def next (s : WhenAll n ν ε σ) : WhenAllStep n ν ε σ → Option (WhenAll n ν ε σ)
  | .await => if s.parent = .running then some s.await else none
  | .start i =>
    if s.parent = .suspended ∧ i.val = s.started ∧ s.starting = none then some (s.start i) else none
  | .suspend i => if s.pc i = .running then some ((s.goto i .suspended).leave i) else none
  | .resume i => if s.pc i = .suspended then some (s.goto i .running) else none
  | .finish i outcome => if s.pc i = .running then some (s.finish i outcome) else none
  | .takeResult i =>
    match s.promises i with
    | some outcome => if s.pc i = .finished then some (s.takeResult i outcome) else none
    | none => none
  | .fetchSub i => if s.pc i = .assigned then some (s.fetchSub i) else none
  | .wake i current =>
    match s.pc i with
    | .notified last => some (s.wake i last current)
    | _ => none
  | .resumeParent => if s.returned.length < s.wakes.length then some s.awaitResume else none

/-- What a step does. There is none after `std::terminate`. -/
def step (s : WhenAll n ν ε σ) (a : WhenAllStep n ν ε σ) : Option (WhenAll n ν ε σ) :=
  if s.terminated then none else s.next a

/-- What a step does, by the place of the coroutine that it starts from. -/
inductive StepCase (s : WhenAll n ν ε σ) : WhenAllStep n ν ε σ → WhenAll n ν ε σ → Prop where
  | await (hparent : s.parent = .running) : StepCase s .await s.await
  | start (i : Fin n) (hparent : s.parent = .suspended) (hi : i.val = s.started) :
      StepCase s (.start i) (s.start i)
  | suspend (i : Fin n) (hi : s.pc i = .running) :
      StepCase s (.suspend i) ((s.goto i .suspended).leave i)
  | resume (i : Fin n) (hi : s.pc i = .suspended) : StepCase s (.resume i) (s.goto i .running)
  | finish (i : Fin n) (outcome : Outcome (Option ν) ε) (hi : s.pc i = .running) :
      StepCase s (.finish i outcome) (s.finish i outcome)
  | takeResult (i : Fin n) (outcome : Outcome (Option ν) ε) (hi : s.pc i = .finished)
      (houtcome : s.promises i = some outcome) :
      StepCase s (.takeResult i) (s.takeResult i outcome)
  | fetchSub (i : Fin n) (hi : s.pc i = .assigned) : StepCase s (.fetchSub i) (s.fetchSub i)
  | wake (i : Fin n) (last : Bool) (current : Option σ) (hi : s.pc i = .notified last) :
      StepCase s (.wake i current) (s.wake i last current)
  | resumeParent (hlt : s.returned.length < s.wakes.length) :
      StepCase s .resumeParent s.awaitResume

/-- The inversion of a step. -/
theorem StepCase.of_step {s t : WhenAll n ν ε σ} {a : WhenAllStep n ν ε σ}
    (h : s.step a = some t) : s.terminated = false ∧ StepCase s a t := by
  simp only [step, Option.ite_none_left_eq_some, Bool.not_eq_true] at h
  refine ⟨h.1, ?_⟩
  replace h := h.2
  cases a with
  | start i =>
    obtain ⟨⟨hparent, hi, -⟩, h⟩ := Option.ite_none_right_eq_some.mp h
    exact Option.some.inj h ▸ .start i hparent hi
  | takeResult i =>
    simp only [next] at h
    split at h
    · rename_i outcome houtcome
      obtain ⟨hi, h⟩ := Option.ite_none_right_eq_some.mp h
      exact Option.some.inj h ▸ .takeResult i outcome hi houtcome
    · simp at h
  | wake i current =>
    simp only [next] at h
    split at h
    · exact Option.some.inj h ▸ .wake i _ current ‹_›
    · simp at h
  | _ =>
    obtain ⟨hpc, h⟩ := Option.ite_none_right_eq_some.mp h
    obtain rfl := Option.some.inj h
    constructor
    exact hpc

/-- The last child to end resumes the awaiting coroutine, and moves nothing but itself. -/
theorem wake_frame (s : WhenAll n ν ε σ) (i : Fin n) (last : Bool) (current : Option σ) :
    (s.wake i last current).pc = Function.update s.pc i .done ∧
      (s.wake i last current).parent = s.parent ∧
      (s.wake i last current).continuation = s.continuation ∧
      (s.wake i last current).started = s.started ∧
      (s.wake i last current).promises = s.promises ∧
      (s.wake i last current).results = s.results ∧
      (s.wake i last current).returned = s.returned ∧
      (s.wake i last current).terminated = s.terminated ∧
      (s.wake i last current).count = s.count := by
  unfold wake
  dsimp only
  split_ifs
  · cases current <;> exact ⟨rfl, rfl, rfl, rfl, rfl, rfl, rfl, rfl, rfl⟩
  · exact ⟨rfl, rfl, rfl, rfl, rfl, rfl, rfl, rfl, rfl⟩

end WhenAll

/-- A step of the coroutines, on any thread. -/
def whenAllStep {n : ℕ} {ν ε σ : Type*} (s : WhenAll n ν ε σ) (a : WhenAllStep n ν ε σ)
    (t : WhenAll n ν ε σ) : Prop :=
  s.step a = some t

end Novaio
