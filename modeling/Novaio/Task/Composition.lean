import Novaio.Task.Completion

/-!
# Tasks compose as functions do

A task is at all times its body, run as an ordinary function on the inputs that it has got, and so
is its result in the end. An await is a call, the end of the task is the return from it, and every
task gets to its end with the inputs that its body takes (`tasks_compose`).
-/

namespace Novaio

open Transition Interaction

variable {ν ε : Type*}

/-- The coroutines compose as functions do. -/
structure TaskMachine.Composes [Inhabited ν] (s : TaskMachine ν ε) : Prop where
  /-- To await a task is to start it, with the coroutine as its continuation. -/
  awaits (h : ℕ) (task : Code ν ε) (contexts : List (Context ν ε)) : h < s.next →
    (s.frames h).control = .running (.await task) contexts → ∃ t, taskStep s (.run h) t ∧
      (t.frames h).control = .awaiting s.next contexts ∧
      t.frames s.next = ⟨task, .running task [], { value := default, continuation := some h }⟩ ∧
      ∀ n < s.next, n ≠ h → t.frames n = s.frames n
  /-- The end of a task continues what awaits it, with the outcome of the task. -/
  returns (m : ℕ) (o : Outcome ν ε) : m < s.next → (s.frames m).control = .running o.code [] →
    ∃ t, taskStep s (.run m) t ∧ (t.frames m).control = .final ∧
      (t.frames m).promise.awaitResume = o ∧ ∀ p, (s.frames m).promise.continuation = some p →
        ∃ contexts, (s.frames p).control = .awaiting m contexts ∧
          (t.frames p).control = .running o.code contexts ∧
          t.continued = s.continued ++ [(m, o)]
  /-- No task is continued twice. -/
  continued_once : (s.continued.map Prod.fst).Nodup
  /-- Of the tasks that are awaited, those that have ended are continued, and no others. -/
  continued_iff (m : ℕ) : m < s.next → (s.frames m).promise.continuation ≠ none →
    ((∃ o, (m, o) ∈ s.continued) ↔ (s.frames m).control = .final)
  /-- What an await yields is what its task evaluates to as an ordinary function. -/
  await_eq (m : ℕ) (o : Outcome ν ε) : (m, o) ∈ s.continued →
    (s.frames m).body.evaluate (s.inputs m) = some (o, [])
  /-- And so is the result of every task that has ended. -/
  result_eq (m : ℕ) : m < s.next → (s.frames m).control = .final →
    (s.frames m).body.evaluate (s.inputs m) = some ((s.frames m).promise.awaitResume, [])
  /-- A task that awaits another one waits for a coroutine that runs, or for an operation. -/
  waits (h m : ℕ) (contexts : List (Context ν ε)) : h < s.next →
    (s.frames h).control = .awaiting m contexts → ∃ k < s.next, h ∈ s.callers s.next k ∧
      ((∃ code contexts, (s.frames k).control = .running code contexts) ∨
        ∃ contexts, (s.frames k).control = .suspended contexts)
  /-- Every task can get to its end, with the inputs that its body takes as an ordinary function,
  and its result is then what the body evaluates to. -/
  completes (h : ℕ) (inputs : List (Outcome ν ε)) (o : Outcome ν ε) : h < s.next →
    (s.frames h).body.evaluate (s.inputs h ++ inputs) = some (o, []) →
      ∃ t, Reachable taskStep s t ∧ (t.frames h).body = (s.frames h).body ∧
        t.inputs h = s.inputs h ++ inputs ∧ (t.frames h).control = .final ∧
        (t.frames h).promise.awaitResume = o

namespace TaskMachine

variable [Inhabited ν] {s : TaskMachine ν ε}

/-- Where the links are consistent and what is left agrees with the bodies, coroutines compose. -/
theorem Sound.composes (hsound : s.Sound) (hs : s.Consistent) : s.Composes := by
  have hresult : ∀ m, m < s.next → (s.frames m).control = .final →
      (s.frames m).body.evaluate (s.inputs m) = some ((s.frames m).promise.awaitResume, []) := by
    intro m hm hend
    obtain ⟨r, hr, hfeed⟩ := hsound m hm
    rw [hr.of_final hend] at hfeed
    rw [Code.evaluate_eq_run, Comp.run_of_feed hfeed]
  constructor
  case awaits =>
    intro h task contexts hlt hc
    obtain ⟨t, hstep, -, hawait, hchild, hother, -⟩ := exists_call hlt hc
    exact ⟨t, hstep, hawait, hchild, hother⟩
  case returns =>
    intro m o hm hc
    obtain ⟨hend, hvalue, -⟩ := hs.finish_control hm hc o
    refine ⟨s.finish m o, step_finish hm hc, hend, hvalue, fun p hp => ?_⟩
    obtain ⟨contexts, hpc, hframe, hlog⟩ := hs.returns hm hc hp
    exact ⟨contexts, hpc, by rw [hframe], hlog⟩
  case continued_once => exact hs.continued_nodup
  case continued_iff =>
    intro m hm hcont
    constructor
    · rintro ⟨o, ho⟩
      exact (hs.of_continued ho).2.1
    · intro hend
      exact hs.continued_of_final hm hend hcont
  case await_eq =>
    intro m o ho
    obtain ⟨hm, hend, rfl, -⟩ := hs.of_continued ho
    exact hresult m hm hend
  case result_eq => exact hresult
  case waits =>
    intro h m contexts hlt hc
    obtain ⟨r, hr, -⟩ := hsound h hlt
    exact exists_leaf hs hlt hr hc
  case completes => exact fun h inputs o hlt heval => hsound.completes hs hlt heval

end TaskMachine

/-- In every run of any number of trees of tasks, whatever the order of the steps of the coroutines
and of the resumptions of operations: every await starts its task and is continued once, when the
task has ended, with what the body of the task evaluates to as an ordinary function, and every task
can get to its end. -/
theorem tasks_compose [Inhabited ν] (l : List (TaskStep ν ε × TaskMachine ν ε))
    (hl : Path taskStep TaskMachine.new l) : ∀ x ∈ l, x.2.Composes := by
  have hall := (hl.invariant (I := fun s => s.Consistent ∧ s.Sound)
    (fun _ _ _ h hstep => ⟨h.1.step hstep, h.2.step h.1 hstep⟩)
    ⟨TaskMachine.new_consistent, TaskMachine.new_sound⟩).1
  exact fun x hx => (hall x hx).2.composes (hall x hx).1

/-- A task that suspends and then throws what it got, awaited inside of a handler. -/
theorem tasks_compose_catch :
    ∃ l : List (TaskStep ℕ ℕ × TaskMachine ℕ ℕ),
      l.map Prod.fst = [.create (.tryCatch (.await (.bind .suspend .throw)) fun e => .pure (e + 1)),
        .start 0, .run 0, .run 0, .run 1, .run 1, .resume 1 (.value 7), .run 1, .run 1, .run 0,
        .run 0] ∧
      Path taskStep TaskMachine.new l ∧
      (last TaskMachine.new l).continued = [(1, .exception 7)] ∧
      ((last TaskMachine.new l).frames 0).promise.awaitResume = .value 8 ∧
      ∀ x ∈ l, x.2.Composes := by
  obtain ⟨l, hsteps, hl, hend⟩ := exists_path TaskMachine.step TaskMachine.new
    [.create (.tryCatch (.await (.bind .suspend .throw)) fun e => .pure (e + 1)), .start 0, .run 0,
      .run 0, .run 1, .run 1, .resume 1 (.value 7), .run 1, .run 1, .run 0, .run 0]
    (fun s : TaskMachine ℕ ℕ => (s.continued, (s.frames 0).promise.awaitResume))
    (b := ([(1, .exception 7)], .value 8)) rfl
  exact ⟨l, hsteps, hl, congrArg Prod.fst hend, congrArg Prod.snd hend, tasks_compose l hl⟩

end Novaio
