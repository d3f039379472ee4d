import Mathlib.Data.List.Basic
import Mathlib.Logic.Function.Basic
import Novaio.Lib.Path
import Novaio.Lib.Resumption

/-!
# Tasks

`Task<T>` and `Task<void>` of `include/novaio/task.hpp`. The body of a coroutine is a `Code`: it
computes, throws, catches, awaits other tasks, and suspends for what is outside of the tasks, which
resumes it with a value or an exception. All tasks return values of one type; `Task<void>` returns
one of its values. The frame of a task is created where it is awaited: until then nothing of its
body is executed, as `initial_suspend` always suspends.

`Code.evaluate` is what the body does as an ordinary function, where awaiting a task is calling it.
`TaskMachine` is what the coroutines do: every task has a frame, with a promise that has the result
and the continuation, and control passes from one frame to another at an await and at the end of a
body. Any number of tasks that nothing awaits may be created and started, at any time; a frame that
runs takes its next step at any time.
-/

namespace Novaio

open Transition Interaction

/-- How a body ends, or how a suspension does. -/
inductive Outcome (ν ε : Type*) where
  | value (v : ν)
  | exception (e : ε)
  deriving DecidableEq

/-- The body of a coroutine. -/
inductive Code (ν ε : Type*) where
  /-- A value. -/
  | pure (v : ν)
  /-- `throw e`. -/
  | throw (e : ε)
  /-- `co_await` of an operation that suspends. -/
  | suspend
  /-- `co_await` of a new task. -/
  | await (task : Code ν ε)
  /-- One part of a body after another. -/
  | bind (code : Code ν ε) (rest : ν → Code ν ε)
  /-- `try { code } catch (e) { handler }`. -/
  | tryCatch (code : Code ν ε) (handler : ε → Code ν ε)

variable {ν ε : Type*}

/-- The code that ends in this way at once. -/
def Outcome.code : Outcome ν ε → Code ν ε
  | .value v => .pure v
  | .exception e => .throw e

/-- The body as an ordinary function, in which `co_await` of a task is a call. The operations that
suspend take their outcomes from a list, whose rest is returned. -/
def Code.evaluate : Code ν ε → List (Outcome ν ε) → Option (Outcome ν ε × List (Outcome ν ε))
  | .pure v, inputs => some (.value v, inputs)
  | .throw e, inputs => some (.exception e, inputs)
  | .suspend, input :: inputs => some (input, inputs)
  | .suspend, [] => none
  | .await task, inputs => task.evaluate inputs
  | .bind code rest, inputs =>
    match code.evaluate inputs with
    | some (.value v, inputs) => (rest v).evaluate inputs
    | some (.exception e, inputs) => some (.exception e, inputs)
    | none => none
  | .tryCatch code handler, inputs =>
    match code.evaluate inputs with
    | some (.value v, inputs) => some (.value v, inputs)
    | some (.exception e, inputs) => (handler e).evaluate inputs
    | none => none

/-- What a body goes on with after the part that it executes: the rest, or a handler. -/
inductive Context (ν ε : Type*) where
  | rest (k : ν → Code ν ε)
  | handler (h : ε → Code ν ε)

/-- A context goes on with the outcome of the part. -/
def Context.resume : Context ν ε → Outcome ν ε → Code ν ε
  | .rest k, .value v => k v
  | .rest _, .exception e => .throw e
  | .handler _, .value v => .pure v
  | .handler h, .exception e => h e

/-- Where a coroutine is. `contexts` are the rest of its body, from the inside. -/
inductive Control (ν ε : Type*) where
  /-- Suspended at its start. -/
  | initial (body : Code ν ε)
  | running (code : Code ν ε) (contexts : List (Context ν ε))
  /-- Suspended for an operation. -/
  | suspended (contexts : List (Context ν ε))
  /-- Suspended in `co_await` of the task with this handle. -/
  | awaiting (task : ℕ) (contexts : List (Context ν ε))
  /-- Suspended at its end. -/
  | final

/-- `promise_type`. -/
structure Promise (ν ε : Type*) where
  value : ν
  exception : Option ε := none
  continuation : Option ℕ := none

/-- The frame of a coroutine, with the body that it was created with. -/
structure Frame (ν ε : Type*) where
  body : Code ν ε
  control : Control ν ε
  promise : Promise ν ε

/-- The frames by their handles, of which those below `next` are in use. `continued` lists the calls
of `await_resume`, each with the handle of its task and its outcome. `resumptions` lists the
resumptions of suspended operations, each with the frames that it is for: the one that is suspended,
the one that awaits it, and so on. -/
structure TaskMachine (ν ε : Type*) where
  next : ℕ
  frames : ℕ → Frame ν ε
  continued : List (ℕ × Outcome ν ε)
  resumptions : List (List ℕ × Outcome ν ε)

/-- A step: a task is created that nothing awaits; such a task is started; a coroutine that runs
goes on; an operation for which a coroutine is suspended resumes it. -/
inductive TaskStep (ν ε : Type*) where
  | create (body : Code ν ε)
  | start (h : ℕ)
  | run (h : ℕ)
  | resume (h : ℕ) (input : Outcome ν ε)

/-- `await_resume`: the exception is rethrown, and the value is returned otherwise. -/
def Promise.awaitResume (p : Promise ν ε) : Outcome ν ε :=
  match p.exception with
  | some e => .exception e
  | none => .value p.value

/-- `return_value`. -/
def Promise.returnValue (p : Promise ν ε) (v : ν) : Promise ν ε := { p with value := v }

/-- `unhandled_exception`. -/
def Promise.unhandledException (p : Promise ν ε) (e : ε) : Promise ν ε :=
  { p with exception := some e }

namespace TaskMachine

/-- There is no coroutine. -/
def new [Inhabited ν] : TaskMachine ν ε where
  next := 0
  frames _ := ⟨.pure default, .final, { value := default }⟩
  continued := []
  resumptions := []

/-- A frame is changed. -/
def modify (s : TaskMachine ν ε) (h : ℕ) (f : Frame ν ε → Frame ν ε) : TaskMachine ν ε :=
  { s with frames := Function.update s.frames h (f (s.frames h)) }

/-- A coroutine is at a place. -/
def goto (s : TaskMachine ν ε) (h : ℕ) (control : Control ν ε) : TaskMachine ν ε :=
  s.modify h ({ · with control := control })

/-- The frames that a resumption of a frame is for: the frame, its continuation, and so on. -/
def callers (s : TaskMachine ν ε) : ℕ → ℕ → List ℕ
  | 0, _ => []
  | n + 1, h =>
    h :: match (s.frames h).promise.continuation with
      | some p => s.callers n p
      | none => []

/-- `get_return_object`, with `initial_suspend`: a new frame. -/
def create [Inhabited ν] (s : TaskMachine ν ε) (body : Code ν ε) : TaskMachine ν ε :=
  { s with
    next := s.next + 1
    frames := Function.update s.frames s.next ⟨body, .initial body, { value := default }⟩ }

/-- The resumption of a coroutine from its initial suspension. -/
def start (s : TaskMachine ν ε) (h : ℕ) (body : Code ν ε) : TaskMachine ν ε :=
  s.goto h (.running body [])

/-- `co_await` of a task: its awaiter's `await_suspend` stores the continuation, and control passes
to the task. -/
def awaitSuspend (s : TaskMachine ν ε) (h task : ℕ) (body : Code ν ε)
    (contexts : List (Context ν ε)) : TaskMachine ν ε :=
  -- By symmetric transfer, the task runs in place of the coroutine that awaits it.
  let s := s.modify task fun f => { f with promise := { f.promise with continuation := some h } }
  (s.goto h (.awaiting task contexts)).start task body

/-- The resumption of a coroutine that awaits a task: `await_resume` reads the promise of the
task. -/
def resumeAwait (s : TaskMachine ν ε) (h task : ℕ) (contexts : List (Context ν ε)) :
    TaskMachine ν ε :=
  let outcome := (s.frames task).promise.awaitResume
  { s.goto h (.running outcome.code contexts) with
    continued := s.continued ++ [(task, outcome)] }

/-- `FinalAwaiter`: control passes to the continuation, if there is one. -/
def finalSuspend (s : TaskMachine ν ε) (h : ℕ) : TaskMachine ν ε :=
  let s := s.goto h .final
  match (s.frames h).promise.continuation with
  | some p =>
    -- The continuation goes on with the promise of the task.
    match (s.frames p).control with
    | .awaiting task contexts => s.resumeAwait p task contexts
    | _ => s
  | none => s

/-- The end of a body. -/
def finish (s : TaskMachine ν ε) (h : ℕ) : Outcome ν ε → TaskMachine ν ε
  | .value v =>
    (s.modify h fun f => { f with promise := f.promise.returnValue v }).finalSuspend h
  | .exception e =>
    (s.modify h fun f => { f with promise := f.promise.unhandledException e }).finalSuspend h

/-- A part of a body ends. -/
def endPart (s : TaskMachine ν ε) (h : ℕ) (outcome : Outcome ν ε) :
    List (Context ν ε) → TaskMachine ν ε
  | [] => s.finish h outcome
  | context :: contexts => s.goto h (.running (context.resume outcome) contexts)

/-- A coroutine that runs goes on. -/
def execute [Inhabited ν] (s : TaskMachine ν ε) (h : ℕ) (contexts : List (Context ν ε)) :
    Code ν ε → TaskMachine ν ε
  | .pure v => s.endPart h (.value v) contexts
  | .throw e => s.endPart h (.exception e) contexts
  | .suspend => s.goto h (.suspended contexts)
  | .await task => (s.create task).awaitSuspend h s.next task contexts
  | .bind code rest => s.goto h (.running code (.rest rest :: contexts))
  | .tryCatch code handler => s.goto h (.running code (.handler handler :: contexts))

/-- What a step does, where it is possible. -/
def step [Inhabited ν] (s : TaskMachine ν ε) : TaskStep ν ε → Option (TaskMachine ν ε)
  | .create body => some (s.create body)
  | .start h =>
    match (s.frames h).control with
    | .initial body => if h < s.next then some (s.start h body) else none
    | _ => none
  | .run h =>
    match (s.frames h).control with
    | .running code contexts => if h < s.next then some (s.execute h contexts code) else none
    | _ => none
  | .resume h input =>
    match (s.frames h).control with
    | .suspended contexts =>
      if h < s.next then
        some { s.goto h (.running input.code contexts) with
          resumptions := s.resumptions ++ [(s.callers s.next h, input)] }
      else none
    | _ => none

/-- The inputs of a task: the outcomes with which the operations were resumed for which it was
suspended, or a task was that it awaited, or that this one awaited, and so on. -/
def inputs (s : TaskMachine ν ε) (h : ℕ) : List (Outcome ν ε) :=
  s.resumptions.filterMap fun r => if h ∈ r.1 then some r.2 else none

end TaskMachine

/-- A step of the coroutines. -/
def taskStep [Inhabited ν] (s : TaskMachine ν ε) (a : TaskStep ν ε) (t : TaskMachine ν ε) : Prop :=
  s.step a = some t

end Novaio
