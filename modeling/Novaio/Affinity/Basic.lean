import Novaio.CoMutex.Basic
import Novaio.Event.Basic
import Novaio.Worker.Basic

/-!
# Coroutines on the schedulers

The code of the user on the workers of a runtime: any number of coroutines that suspend in tasks,
`sleep_for`, `when_all`, mutexes, events and direct operations, with tasks of the inbox, callbacks,
and other threads that call `unlock`, `set` and `dispatch_on`. What the code does next is open: a
step of a coroutine is any operation that the library offers it, at any time.

A thread that runs code of the user has a stack. `co_await` of a task and the end of a task pass
control from one coroutine to another in the same frame of the stack. The loop of `start_tasks`
calls one `run_task` after another inside of `await_suspend`. A coroutine that suspends returns to
what resumed it.

A coroutine is created where it is first scheduled, awaited, or passed to `when_all`, and a task is
awaited once. User code schedules no other handle. The handles that suspended coroutines are resumed
with are those that the library has stored: the memory of the awaiters of each mutex and each event,
the counters of `when_all`, the continuations of the tasks, and what `Workers` has. A task that is
pushed to an inbox is pushed in one step, so that pushes to one inbox may interleave in any order.
-/

namespace Novaio

/-- A frame on the stack of a thread that runs code of the user. -/
inductive UserFrame (κ ω : Type*) where
  /-- Code that is not in a coroutine: a task of the inbox, a callback, or what another thread
  runs. -/
  | plain
  /-- A coroutine. -/
  | coroutine (k : κ)
  /-- The loop of `start_tasks`, with the number of children that it has not started. -/
  | startTasks (counter : ω) (n : ℕ)

/-- `WhenAllCounter`. -/
structure WhenAllCounter (κ : Type*) where
  count : ℕ
  continuation : Option κ

/-- The runtime, and what the coroutines and the threads that run code of the user have: the stacks,
the coroutines that are created, the continuations of the tasks, the counters, the counter that the
`run_task` of a helper coroutine has, the mutexes and the events. A waiter of an event is a
coroutine with the number of the wait, a setter a thread with the number of the call. `resumptions`
lists the coroutines that were started or resumed, each with the thread. -/
structure Program (σ τ κ μ ι ω : Type*) where
  runtime : Workers σ τ κ
  stack : σ ⊕ τ → List (UserFrame κ ω)
  created : κ → Bool
  continuation : κ → Option κ
  counters : ω → Option (WhenAllCounter κ)
  counterOf : κ → Option ω
  mutexes : μ → CoMutex κ σ
  events : ι → Event (κ × ℕ) ((σ ⊕ τ) × ℕ) σ
  resumptions : List (κ × (σ ⊕ τ))

/-- A step: of the loop, the kernel, or code of the user that involves no coroutine (`runtime`); of
code of the user that schedules a new coroutine; or of a coroutine, on the worker `i` or the
thread `c`. -/
inductive ProgramOp (σ τ κ μ ι ω : Type*) where
  | runtime (op : WorkersOp σ τ κ)
  | schedule (i : σ) (k : κ)
  | sleepFor (i : σ) (node : ℕ) (ms now : UInt64)
  | awaitIo (i : σ) (ctx : ℕ)
  | awaitTask (c : σ ⊕ τ) (task : κ)
  | finish (c : σ ⊕ τ)
  | whenAll (c : σ ⊕ τ) (counter : ω) (n : ℕ)
  | runTask (c : σ ⊕ τ) (helper task : κ)
  | endStartTasks (c : σ ⊕ τ)
  | notify (c : σ ⊕ τ)
  | lock (c : σ ⊕ τ) (mutex : μ) (op : LockOp κ σ) (ok : Bool)
  | event (c : σ ⊕ τ) (event : ι) (op : EventOp (κ × ℕ) ((σ ⊕ τ) × ℕ) σ)

/-- The operation puts a handle into a structure of a scheduler. -/
def WorkerOp.placesHandle {κ : Type*} : WorkerOp κ → Bool
  | .schedule _ | .sleepFor _ _ _ _ | .await _ _ => true
  | _ => false

/-- The operation puts a handle into a structure of a scheduler, or into a message. -/
def WorkersOp.placesHandle {σ τ κ : Type*} : WorkersOp σ τ κ → Bool
  | .worker _ op => op.placesHandle
  | .push _ _ task => task.coro.isSome
  | .notifyCoro _ _ _ _ => true
  | _ => false

/-- `Scheduler::current()`. -/
def currentScheduler {σ τ : Type*} : σ ⊕ τ → Option σ
  | .inl i => some i
  | .inr _ => none

namespace Program

variable {σ τ κ μ ι ω : Type*}

/-- A program at its start. No awaiter has been constructed; the other threads run. -/
def new (buffer : ℕ → Option κ) (expiresAt : ℕ → UInt64) (handle : ℕ → κ) (address : κ → ℕ)
    (waiterAddress : κ × ℕ → ℕ) : Program σ τ κ μ ι ω where
  runtime := .new buffer expiresAt handle
  stack
    | .inl _ => []
    | .inr _ => [.plain]
  created _ := false
  continuation _ := none
  counters _ := none
  counterOf _ := none
  mutexes _ := .new (fun _ => {}) address
  events _ := .new (fun _ => {}) waiterAddress
  resumptions := []

/-- The thread runs code of the user, and is in no call of `dispatch_on`. -/
def acts (s : Program σ τ κ μ ι ω) (c : σ ⊕ τ) : Bool :=
  s.runtime.acts c && match s.runtime.calls c with
    | .idle => true
    | _ => false

/-- The coroutine that the thread runs. -/
def running (s : Program σ τ κ μ ι ω) (c : σ ⊕ τ) : Option κ :=
  match s.stack c with
  | .coroutine k :: _ => if s.acts c then some k else none
  | _ => none

variable [DecidableEq σ] [DecidableEq τ]

/-- A thread has a stack. -/
def setStack (s : Program σ τ κ μ ι ω) (c : σ ⊕ τ) (frames : List (UserFrame κ ω)) :
    Program σ τ κ μ ι ω :=
  { s with stack := Function.update s.stack c frames }

/-- The topmost frame returns. -/
def leave (s : Program σ τ κ μ ι ω) (c : σ ⊕ τ) : Program σ τ κ μ ι ω :=
  s.setStack c (s.stack c).tail

/-- A coroutine is started or resumed, on top of the stack. -/
def enter (s : Program σ τ κ μ ι ω) (c : σ ⊕ τ) (k : κ) : Program σ τ κ μ ι ω :=
  { s.setStack c (.coroutine k :: s.stack c) with resumptions := s.resumptions ++ [(k, c)] }

/-- A step of the loop, of the kernel, or of code of the user that involves no coroutine. The loop
resumes a coroutine or calls code of the user, to which it returns when its stack is empty. -/
def runtimeStep (s : Program σ τ κ μ ι ω) (op : WorkersOp σ τ κ) :
    Option (Program σ τ κ μ ι ω) :=
  if op.placesHandle then none
  else
    match op with
    | .worker i (.resume false) =>
      match (s.runtime.workers i).pc with
      | .batch (k :: _) => (s.runtime.step op).map fun runtime =>
          ({ s with runtime := runtime }.setStack (.inl i) []).enter (.inl i) k
      | _ => (s.runtime.step op).map fun runtime => { s with runtime := runtime }
    | .worker i .leave =>
      match s.stack (.inl i) with
      | [] | [.plain] => (s.runtime.step op).map fun runtime =>
          { s with runtime := runtime }.setStack (.inl i) []
      | _ => none
    | .worker i .pop | .worker i .poll => (s.runtime.step op).map fun runtime =>
        let s := { s with runtime := runtime }
        if (runtime.workers i).pc.user then s.setStack (.inl i) [.plain] else s
    | _ => (s.runtime.step op).map fun runtime => { s with runtime := runtime }

/-- A step of the runtime in a step of user code. -/
def within (s : Program σ τ κ μ ι ω) (op : WorkersOp σ τ κ) : Option (Program σ τ κ μ ι ω) :=
  (s.runtime.step op).map fun runtime => { s with runtime := runtime }

variable [DecidableEq κ]

/-- A coroutine is created. -/
def create (s : Program σ τ κ μ ι ω) (k : κ) : Program σ τ κ μ ι ω :=
  { s with created := Function.update s.created k true }

/-! ## Tasks and `when_all` -/

/-- `co_await` of a task: the continuation is stored, and control passes to the task. -/
def awaitTask (s : Program σ τ κ μ ι ω) (c : σ ⊕ τ) (k task : κ) : Program σ τ κ μ ι ω :=
  let s := s.create task
  ({ s with continuation := Function.update s.continuation task (some k) }.leave c).enter c task

omit [DecidableEq κ] in
/-- `FinalAwaiter`: control passes to the continuation, if there is one. -/
def finish (s : Program σ τ κ μ ι ω) (c : σ ⊕ τ) (k : κ) : Program σ τ κ μ ι ω :=
  match s.continuation k with
  | some p => (s.leave c).enter c p
  | none => s.leave c

omit [DecidableEq κ] in
/-- `WhenAllAwaiter::await_suspend`, up to the loop of `start_tasks`. -/
def whenAll [DecidableEq ω] (s : Program σ τ κ μ ι ω) (c : σ ⊕ τ) (k : κ) (counter : ω) (n : ℕ) :
    Program σ τ κ μ ι ω :=
  { s with counters := Function.update s.counters counter (some ⟨n, some k⟩) }.setStack c
    (.startTasks counter n :: (s.stack c).tail)

/-- An iteration of `start_tasks`: `run_task` starts, and awaits its task. -/
def runTask (s : Program σ τ κ μ ι ω) (c : σ ⊕ τ) (counter : ω) (n : ℕ) (helper task : κ) :
    Program σ τ κ μ ι ω :=
  let s := (s.create helper).setStack c (.startTasks counter n :: (s.stack c).tail)
  let s := { s with counterOf := Function.update s.counterOf helper (some counter) }
  (s.enter c helper).awaitTask c helper task

/-- `WhenAllCounter::notify`, and the end of `run_task`. -/
def notify [DecidableEq ω] (s : Program σ τ κ μ ι ω) (c : σ ⊕ τ) (helper : κ) (counter : ω) :
    Option (Program σ τ κ μ ι ω) :=
  match s.counters counter with
  | some whenAllCounter =>
    let s := { s with
      counters := Function.update s.counters counter
        (some { whenAllCounter with count := whenAllCounter.count - 1 })
      counterOf := Function.update s.counterOf helper none }.leave c
    if whenAllCounter.count = 1 then
      match whenAllCounter.continuation, currentScheduler c with
      | some k, some i => s.within (.worker i (.schedule k))
      | some k, none => some (s.enter c k)
      | none, _ => some s
    else some s
  | none => none

/-! ## Mutexes and events -/

/-- The step belongs to what the thread runs. A coroutine locks on the thread that runs it; any
thread may be the one that calls `unlock`. -/
def mayLock (s : Program σ τ κ μ ι ω) (c : σ ⊕ τ) : LockOp κ σ → Bool
  | .load k _ current => s.running c = some k ∧ current = currentScheduler c
  | .compareExchangeWeak k _ | .resume k => s.running c = some k
  | .select _ current => s.acts c ∧ current = currentScheduler c
  | .unlock _ | .exchange _ | .compareExchangeStrong _ | .exchangeAgain _ | .reverse _ => s.acts c

omit [DecidableEq κ] in
/-- What `unlock` does to have a waiter resumed. The handle of an awaiter is not null. -/
def handOver (c : σ ⊕ τ) (ok : Bool) :
    List (Handover κ σ) → Program σ τ κ μ ι ω → Option (Program σ τ κ μ ι ω)
  | [], s => some s
  | .schedule i (some k) :: handovers, s =>
    (s.within (.worker i (.schedule k))).bind (handOver c ok handovers)
  | .notifyTargetRing i (some k) :: handovers, s =>
    (s.within (.notifyCoro c i k ok)).bind (handOver c ok handovers)
  | .schedule _ none :: _, _ | .notifyTargetRing _ none :: _, _ => none

/-- A step of a coroutine or of a thread that uses a mutex. -/
def lock [DecidableEq μ] (s : Program σ τ κ μ ι ω) (c : σ ⊕ τ) (m : μ) (op : LockOp κ σ)
    (ok : Bool) : Option (Program σ τ κ μ ι ω) :=
  if s.mayLock c op then
    ((s.mutexes m).step op).bind fun mutex =>
      let handovers := mutex.handovers.drop (s.mutexes m).handovers.length
      (handOver c ok handovers { s with mutexes := Function.update s.mutexes m mutex }).map fun s =>
        match op with
        | .compareExchangeWeak k _ => if mutex.pc k = .suspended then s.leave c else s
        | _ => s
  else none

/-- The step belongs to what the thread runs. -/
def maySignal (s : Program σ τ κ μ ι ω) (c : σ ⊕ τ) :
    EventOp (κ × ℕ) ((σ ⊕ τ) × ℕ) σ → Bool
  | .awaitReady waiter _ => s.running c = some waiter.1
  | .awaitSuspend waiter current => s.running c = some waiter.1 ∧ current = currentScheduler c
  | .exchange setter | .detach setter => s.acts c ∧ setter.1 = c
  | .resumeWaiter setter current => s.acts c ∧ setter.1 = c ∧ current = currentScheduler c

omit [DecidableEq κ] in
/-- What `set` does to have a waiter resumed. -/
def resumeWaiter (c : σ ⊕ τ) :
    List (Resumption (κ × ℕ) σ) → Program σ τ κ μ ι ω → Option (Program σ τ κ μ ι ω)
  | [], s => some s
  | .schedule i coro :: resumptions, s =>
    (s.within (.worker i (.schedule coro.1))).bind (resumeWaiter c resumptions)
  | .dispatchOn i coro :: resumptions, s =>
    (s.within (.push c i ⟨some (.schedule coro.1)⟩)).bind (resumeWaiter c resumptions)
  | .resume coro :: resumptions, s => resumeWaiter c resumptions (s.enter c coro.1)

/-- A step of a coroutine or of a thread that uses an event. -/
def event [DecidableEq ι] (s : Program σ τ κ μ ι ω) (c : σ ⊕ τ) (e : ι)
    (op : EventOp (κ × ℕ) ((σ ⊕ τ) × ℕ) σ) : Option (Program σ τ κ μ ι ω) :=
  if s.maySignal c op then
    ((s.events e).step op).bind fun event =>
      let resumptions := event.resumptions.drop (s.events e).resumptions.length
      (resumeWaiter c resumptions
        { s with events := Function.update s.events e event }).map fun s =>
        match op with
        | .awaitSuspend waiter _ => if event.waiterPc waiter = .suspended then s.leave c else s
        | _ => s
  else none

/-! ## The steps -/

variable [DecidableEq μ] [DecidableEq ι] [DecidableEq ω]

/-- What a step does, where it is possible. -/
def step (s : Program σ τ κ μ ι ω) : ProgramOp σ τ κ μ ι ω → Option (Program σ τ κ μ ι ω)
  | .runtime op => s.runtimeStep op
  | .schedule i k =>
    if s.acts (.inl i) ∧ s.created k = false then (s.create k).within (.worker i (.schedule k))
    else none
  | .sleepFor i node ms now =>
    match s.running (.inl i) with
    | some k => (s.within (.worker i (.sleepFor node ms now k))).map fun s => s.leave (.inl i)
    | none => none
  | .awaitIo i ctx =>
    match s.running (.inl i) with
    | some k => (s.within (.worker i (.await ctx k))).map fun s => s.leave (.inl i)
    | none => none
  | .awaitTask c task =>
    match s.running c with
    | some k => if s.created task = false then some (s.awaitTask c k task) else none
    | none => none
  | .finish c =>
    match s.running c with
    | some k => if s.counterOf k = none then some (s.finish c k) else none
    | none => none
  | .whenAll c counter n =>
    match s.running c, s.counters counter with
    | some k, none => if n ≠ 0 then some (s.whenAll c k counter n) else none
    | _, _ => none
  | .runTask c helper task =>
    match s.stack c with
    | .startTasks counter (n + 1) :: _ =>
      if s.acts c ∧ s.created helper = false ∧ s.created task = false ∧ helper ≠ task then
        some (s.runTask c counter n helper task)
      else none
    | _ => none
  | .endStartTasks c =>
    match s.stack c with
    | .startTasks _ 0 :: _ => if s.acts c then some (s.leave c) else none
    | _ => none
  | .notify c =>
    match s.running c with
    | some helper =>
      match s.counterOf helper with
      | some counter => s.notify c helper counter
      | none => none
    | none => none
  | .lock c m op ok => s.lock c m op ok
  | .event c e op => s.event c e op

end Program

/-- A step of the program, in which a mutex or an event takes one of its steps. -/
def programStep {σ τ κ μ ι ω : Type*} [DecidableEq σ] [DecidableEq τ] [DecidableEq κ]
    [DecidableEq μ] [DecidableEq ι] [DecidableEq ω] (s : Program σ τ κ μ ι ω)
    (op : ProgramOp σ τ κ μ ι ω) (t : Program σ τ κ μ ι ω) : Prop :=
  s.step op = some t ∧
    match op with
    | .lock _ m op _ => lockStep (s.mutexes m) op (t.mutexes m)
    | .event _ e op => eventStep (s.events e) op (t.events e)
    | _ => True

end Novaio
