import Novaio.IoEngine
import Novaio.RunQueue
import Novaio.Runtime
import Novaio.TimeWheel.Firing

/-!
# The loop of the schedulers

`Scheduler::run` of `src/scheduler.cpp` on the worker threads of a runtime, with the functions that
it calls, step by step: what another thread may do in between is between two steps. `LoopPc` names
the places of the loop. At some of them code of the user runs: a task of the inbox, a coroutine, or
the callback of a multishot operation. It may schedule coroutines, arm timers, prepare operations
and send messages to other rings, as often as it likes, and then returns to the loop.

A call of `Runtime::dispatch_on`, by user code or by a thread that is not a worker, takes three
steps: the push to the inbox, the load of the target's `ring_fd`, and the notification.

The kernel completes what has been submitted in any order. The entry of a message completes on the
ring of its target, with the data of the message, and on its own.
-/

namespace Novaio

/-- Where a worker thread is in `Scheduler::run`. -/
inductive LoopPc (κ : Type*) where
  /-- Before the end of `IoEngine::init`. -/
  | created
  /-- At the condition of the loop. -/
  | head
  /-- In the loop over the ticks, before the tick `t`. -/
  | ticking (t now : UInt64)
  /-- In `process_inbox`, called by `poll` or by the loop. -/
  | inbox (polled : Bool)
  /-- In a task that `process_inbox` invokes. -/
  | task (polled : Bool)
  /-- Before `try_dequeue_batch`. -/
  | dequeue
  /-- In the loop over the batch, with the handles that remain. -/
  | batch (handles : List κ)
  /-- In a coroutine that the loop over the batch has resumed. -/
  | coroutine (k : κ) (handles : List κ)
  /-- Before `io_uring_submit`. -/
  | submit
  /-- In `process_io_events`, before `next_timeout`. -/
  | plan
  /-- In `io_uring_wait_cqe`, or in `io_uring_wait_cqe_timeout` with the timeout. -/
  | wait (timeout : Option UInt64)
  /-- In `poll`. -/
  | poll
  /-- In the callback of a multishot operation, called by `poll`. -/
  | callback
  /-- Returned from `run`. -/
  | stopped
  /-- A null pointer was written through. -/
  | crashed

/-- Code of the user runs. -/
def LoopPc.user {κ : Type*} : LoopPc κ → Bool
  | .task _ | .coroutine _ _ | .callback => true
  | _ => false

/-- A scheduler with its thread: its place in the loop, and what it owns. -/
structure Worker (σ κ : Type*) where
  pc : LoopPc κ
  engine : IoEngine σ κ
  queue : RunQueue κ
  inbox : SpscQueue (UniqueTask (Closure κ Unit))
  wheel : TimeWheel ℕ κ
  lastTickTime : UInt64

/-- A step of a worker thread that concerns its own scheduler alone: a step of the loop, or one of
the user's code that runs in it. Those that depend on it take `current_time_ms()`. -/
inductive WorkerOp (κ : Type*) where
  | init (tryInit : ℕ → Bool → Bool) (now : UInt64)
  | check (now : UInt64)
  | tick (fuel : ℕ)
  | pop
  | tryDequeueBatch
  | resume (done : Bool)
  | plan (now : UInt64)
  | wake
  | timeout
  | interrupt
  | poll
  | schedule (handle : κ)
  | sleepFor (node : ℕ) (ms now : UInt64) (handle : κ)
  | call (call : IoCall)
  | await (ctx : ℕ) (handle : κ)
  | cancel (ctx : ℕ)
  | leave

namespace Worker

variable {σ κ : Type*}

/-- A scheduler as constructed, whose thread has not started. The memory of its run queue and of the
timers is given. -/
def new (buffer : ℕ → Option κ) (expiresAt : ℕ → UInt64) (handle : ℕ → κ) : Worker σ κ where
  pc := .created
  engine := .new
  queue := .new buffer
  inbox := .new
  wheel := .empty expiresAt handle
  lastTickTime := 0

/-- The thread is at a place. -/
def goto (w : Worker σ κ) (pc : LoopPc κ) : Worker σ κ := { w with pc := pc }

/-- `Scheduler::schedule`, of a handle that is not null. -/
def schedule (w : Worker σ κ) (handle : κ) : Worker σ κ :=
  { w with queue := w.queue.schedule (some handle) }

/-- The wheel after a call of `tick`, whose firings are scheduled. -/
def fire (w : Worker σ κ) (wheel : TimeWheel ℕ κ) : Worker σ κ :=
  (wheel.fired.drop w.wheel.fired.length).foldl (fun w firing => w.schedule firing.handle)
    { w with wheel := wheel }

/-- `process_inbox` invokes a task. -/
def invoke (w : Worker σ κ) (polled : Bool) (task : UniqueTask (Closure κ Unit)) : Worker σ κ :=
  match task.callable with
  | some (.schedule coro) => w.schedule coro
  | some (.other _) => w.goto (.task polled)
  | none => w

/-- `IoEngine::poll` handles a completion. -/
def handle (w : Worker σ κ) (cqe : Cqe κ) : Worker σ κ :=
  match cqe.userData with
  | .io (some ctx) =>
    -- The context of an operation that has been cancelled is deleted.
    if (w.engine.contexts ctx).cancelled then w
    else
      let engine := w.engine.setContext ctx
        ({ · with res := cqe.result.res, flags := cqe.result.flags })
      let w := { w with engine := engine }
      match (engine.contexts ctx).coro with
      | some h => w.schedule h
      | none => w
  | .multi (some _) => w.goto .callback
  -- Nothing is done with a null pointer, as it comes with a sent message.
  | .io none | .multi none => w
  | .coro h => w.schedule h
  | .inbox => w.goto (.inbox true)

/-- User code returns to the loop. -/
def leave (w : Worker σ κ) : Option (Worker σ κ) :=
  match w.pc with
  | .task polled => some (w.goto (.inbox polled))
  | .coroutine _ handles => some (w.goto (.batch handles))
  | .callback => some (w.goto .poll)
  | _ => none

/-- What a step does, where it is possible, while the runtime runs or not. -/
def step (running : Bool) (w : Worker σ κ) : WorkerOp κ → Option (Worker σ κ)
  | .init tryInit now =>
    match w.pc, initDepth tryInit with
    | .created, some depth =>
      some { w with pc := .head, engine := w.engine.init depth, lastTickTime := now }
    | _, _ => none
  | .check now =>
    match w.pc with
    | .head =>
      -- All ticks since the last one are caught up with, one by one.
      if !running then some (w.goto .stopped)
      else if now > w.lastTickTime then some (w.goto (.ticking (w.lastTickTime + 1) now))
      else some (w.goto (.inbox false))
    | _ => none
  | .tick fuel =>
    match w.pc with
    | .ticking t now =>
      if t ≤ now then
        (w.wheel.tick true fuel t).map fun wheel => (w.fire wheel).goto (.ticking (t + 1) now)
      else some { w with pc := .inbox false, lastTickTime := now }
    | _ => none
  | .pop =>
    match w.pc, w.inbox.pop with
    | .inbox polled, some (some task, inbox) => some ({ w with inbox := inbox }.invoke polled task)
    | .inbox polled, some (none, _) => some (w.goto (if polled then .poll else .dequeue))
    | _, _ => none
  | .tryDequeueBatch =>
    match w.pc with
    | .dequeue =>
      -- At most `BATCH_PIPELINE_DEPTH` handles are taken at a time.
      let (handles, queue) := w.queue.tryDequeueBatch 16
      some { w with queue := queue, pc := if handles = [] then .submit else .batch handles }
    | _ => none
  | .resume done =>
    match w.pc with
    -- A coroutine that is done is not resumed.
    | .batch (k :: handles) => some (w.goto (if done then .batch handles else .coroutine k handles))
    | .batch [] => some (w.goto .poll)
    | _ => none
  | .plan now =>
    match w.pc with
    | .plan =>
      let exactTimeoutMs := w.wheel.nextTimeout now
      if exactTimeoutMs = -1 then some (w.goto (.wait none))
      else if exactTimeoutMs = 0 then
        -- `io_uring_peek_cqe` fails where there is no completion.
        some (w.goto (if w.engine.cqes = [] then .head else .poll))
      else some (w.goto (.wait (some exactTimeoutMs)))
    | _ => none
  | .wake =>
    match w.pc with
    | .wait _ => if w.engine.cqes = [] then none else some (w.goto .poll)
    | _ => none
  | .timeout =>
    match w.pc with
    | .wait (some _) => some (w.goto .poll)
    | _ => none
  | .interrupt =>
    match w.pc with
    -- A wait that is interrupted does not call `poll`.
    | .wait _ => some (w.goto .head)
    | _ => none
  | .poll =>
    match w.pc, w.engine.cqes with
    | .poll, cqe :: cqes => some ({ w with engine := { w.engine with cqes := cqes } }.handle cqe)
    | .poll, [] => some (w.goto .head)
    | _, _ => none
  | .schedule h => if w.pc.user then some (w.schedule h) else none
  | .sleepFor node ms now h =>
    -- A coroutine that sleeps for no time is not suspended.
    if w.pc.user ∧ ms ≠ 0 ∧ (w.wheel.nodes node).headPtr = none then
      some { w with wheel := w.wheel.arm node (now + ms) h }
    else none
  | .call call =>
    if w.pc.user then
      match w.engine.call call with
      | some engine => some { w with engine := engine }
      | none => some (w.goto .crashed)
    else none
  | .await ctx h =>
    if w.pc.user then
      some { w with engine := w.engine.setContext ctx ({ · with coro := some h }) }
    else none
  | .cancel ctx =>
    if w.pc.user then
      some { w with engine := w.engine.setContext ctx ({ · with cancelled := true }) }
    else none
  | .leave => w.leave

/-- The thread waits for a completion, and there is none. -/
def Blocked (w : Worker σ κ) : Prop := (∃ timeout, w.pc = .wait timeout) ∧ w.engine.cqes = []

end Worker

/-! ## The workers of a runtime -/

/-- Where a thread is in a call of `dispatch_on`: in none, after the push, or after the load of the
target's `ring_fd`. -/
inductive DispatchPc (σ : Type*) where
  | idle
  | pushed (target : σ)
  | notify (target : σ)

/-- The call has pushed to the inbox of this scheduler, and has not returned. -/
def DispatchPc.Targets {σ : Type*} : DispatchPc σ → σ → Prop
  | .pushed t, target | .notify t, target => t = target
  | .idle, _ => False

/-- The runtime after `Runtime::start`: the workers, the entries that are submitted and not
completed, each with the worker whose ring it was on, and the calls of `dispatch_on` by the workers
and by other threads. -/
structure Workers (σ τ κ : Type*) where
  isRunning : Bool
  workers : σ → Worker σ κ
  inFlight : List (Option σ × Sqe σ κ)
  calls : σ ⊕ τ → DispatchPc σ

/-- A step of a worker thread, of another thread, or of the kernel. -/
inductive WorkersOp (σ τ κ : Type*) where
  | worker (i : σ) (op : WorkerOp κ)
  | submit (i : σ) (ok : Bool)
  | push (caller : σ ⊕ τ) (target : σ) (task : UniqueTask (Closure κ Unit))
  | ringFd (caller : σ ⊕ τ)
  | notifyInbox (caller : σ ⊕ τ) (ok : Bool)
  | notifyCoro (caller : σ ⊕ τ) (target : σ) (handle : κ) (ok : Bool)
  | complete (n : ℕ) (result : IoResult) (more : Bool)
  | stop

namespace Workers

variable {σ τ κ : Type*}

/-- The runtime at the start. -/
def new (buffer : ℕ → Option κ) (expiresAt : ℕ → UInt64) (handle : ℕ → κ) : Workers σ τ κ where
  isRunning := true
  workers _ := .new buffer expiresAt handle
  inFlight := []
  calls _ := .idle

variable [DecidableEq σ]

/-- A worker changes. -/
def setWorker (s : Workers σ τ κ) (i : σ) (w : Worker σ κ) : Workers σ τ κ :=
  { s with workers := Function.update s.workers i w }

/-- A completion is posted to the ring of a worker. -/
def post (s : Workers σ τ κ) (i : σ) (cqe : Cqe κ) : Workers σ τ κ :=
  s.setWorker i { s.workers i with engine := (s.workers i).engine.post cqe }

/-- A thread goes on with its call of `dispatch_on`. -/
def setCall [DecidableEq τ] (s : Workers σ τ κ) (c : σ ⊕ τ) (pc : DispatchPc σ) : Workers σ τ κ :=
  { s with calls := Function.update s.calls c pc }

omit [DecidableEq σ] in
/-- The thread runs code of the user: a worker thread only where its loop calls it. -/
def acts (s : Workers σ τ κ) : σ ⊕ τ → Bool
  | .inl i => (s.workers i).pc.user
  | .inr _ => true

/-- `Runtime::notify_target_ring`. A worker prepares the message, any other thread also submits
it. -/
def notifyTargetRing (s : Workers σ τ κ) (c : σ ⊕ τ) (target : σ) (data : UserData κ) (ok : Bool) :
    Workers σ τ κ :=
  match c with
  | .inl i =>
    match (s.workers i).engine.sendMsgRing target data ok with
    | some (engine, submitted) =>
      { s.setWorker i { s.workers i with engine := engine } with
        inFlight := s.inFlight ++ submitted.map fun sqe => (some i, sqe) }
    | none => s.setWorker i ((s.workers i).goto .crashed)
  | .inr _ => { s with inFlight := s.inFlight ++ [(none, .msgRing target data)] }

/-- An entry completes: a message also on the ring of its target. -/
def completeEntry (s : Workers σ τ κ) (origin : Option σ) (sqe : Sqe σ κ) (result : IoResult) :
    Workers σ τ κ :=
  -- A message also arrives, before it completes on the ring of its sender.
  let s := match sqe with
    | .msgRing target data => s.post target ⟨data, ⟨0, 0⟩⟩
    | _ => s
  match origin with
  | some i => s.post i ⟨sqe.userData, result⟩
  | none => s

/-- What a step does, where it is possible. A thread that is in a call of `dispatch_on` goes on with
the call. A completion may say that there is more to come, but not that of a message. -/
def step [DecidableEq τ] (s : Workers σ τ κ) : WorkersOp σ τ κ → Option (Workers σ τ κ)
  | .worker i op =>
    match s.calls (.inl i) with
    | .idle => ((s.workers i).step s.isRunning op).map (s.setWorker i)
    | _ => none
  | .submit i ok =>
    match (s.workers i).pc with
    | .submit =>
      let (engine, submitted) := (s.workers i).engine.submit ok
      some { s.setWorker i { s.workers i with engine := engine, pc := .plan } with
        inFlight := s.inFlight ++ submitted.map fun sqe => (some i, sqe) }
    | _ => none
  | .push c target task =>
    match s.calls c with
    | .idle =>
      if s.acts c then
        let (pushed, inbox) := (s.workers target).inbox.push task
        some ((s.setWorker target { s.workers target with inbox := inbox }).setCall c
          (if pushed then .pushed target else .idle))
      else none
    | _ => none
  | .ringFd c =>
    match s.calls c with
    | .pushed target =>
      some (s.setCall c (if (s.workers target).engine.initialized then .notify target else .idle))
    | _ => none
  | .notifyInbox c ok =>
    match s.calls c with
    | .notify target => some ((s.notifyTargetRing c target .inbox ok).setCall c .idle)
    | _ => none
  | .notifyCoro c target h ok =>
    match s.calls c with
    | .idle =>
      if s.acts c ∧ (s.workers target).engine.initialized then
        some (s.notifyTargetRing c target (.coro h) ok)
      else none
    | _ => none
  | .complete n result more =>
    match s.inFlight[n]? with
    | some (origin, sqe) =>
      let s := s.completeEntry origin sqe result
      match sqe, more with
      | .msgRing _ _, _ | _, false => some { s with inFlight := s.inFlight.eraseIdx n }
      | _, true => some s
    | none => none
  | .stop => some { s with isRunning := false }

end Workers

/-- A step of the runtime. The calls of `dispatch_on` for one target do not overlap, so that the
push to its inbox is one step. -/
def workersStep {σ τ κ : Type*} [DecidableEq σ] [DecidableEq τ] (s : Workers σ τ κ)
    (op : WorkersOp σ τ κ) (t : Workers σ τ κ) : Prop :=
  s.step op = some t ∧
    match op with
    | .push _ target _ => ∀ c, ¬ (s.calls c).Targets target
    | _ => True

end Novaio
