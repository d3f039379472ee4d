import Mathlib.Logic.Function.Basic
import Novaio.Awaiter

/-!
# The event

`Event` of `src/include/novaio/event.hpp`, step by step. A step is the load of `await_ready`, the
section of `await_suspend` under the mutex, the exchange of `set`, its section under the mutex, or a
call of `resume_waiter`.

Each waiter is one `co_await`, and each setter one call of `set`; both run on any thread. The
awaiter of a waiter is in its coroutine's frame, so that its address may be taken by another one as
soon as the waiter goes on or is resumed.
-/

namespace Novaio

/-- Where a waiter is. -/
inductive WaiterPc where
  /-- Before `await_ready`. -/
  | idle
  /-- In `await_suspend`, before the mutex is taken. -/
  | suspending
  /-- Suspended, by `await_suspend`. -/
  | suspended
  /-- Going on without having been suspended. -/
  | continued
  /-- Passed to `resume_waiter`. -/
  | resumed
  deriving DecidableEq

/-- The awaiter exists and may be in the list of waiters. -/
def WaiterPc.Awaits : WaiterPc → Prop
  | suspending | suspended => True
  | idle | continued | resumed => False

/-- Where a setter is. -/
inductive SetterPc where
  /-- Before the call of `set`. -/
  | idle
  /-- In `set`, after the exchange and before the mutex is taken. -/
  | detach
  /-- In the loop of `set`, with the remaining waiters. -/
  | resume (waiters : Option ℕ)
  /-- Returned, after the loop. -/
  | returned
  /-- Returned at once, as the event was set before. -/
  | returnedAtOnce
  deriving DecidableEq

/-- What `resume_waiter` does with a coroutine: it schedules it on the scheduler that it runs on
itself, dispatches it to another one, or resumes it. -/
inductive Resumption (ω σ : Type*) where
  | schedule (scheduler : σ) (coro : ω)
  | dispatchOn (scheduler : σ) (coro : ω)
  | resume (coro : ω)

/-- `Event`, the memory of the awaiters, the waiters and the setters. `resumptions` lists the
effects of the calls of `resume_waiter`, in order. -/
structure Event (ω τ σ : Type*) where
  signaled : Bool
  waiters : Option ℕ
  awaiters : ℕ → Awaiter ω σ
  address : ω → ℕ
  waiterPc : ω → WaiterPc
  setterPc : τ → SetterPc
  resumptions : List (Resumption ω σ)

/-- A step of a waiter or of a setter. Those that depend on it take `Scheduler::current()`. -/
inductive EventOp (ω τ σ : Type*) where
  | awaitReady (waiter : ω) (address : ℕ)
  | awaitSuspend (waiter : ω) (current : Option σ)
  | exchange (setter : τ)
  | detach (setter : τ)
  | resumeWaiter (setter : τ) (current : Option σ)

/-- The setter that takes a step, if it is one's. -/
def EventOp.setter {ω τ σ : Type*} : EventOp ω τ σ → Option τ
  | .awaitReady _ _ | .awaitSuspend _ _ => none
  | .exchange s | .detach s | .resumeWaiter s _ => some s

namespace Event

variable {ω τ σ : Type*}

/-- A new event. -/
def new (mem : ℕ → Awaiter ω σ) (address : ω → ℕ) : Event ω τ σ where
  signaled := false
  waiters := none
  awaiters := mem
  address := address
  waiterPc _ := .idle
  setterPc _ := .idle
  resumptions := []

/-- `Event::resume_waiter`. -/
def resumeWaiter [DecidableEq σ] (current scheduler : Option σ) (coro : Option ω) :
    List (Resumption ω σ) :=
  match coro with
  | none => []
  | some coro =>
    match scheduler with
    | some s => if current = some s then [.schedule s coro] else [.dispatchOn s coro]
    | none => [.resume coro]

variable [DecidableEq ω]

/-- The waiter is at a place. -/
def waiterAt (e : Event ω τ σ) (i : ω) (pc : WaiterPc) : Event ω τ σ :=
  { e with waiterPc := Function.update e.waiterPc i pc }

omit [DecidableEq ω] in
/-- The setter is at a place. -/
def setterAt [DecidableEq τ] (e : Event ω τ σ) (s : τ) (pc : SetterPc) : Event ω τ σ :=
  { e with setterPc := Function.update e.setterPc s pc }

omit [DecidableEq ω] in
/-- A write to the awaiter at an address. -/
def setAwaiter (e : Event ω τ σ) (a : ℕ) (v : Awaiter ω σ) : Event ω τ σ :=
  { e with awaiters := Function.update e.awaiters a v }

/-- The start of a `co_await`: the awaiter is constructed, and `await_ready` loads `signaled_`. -/
def awaitReady (e : Event ω τ σ) (i : ω) (address : ℕ) : Event ω τ σ :=
  let e := { e with address := Function.update e.address i address }
  let e := e.setAwaiter address {}
  e.waiterAt i (if e.signaled then .continued else .suspending)

/-- `await_suspend`. -/
def awaitSuspend (e : Event ω τ σ) (i : ω) (current : Option σ) : Event ω τ σ :=
  let awaiter := { e.awaiters (e.address i) with awaitingCoroutine := some i, scheduler := current }
  -- The event has been set since `await_ready`.
  if e.signaled then (e.setAwaiter (e.address i) awaiter).waiterAt i .continued
  else
    let e := (e.setAwaiter (e.address i) { awaiter with next := e.waiters }).waiterAt i .suspended
    { e with waiters := some (e.address i) }

omit [DecidableEq ω] in
/-- The exchange of `set`. -/
def exchange [DecidableEq τ] (e : Event ω τ σ) (s : τ) : Event ω τ σ :=
  { e.setterAt s (if e.signaled then .returnedAtOnce else .detach) with signaled := true }

omit [DecidableEq ω] in
/-- The section of `set` under the mutex. -/
def detach [DecidableEq τ] (e : Event ω τ σ) (s : τ) : Event ω τ σ :=
  { e.setterAt s (.resume e.waiters) with waiters := none }

/-- The loop of `set`: an iteration, or its end. -/
def resumeStep [DecidableEq τ] [DecidableEq σ] (e : Event ω τ σ) (s : τ) (waiters : Option ℕ)
    (current : Option σ) : Event ω τ σ :=
  match waiters with
  | none => e.setterAt s .returned
  | some a =>
    let awaiter := e.awaiters a
    -- The awaiter is read before its coroutine is resumed, as it ends then.
    let e := match awaiter.awaitingCoroutine with
      | some i => e.waiterAt i .resumed
      | none => e
    { e.setterAt s (.resume awaiter.next) with
      resumptions := e.resumptions ++
        resumeWaiter current awaiter.scheduler awaiter.awaitingCoroutine }

/-- What a step does, where the waiter or the setter is at the step's place. -/
def step [DecidableEq τ] [DecidableEq σ] (e : Event ω τ σ) :
    EventOp ω τ σ → Option (Event ω τ σ)
  | .awaitReady i a => if e.waiterPc i = .idle then some (e.awaitReady i a) else none
  | .awaitSuspend i current =>
    if e.waiterPc i = .suspending then some (e.awaitSuspend i current) else none
  | .exchange s => if e.setterPc s = .idle then some (e.exchange s) else none
  | .detach s => if e.setterPc s = .detach then some (e.detach s) else none
  | .resumeWaiter s current =>
    match e.setterPc s with
    | .resume waiters => some (e.resumeStep s waiters current)
    | _ => none

/-- What a step does, by the place of the waiter or the setter that it starts from. -/
inductive StepCase [DecidableEq τ] [DecidableEq σ] (e : Event ω τ σ) :
    EventOp ω τ σ → Event ω τ σ → Prop where
  | awaitReady (i : ω) (a : ℕ) (hi : e.waiterPc i = .idle) :
      StepCase e (.awaitReady i a) (e.awaitReady i a)
  | awaitSuspend (i : ω) (current : Option σ) (hi : e.waiterPc i = .suspending) :
      StepCase e (.awaitSuspend i current) (e.awaitSuspend i current)
  | exchange (s : τ) (hs : e.setterPc s = .idle) : StepCase e (.exchange s) (e.exchange s)
  | detach (s : τ) (hs : e.setterPc s = .detach) : StepCase e (.detach s) (e.detach s)
  | resumeWaiter (s : τ) (waiters : Option ℕ) (current : Option σ)
      (hs : e.setterPc s = .resume waiters) :
      StepCase e (.resumeWaiter s current) (e.resumeStep s waiters current)

/-- The inversion of a step. -/
theorem StepCase.of_step [DecidableEq τ] [DecidableEq σ] {e e' : Event ω τ σ} {op : EventOp ω τ σ}
    (h : e.step op = some e') : StepCase e op e' := by
  cases op with
  | resumeWaiter s current =>
    simp only [step] at h
    split at h
    · exact Option.some.inj h ▸ .resumeWaiter s _ current ‹_›
    · simp at h
  | _ =>
    obtain ⟨hpc, h⟩ := Option.ite_none_right_eq_some.mp h
    obtain rfl := Option.some.inj h
    constructor
    exact hpc

/-- The loop of `set` writes neither the awaiters nor `signaled_`. -/
theorem resumeStep_frame [DecidableEq τ] [DecidableEq σ] (e : Event ω τ σ) (s : τ)
    (waiters : Option ℕ) (current : Option σ) :
    (e.resumeStep s waiters current).awaiters = e.awaiters ∧
      (e.resumeStep s waiters current).address = e.address ∧
      (e.resumeStep s waiters current).signaled = e.signaled := by
  unfold resumeStep
  split
  · exact ⟨rfl, rfl, rfl⟩
  · dsimp only
    split <;> exact ⟨rfl, rfl, rfl⟩

end Event

/-- A step of the waiters and the setters. A new awaiter is at an address that no awaiter has. -/
def eventStep {ω τ σ : Type*} [DecidableEq ω] [DecidableEq τ] [DecidableEq σ]
    (e : Event ω τ σ) (op : EventOp ω τ σ) (e' : Event ω τ σ) : Prop :=
  e.step op = some e' ∧
    match op with
    | .awaitReady _ a => ∀ i, (e.waiterPc i).Awaits → e.address i ≠ a
    | _ => True

end Novaio
