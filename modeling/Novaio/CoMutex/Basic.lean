import Mathlib.Logic.Function.Basic
import Novaio.Awaiter

/-!
# The coroutine mutex

`CoMutex` of `src/comutex.cpp`, step by step: each step performs at most one atomic operation on
`state_`. The rest of a step is code on memory that no other coroutine accesses then: a locker
writes its own awaiter, and only the holder of the lock accesses `waiters_head_` and the awaiters
that are detached from `state_`. The loop of `unlock` over the detached awaiters is taken iteration
by iteration.

An awaiter lives from the call of `lock` until its coroutine goes on. Its address may be that of an
awaiter which is gone, as the source has awaiters in coroutine frames.
-/

namespace Novaio

/-- `UNLOCKED`. -/
def unlocked : ℕ := 0

/-- `LOCKED_NO_WAITERS`. -/
def lockedNoWaiters : ℕ := 1

/-- Where a coroutine is in its use of the mutex. -/
inductive LockPc where
  /-- Outside of `lock` and `unlock`, without the lock. -/
  | idle
  /-- In the loop of `await_suspend`, with its value of `old_state`. -/
  | compareExchange (oldState : ℕ)
  /-- Suspended by `await_suspend`. -/
  | suspended
  /-- Selected by `unlock`, and not resumed yet. -/
  | selected
  /-- Outside of `lock` and `unlock`, with the lock. -/
  | holding
  /-- In `unlock`, before the first exchange. -/
  | exchange
  /-- In `unlock`, before the compare-and-exchange. -/
  | compareExchangeStrong
  /-- In `unlock`, before the second exchange. -/
  | exchangeAgain
  /-- In the loop of `unlock`, with `current` and `prev`. -/
  | reverse (current prev : Option ℕ)
  /-- In `unlock`, before a waiter is taken from `waiters_head_`. -/
  | select
  deriving DecidableEq

/-- The coroutine holds the lock: from the grant to the end of `unlock`. -/
def LockPc.Holds : LockPc → Prop
  | idle | compareExchange _ | suspended => False
  | selected | holding | exchange | compareExchangeStrong | exchangeAgain | reverse _ _ | select =>
    True

/-- The coroutine is in a call of `lock`, so that its awaiter exists. -/
def LockPc.Awaits : LockPc → Prop
  | compareExchange _ | suspended | selected => True
  | _ => False

/-- How `unlock` resumes a waiter: through the scheduler that it runs on itself, or through the ring
of another one. -/
inductive Handover (κ σ : Type*) where
  | schedule (scheduler : σ) (coroutine : Option κ)
  | notifyTargetRing (scheduler : σ) (coroutine : Option κ)

/-- The mutex, the memory of the awaiters, and the coroutines. `acquisitions` lists the coroutines
whose compare-and-exchange in `lock` succeeded, and `granted` those that were given the lock, both
in order. -/
structure CoMutex (κ σ : Type*) where
  state : ℕ
  waitersHead : Option ℕ
  awaiters : ℕ → Awaiter κ σ
  pc : κ → LockPc
  address : κ → ℕ
  handovers : List (Handover κ σ)
  acquisitions : List κ
  granted : List κ

/-- A step of a coroutine. Those that start with a call take the address of the awaiter and
`Scheduler::current()`; the weak compare-and-exchange may fail spuriously. -/
inductive LockOp (κ σ : Type*) where
  | load (k : κ) (address : ℕ) (current : Option σ)
  | compareExchangeWeak (k : κ) (spurious : Bool)
  | resume (k : κ)
  | unlock (k : κ)
  | exchange (k : κ)
  | compareExchangeStrong (k : κ)
  | exchangeAgain (k : κ)
  | reverse (k : κ)
  | select (k : κ) (current : Option σ)

/-- The coroutine that takes a step. -/
def LockOp.coroutine {κ σ : Type*} : LockOp κ σ → κ
  | .load k _ _ | .compareExchangeWeak k _ | .resume k | .unlock k | .exchange k
  | .compareExchangeStrong k | .exchangeAgain k | .reverse k | .select k _ => k

namespace CoMutex

variable {κ σ : Type*}

/-- `reinterpret_cast<Awaiter*>`. -/
def toAwaiter (x : ℕ) : Option ℕ := if x = 0 then none else some x

/-- A new mutex. -/
def new (mem : ℕ → Awaiter κ σ) (address : κ → ℕ) : CoMutex κ σ where
  state := unlocked
  waitersHead := none
  awaiters := mem
  pc _ := .idle
  address := address
  handovers := []
  acquisitions := []
  granted := []

variable [DecidableEq κ]

/-- The coroutine is at a place. -/
def goto (m : CoMutex κ σ) (k : κ) (pc : LockPc) : CoMutex κ σ :=
  { m with pc := Function.update m.pc k pc }

/-- A write to the awaiter at an address. -/
def setAwaiter (m : CoMutex κ σ) (a : ℕ) (f : Awaiter κ σ → Awaiter κ σ) : CoMutex κ σ :=
  { m with awaiters := Function.update m.awaiters a (f (m.awaiters a)) }

/-- The call of `lock`: the awaiter is constructed, and `await_suspend` loads `state_`. -/
def load (m : CoMutex κ σ) (k : κ) (address : ℕ) (current : Option σ) : CoMutex κ σ :=
  let m := { m with address := Function.update m.address k address }
  let m := m.setAwaiter address fun _ => { awaitingCoroutine := some k, scheduler := current }
  m.goto k (.compareExchange m.state)

/-- An iteration of the loop of `await_suspend`. -/
def compareExchangeWeak (m : CoMutex κ σ) (k : κ) (oldState : ℕ) (spurious : Bool) :
    CoMutex κ σ :=
  if oldState = unlocked then
    -- The lock was free, and the coroutine goes on without being suspended.
    if m.state = oldState ∧ !spurious then
      { m.goto k .holding with
        state := lockedNoWaiters
        acquisitions := m.acquisitions ++ [k]
        granted := m.granted ++ [k] }
    else m.goto k (.compareExchange m.state)
  else
    -- The awaiter is put in front of the stack of waiters, which starts at `state_`.
    let next := toAwaiter (if oldState = lockedNoWaiters then 0 else oldState)
    let m := m.setAwaiter (m.address k) ({ · with next := next })
    if m.state = oldState ∧ !spurious then
      { m.goto k .suspended with
        state := m.address k
        acquisitions := m.acquisitions ++ [k] }
    else m.goto k (.compareExchange m.state)

/-- The start of `unlock`. -/
def unlock (m : CoMutex κ σ) (k : κ) : CoMutex κ σ :=
  if m.waitersHead = none then m.goto k .exchange else m.goto k .select

/-- The first exchange of `unlock`. -/
def exchange (m : CoMutex κ σ) (k : κ) : CoMutex κ σ :=
  let oldState := m.state
  let m := { m with state := lockedNoWaiters }
  -- Where nobody waits, the lock can be released. Otherwise the stack is this thread's now.
  if oldState = lockedNoWaiters then m.goto k .compareExchangeStrong
  else m.goto k (.reverse (toAwaiter oldState) none)

/-- The compare-and-exchange of `unlock`. -/
def compareExchangeStrong (m : CoMutex κ σ) (k : κ) : CoMutex κ σ :=
  if m.state = lockedNoWaiters then { m.goto k .idle with state := unlocked }
  else m.goto k .exchangeAgain

/-- The second exchange of `unlock`. -/
def exchangeAgain (m : CoMutex κ σ) (k : κ) : CoMutex κ σ :=
  { m.goto k (.reverse (toAwaiter m.state) none) with state := lockedNoWaiters }

/-- The loop of `unlock`: an iteration, or its end. -/
def reverse (m : CoMutex κ σ) (k : κ) (current prev : Option ℕ) : CoMutex κ σ :=
  match current with
  | some a =>
    let next := (m.awaiters a).next
    (m.setAwaiter a ({ · with next := prev })).goto k (.reverse next (some a))
  -- All waiters are turned around, so that the first one to arrive is in front.
  | none => { m.goto k .select with waitersHead := prev }

/-- The resumption of the waiter: nothing is done for one that has no scheduler. -/
def handover [DecidableEq σ] (current : Option σ) (toResume : Awaiter κ σ) :
    List (Handover κ σ) :=
  match toResume.scheduler with
  | none => []
  | some target =>
    -- The scheduler of the waiter is the one that `unlock` runs on.
    if current = some target then [.schedule target toResume.awaitingCoroutine]
    else [.notifyTargetRing target toResume.awaitingCoroutine]

/-- The end of `unlock`: the first of the waiters is given the lock. -/
def select [DecidableEq σ] (m : CoMutex κ σ) (k : κ) (current : Option σ) : CoMutex κ σ :=
  match m.waitersHead with
  | none => m.goto k .idle
  | some a =>
    let toResume := m.awaiters a
    let m := m.goto k .idle
    -- The lock passes to the waiter, and `state_` stays as it is.
    let m := match toResume.awaitingCoroutine with
      | some h => { m.goto h .selected with granted := m.granted ++ [h] }
      | none => m
    { m with
      waitersHead := toResume.next
      handovers := m.handovers ++ handover current toResume }

/-- What a step does, where the coroutine is at the step's place. -/
def step [DecidableEq σ] (m : CoMutex κ σ) : LockOp κ σ → Option (CoMutex κ σ)
  | .load k a current => if m.pc k = .idle then some (m.load k a current) else none
  | .compareExchangeWeak k spurious =>
    match m.pc k with
    | .compareExchange oldState => some (m.compareExchangeWeak k oldState spurious)
    | _ => none
  | .resume k =>
    if m.pc k = .selected ∧ (m.awaiters (m.address k)).scheduler.isSome then
      some (m.goto k .holding)
    else none
  | .unlock k => if m.pc k = .holding then some (m.unlock k) else none
  | .exchange k => if m.pc k = .exchange then some (m.exchange k) else none
  | .compareExchangeStrong k =>
    if m.pc k = .compareExchangeStrong then some (m.compareExchangeStrong k) else none
  | .exchangeAgain k => if m.pc k = .exchangeAgain then some (m.exchangeAgain k) else none
  | .reverse k =>
    match m.pc k with
    | .reverse current prev => some (m.reverse k current prev)
    | _ => none
  | .select k current => if m.pc k = .select then some (m.select k current) else none

/-- What a step of a mutex does, by the place of the coroutine that it starts from. -/
inductive StepCase [DecidableEq σ] (m : CoMutex κ σ) : LockOp κ σ → CoMutex κ σ → Prop where
  | load (k : κ) (a : ℕ) (current : Option σ) (hk : m.pc k = .idle) :
      StepCase m (.load k a current) (m.load k a current)
  | compareExchangeWeak (k : κ) (oldState : ℕ) (spurious : Bool)
      (hk : m.pc k = .compareExchange oldState) :
      StepCase m (.compareExchangeWeak k spurious) (m.compareExchangeWeak k oldState spurious)
  | resume (k : κ) (hk : m.pc k = .selected)
      (hscheduler : (m.awaiters (m.address k)).scheduler.isSome) :
      StepCase m (.resume k) (m.goto k .holding)
  | unlock (k : κ) (hk : m.pc k = .holding) : StepCase m (.unlock k) (m.unlock k)
  | exchange (k : κ) (hk : m.pc k = .exchange) : StepCase m (.exchange k) (m.exchange k)
  | compareExchangeStrong (k : κ) (hk : m.pc k = .compareExchangeStrong) :
      StepCase m (.compareExchangeStrong k) (m.compareExchangeStrong k)
  | exchangeAgain (k : κ) (hk : m.pc k = .exchangeAgain) :
      StepCase m (.exchangeAgain k) (m.exchangeAgain k)
  | reverse (k : κ) (current prev : Option ℕ) (hk : m.pc k = .reverse current prev) :
      StepCase m (.reverse k) (m.reverse k current prev)
  | select (k : κ) (current : Option σ) (hk : m.pc k = .select) :
      StepCase m (.select k current) (m.select k current)

/-- The inversion of a step. -/
theorem StepCase.of_step [DecidableEq σ] {m m' : CoMutex κ σ} {op : LockOp κ σ}
    (h : m.step op = some m') : StepCase m op m' := by
  cases op with
  | compareExchangeWeak k spurious =>
    simp only [step] at h
    split at h
    · exact Option.some.inj h ▸ .compareExchangeWeak k _ spurious ‹_›
    · simp at h
  | reverse k =>
    simp only [step] at h
    split at h
    · exact Option.some.inj h ▸ .reverse k _ _ ‹_›
    · simp at h
  | resume k =>
    obtain ⟨⟨hk, hscheduler⟩, h⟩ := Option.ite_none_right_eq_some.mp h
    exact Option.some.inj h ▸ .resume k hk hscheduler
  | _ =>
    obtain ⟨hk, h⟩ := Option.ite_none_right_eq_some.mp h
    obtain rfl := Option.some.inj h
    constructor
    exact hk

end CoMutex

/-- A step of the coroutines. A new awaiter is at an address that is aligned for its pointers and
that no other awaiter has. -/
def lockStep {κ σ : Type*} [DecidableEq κ] [DecidableEq σ] (m : CoMutex κ σ) (op : LockOp κ σ)
    (m' : CoMutex κ σ) : Prop :=
  m.step op = some m' ∧
    match op with
    | .load _ a _ => a ≠ 0 ∧ a % 8 = 0 ∧ ∀ k, (m.pc k).Awaits → m.address k ≠ a
    | _ => True

end Novaio
