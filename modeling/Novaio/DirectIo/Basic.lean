import Mathlib.Data.Int.Notation
import Mathlib.Data.List.Basic
import Mathlib.Logic.Function.Basic
import Novaio.Lib.Path

/-!
# Direct operations

The direct operations of `IoEngine` (`accept_direct`, `recv_direct`, `send_direct` and
`close_direct`), with `IoContext` and `SafeIoAwaiter` of `include/novaio/io_context.hpp` and the
branch of `IoEngine::poll` that handles their completions.

The memory gives each `IoContext` an address that no other one has had, so that an access through a
pointer to a deleted context is told from an access to a context that was allocated later. The
operation whose context is at an address is called by that address. What the code does to contexts
is in `accesses`, in order. `poll` is taken completion by completion, in any order, with any result.

A coroutine that awaits an operation is suspended in the awaiter until the scheduler resumes it.
When that awaiter is destroyed, the frame of the coroutine goes with it, and nothing resumes it.
-/

namespace Novaio

open Transition

/-- `IoContext`. -/
structure IoContext (κ : Type*) where
  res : ℤ := 0
  flags : UInt32 := 0
  coro : Option κ := none
  cancelled : Bool := false

/-- `IoResult`, and the part of a CQE that `poll` stores. -/
structure IoResult where
  res : ℤ
  flags : UInt32
  deriving DecidableEq

/-- `SafeIoAwaiter`. -/
structure SafeIoAwaiter where
  ctx : Option ℕ
  deriving DecidableEq

/-- The direct operations. -/
inductive DirectOp where
  | accept
  | recv
  | send
  | close
  deriving DecidableEq

/-- What a completion hands over: a provided buffer, or a direct descriptor. -/
inductive Resource where
  | buffer (id : UInt32)
  | descriptor (index : ℤ)
  deriving DecidableEq

/-- `IORING_CQE_F_BUFFER`. -/
def cqeFBuffer : UInt32 := 1

/-- The resource that the completion of an operation carries, if it is successful. -/
def DirectOp.resource (op : DirectOp) (cqe : IoResult) : Option Resource :=
  if cqe.res < 0 then none
  else
    match op with
    | .accept => some (.descriptor cqe.res)
    | .recv => if cqe.flags &&& cqeFBuffer = 0 then none else some (.buffer (cqe.flags >>> 16))
    | .send | .close => none

/-- An access to a context. -/
inductive Access where
  | read (ctx : ℕ)
  | write (ctx : ℕ)
  | delete (ctx : ℕ)
  deriving DecidableEq

/-- The context that is accessed. -/
def Access.ctx : Access → ℕ
  | .read ctx | .write ctx | .delete ctx => ctx

/-- Where a coroutine is: it runs, or it is suspended for an operation in an awaiter, which may have
been destroyed. -/
inductive Suspension where
  | running
  | suspended (awaiter : Option ℕ) (ctx : ℕ)
  deriving DecidableEq

/-- The awaiter at a place is destroyed, and with it the frame of what is suspended in it. -/
def Suspension.leave (place : ℕ) : Suspension → Suspension
  | .suspended (some p) ctx => if p = place then .suspended none ctx else .suspended (some p) ctx
  | s => s

/-- The operations, their contexts, the awaiters by their places in memory, and the coroutines.
`completions` has the completions that `poll` has handled, `ready` the coroutines that are scheduled
and not resumed yet. `scheduled` lists the calls of `Scheduler::schedule` by `poll`, `results` what
`await_resume` has returned, and `released` what `poll` has given back itself, each with its
operation. -/
structure DirectIo (κ : Type*) where
  issued : List DirectOp
  contexts : ℕ → IoContext κ
  awaiters : ℕ → Option SafeIoAwaiter
  suspension : κ → Suspension
  completions : ℕ → Option IoResult
  ready : List κ
  accesses : List Access
  scheduled : List (ℕ × κ)
  results : List (ℕ × IoResult)
  released : List (ℕ × Resource)

/-- A step: a direct operation is issued, its awaiter constructed in `awaiter`; a move into a new
awaiter; an await; a completion handled by `poll`; the resumption of a coroutine that is scheduled;
the destruction of an awaiter. -/
inductive DirectStep (κ : Type*) where
  | issue (op : DirectOp) (awaiter : ℕ)
  | move (source target : ℕ)
  | await (awaiter : ℕ) (h : κ)
  | poll (ctx : ℕ) (cqe : IoResult)
  | resume (h : κ)
  | destroy (awaiter : ℕ)

namespace DirectIo

variable {κ : Type*}

/-- Nothing is issued. -/
def new : DirectIo κ where
  issued := []
  contexts _ := {}
  awaiters _ := none
  suspension _ := .running
  completions _ := none
  ready := []
  accesses := []
  scheduled := []
  results := []
  released := []

/-- A read of a context. -/
def read (s : DirectIo κ) (ctx : ℕ) : DirectIo κ := { s with accesses := s.accesses ++ [.read ctx] }

/-- A write to a context. -/
def write (s : DirectIo κ) (ctx : ℕ) (f : IoContext κ → IoContext κ) : DirectIo κ :=
  { s with
    contexts := Function.update s.contexts ctx (f (s.contexts ctx))
    accesses := s.accesses ++ [.write ctx] }

/-- `delete ctx`. -/
def delete (s : DirectIo κ) (ctx : ℕ) : DirectIo κ :=
  { s with accesses := s.accesses ++ [.delete ctx] }

/-- The object at a place is constructed, changed, or destroyed. -/
def setAwaiter (s : DirectIo κ) (place : ℕ) (obj : Option SafeIoAwaiter) : DirectIo κ :=
  { s with awaiters := Function.update s.awaiters place obj }

/-- What the direct operations have in common: a context is allocated, and an awaiter for it is
returned. -/
def issue (op : DirectOp) (s : DirectIo κ) (awaiter : ℕ) : DirectIo κ :=
  { s with
    issued := s.issued ++ [op]
    contexts := Function.update s.contexts s.issued.length {}
    awaiters := Function.update s.awaiters awaiter (some ⟨some s.issued.length⟩) }

/-- `IoEngine::accept_direct`. -/
def acceptDirect : DirectIo κ → ℕ → DirectIo κ := issue .accept

/-- `IoEngine::recv_direct`. -/
def recvDirect : DirectIo κ → ℕ → DirectIo κ := issue .recv

/-- `IoEngine::send_direct`. -/
def sendDirect : DirectIo κ → ℕ → DirectIo κ := issue .send

/-- `IoEngine::close_direct`. -/
def closeDirect : DirectIo κ → ℕ → DirectIo κ := issue .close

/-- The call that issues an operation. -/
def call : DirectOp → DirectIo κ → ℕ → DirectIo κ
  | .accept => acceptDirect
  | .recv => recvDirect
  | .send => sendDirect
  | .close => closeDirect

/-- The move constructor of `SafeIoAwaiter`, from an object with this pointer. -/
def move (s : DirectIo κ) (source target : ℕ) (ctx : Option ℕ) : DirectIo κ :=
  (s.setAwaiter source (some ⟨none⟩)).setAwaiter target (some ⟨ctx⟩)

/-- The destructor of `SafeIoAwaiter`, of an object with this pointer. -/
def destroy (s : DirectIo κ) (place : ℕ) (ctx : Option ℕ) : DirectIo κ :=
  -- An object that has been moved from, or awaited to the end, has no context.
  let s := match ctx with
    | some c => s.write c ({ · with cancelled := true })
    | none => s
  { s.setAwaiter place none with suspension := fun h => (s.suspension h).leave place }

variable [DecidableEq κ]

/-- `SafeIoAwaiter::await_suspend`. -/
def awaitSuspend (s : DirectIo κ) (place ctx : ℕ) (h : κ) : DirectIo κ :=
  { s.write ctx ({ · with coro := some h }) with
    suspension := Function.update s.suspension h (.suspended (some place) ctx) }

/-- `SafeIoAwaiter::await_resume`, in the coroutine that is resumed. -/
def awaitResume (s : DirectIo κ) (place ctx : ℕ) (h : κ) : DirectIo κ :=
  let ret : IoResult := ⟨(s.contexts ctx).res, (s.contexts ctx).flags⟩
  -- The context is deleted, and the object forgets it.
  let s := ((s.read ctx).delete ctx).setAwaiter place (some ⟨none⟩)
  { s with
    results := s.results ++ [(ctx, ret)]
    suspension := Function.update s.suspension h .running }

/-- `Scheduler::schedule`, from `poll`. -/
def schedule (s : DirectIo κ) (ctx : ℕ) (h : κ) : DirectIo κ :=
  { s with ready := s.ready ++ [h], scheduled := s.scheduled ++ [(ctx, h)] }

/-- `IoEngine::poll`, for a completion of a direct operation. -/
def poll (s : DirectIo κ) (ctx : ℕ) (cqe : IoResult) : DirectIo κ :=
  let s := { s with completions := Function.update s.completions ctx (some cqe) }.read ctx
  -- Nobody is left to take the result of an operation that has been cancelled.
  if (s.contexts ctx).cancelled then s.delete ctx
  else
    let s := (s.write ctx ({ · with res := cqe.res, flags := cqe.flags })).read ctx
    match (s.contexts ctx).coro with
    | some h => s.schedule ctx h
    | none => s

/-- The resumption of a coroutine by the scheduler. -/
def resume (s : DirectIo κ) (place ctx : ℕ) (h : κ) : DirectIo κ :=
  { s with ready := s.ready.erase h }.awaitResume place ctx h

/-- What a step does, where it is possible. An operation is awaited once, through an awaiter that
has not been moved from; it completes once. -/
def step (s : DirectIo κ) : DirectStep κ → Option (DirectIo κ)
  | .issue op p => if s.awaiters p = none then some (call op s p) else none
  | .move p q =>
    match s.awaiters p, s.awaiters q with
    | some obj, none => some (s.move p q obj.ctx)
    | _, _ => none
  | .await p h =>
    match s.awaiters p with
    | some ⟨some c⟩ =>
      -- The coroutine runs, and nobody has awaited the operation yet.
      if s.suspension h = .running ∧ (s.contexts c).coro = none then some (s.awaitSuspend p c h)
      else none
    | _ => none
  | .poll c cqe =>
    if c < s.issued.length ∧ s.completions c = none then some (s.poll c cqe) else none
  | .resume h =>
    match s.suspension h with
    | .suspended (some p) _ =>
      match s.awaiters p with
      | some ⟨some c⟩ => if h ∈ s.ready then some (s.resume p c h) else none
      | _ => none
    | _ => none
  | .destroy p =>
    match s.awaiters p with
    | some obj => some (s.destroy p obj.ctx)
    | none => none

/-- The object at a place is the awaiter of an operation. -/
def Owns (s : DirectIo κ) (place ctx : ℕ) : Prop := s.awaiters place = some ⟨some ctx⟩

/-- An operation is issued, and its completion has not been handled. -/
def InFlight (s : DirectIo κ) (ctx : ℕ) : Prop :=
  ctx < s.issued.length ∧ s.completions ctx = none

/-- A context has been deleted. -/
def Deleted (s : DirectIo κ) (ctx : ℕ) : Prop := .delete ctx ∈ s.accesses

end DirectIo

/-- A step of the program, the kernel or the scheduler. -/
def directStep {κ : Type*} [DecidableEq κ] (s : DirectIo κ) (op : DirectStep κ) (t : DirectIo κ) :
    Prop :=
  s.step op = some t

end Novaio
