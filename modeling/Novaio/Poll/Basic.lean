import Novaio.Metrics
import Novaio.Poll.UserData
import Novaio.RunQueue
import Novaio.Runtime

/-!
# The loop of `poll`

`IoEngine::poll` of `src/io_engine.cpp`, over the completion queue as liburing maps it into memory:
a ring of entries with a head that the program advances and a tail that the kernel advances. The
loop is that of `io_uring_for_each_cqe`, and reads at its own `head`. It loads the tail before every
entry, or, in later versions of liburing, once (`PollOp.next`).

In between the steps of the loop the kernel may post completions, and other threads may use the
inbox. Where `poll` calls code of the user, in the callback of a multishot operation or in a task of
the inbox, and outside of `poll`, the contexts and the run queue may change in any way. No code that
`poll` calls calls `poll`.
-/

namespace Novaio

/-! ## The completion queue -/

/-- `struct io_uring_cqe`. -/
structure IoUringCqe where
  userData : BitVec 64
  result : IoResult

/-- The completion queue of a ring, whose number of entries is a power of two. -/
structure CompletionQueue where
  entries : ℕ
  power_of_two : ∃ k, entries = 2 ^ k
  entries_le : entries ≤ 2 ^ 31
  khead : UInt32
  ktail : UInt32
  cqes : ℕ → IoUringCqe

namespace CompletionQueue

/-- `ring_mask`. -/
def mask (q : CompletionQueue) : ℕ := q.entries - 1

/-- The entry of a counter. -/
def entry (q : CompletionQueue) (head : UInt32) : IoUringCqe := q.cqes (head.toNat &&& q.mask)

/-- The number of entries between the head and a counter, by the counters. -/
def before (q : CompletionQueue) (tail : UInt32) : ℕ :=
  Ring.count (2 ^ 32) q.khead.toNat tail.toNat

/-- `io_uring_cq_advance`. -/
def advance (q : CompletionQueue) (nr : UInt32) : CompletionQueue :=
  { q with khead := q.khead + nr }

/-- The kernel posts a completion, where there is room. -/
def post (q : CompletionQueue) (cqe : IoUringCqe) : Option CompletionQueue :=
  if (q.ktail - q.khead).toNat < q.entries then
    some { q with
      cqes := Function.update q.cqes (q.ktail.toNat &&& q.mask) cqe
      ktail := q.ktail + 1 }
  else none

end CompletionQueue

/-! ## The loop -/

/-- Where the thread is: not in `poll`, at the condition of its loop, in a callback, in
`process_inbox` or in a task that it invokes, or behind the loop. -/
inductive PollPc where
  | outside
  | loop
  | callback (op : BitVec 64) (result : IoResult)
  | inbox
  | task
  | advance
  deriving DecidableEq

/-- Code of the user, or of the loop of the scheduler, runs. -/
def PollPc.user : PollPc → Bool
  | outside | callback _ _ | task => true
  | loop | inbox | advance => false

/-- A handle from its address. A null handle is `none`. -/
def fromAddress (address : BitVec 64) : Option (BitVec 64) :=
  if address = 0 then none else some address

/-- The thread of a scheduler as far as `poll` goes: the completion queue of its engine, the local
variables of `poll` with the tail that its loop has loaded, the contexts by their addresses, those
that `poll` has deleted, the run queue and the inbox of the scheduler, and its metrics. -/
structure Poller where
  cq : CompletionQueue
  pc : PollPc
  head : UInt32
  tail : UInt32
  advanced : UInt32
  contexts : BitVec 64 → IoContext (BitVec 64)
  deleted : List (BitVec 64)
  queue : RunQueue (BitVec 64)
  inbox : SpscQueue (UniqueTask (Closure (BitVec 64) Unit))
  metrics : TcmMetrics

/-- A step: a call of `poll`, while there is a current scheduler or not; the condition of its loop
with the entry that it finds, where the tail may be loaded again; a `pop` of `process_inbox`; the
return of a callback or a task; and the end of `poll`. Then what the others do: user code, threads
that use the inbox, and the kernel. -/
inductive PollOp where
  | enter (current : Bool)
  | next (reload : Bool)
  | pop
  | leave
  | advance
  | run (contexts : BitVec 64 → IoContext (BitVec 64)) (queue : RunQueue (BitVec 64))
  | dispatch (inbox : SpscQueue (UniqueTask (Closure (BitVec 64) Unit)))
  | post (cqe : IoUringCqe)

namespace Poller

/-- `++advanced`, and `head++` of the loop. -/
def count (p : Poller) : Poller :=
  { p with pc := .loop, head := p.head + 1, advanced := p.advanced + 1 }

/-- `Scheduler::schedule`. -/
def schedule (p : Poller) (handle : Option (BitVec 64)) : Poller :=
  { p with queue := p.queue.schedule handle }

/-- A write to a context. -/
def setContext (p : Poller) (ctx : BitVec 64)
    (f : IoContext (BitVec 64) → IoContext (BitVec 64)) : Poller :=
  { p with contexts := Function.update p.contexts ctx (f (p.contexts ctx)) }

/-- The branch for an operation that has completed. -/
def complete (p : Poller) (ctx : BitVec 64) (result : IoResult) : Poller :=
  if (p.contexts ctx).cancelled then
    -- The awaiter is gone, and `poll` deletes the context itself.
    { p with deleted := p.deleted ++ [ctx] }.count
  else
    let p := p.setContext ctx ({ · with res := result.res, flags := result.flags })
    let coro := (p.contexts ctx).coro
    (if coro.isSome then p.schedule coro else p).count

/-- The body of the loop, up to the code of the user that it calls. -/
def handle (p : Poller) (cqe : IoUringCqe) : Poller :=
  let p := { p with metrics := p.metrics.recordIoEvent }
  let ud := cqe.userData
  let tag := ud &&& tagMask
  let payload := ud &&& ~~~tagMask
  -- `TAG_IO` is zero, so that the null user data of a sent message has this tag, too.
  if tag = tagIo ∧ payload ≠ 0 then
    p.complete payload cqe.result
  else if tag = tagMulti ∧ payload ≠ 0 then
    { p with pc := .callback payload cqe.result }
  else if tag = tagCoro then
    (p.schedule (fromAddress payload)).count
  else if tag = tagInbox then
    { p with pc := .inbox }
  else p.count

/-- `process_inbox` invokes a task. -/
def invoke (p : Poller) (task : UniqueTask (Closure (BitVec 64) Unit)) : Poller :=
  match task.callable with
  | some (.schedule coro) => p.schedule (some coro)
  | some (.other _) => { p with pc := .task }
  | none => p

/-- The tail that the condition of the loop compares with. -/
def loadTail (p : Poller) (reload : Bool) : UInt32 := if reload then p.cq.ktail else p.tail

/-- What a step does, where it is possible. -/
def step (p : Poller) : PollOp → Option Poller
  | .enter current =>
    match p.pc with
    | .outside =>
      -- A thread without a current scheduler returns at once.
      if current then
        some { p with pc := .loop, head := p.cq.khead, tail := p.cq.ktail, advanced := 0 }
      else some p
    | _ => none
  | .next reload =>
    match p.pc with
    | .loop =>
      let p := { p with tail := p.loadTail reload }
      -- The loop ends where the tail that is loaded says that there is nothing more.
      if p.head ≠ p.tail then some (p.handle (p.cq.entry p.head))
      else some { p with pc := .advance }
    | _ => none
  | .pop =>
    match p.pc, p.inbox.pop with
    | .inbox, some (some task, inbox) =>
      some ({ p with inbox := inbox, metrics := p.metrics.recordInboxProcessed }.invoke task)
    | .inbox, some (none, _) => some p.count
    | _, _ => none
  | .leave =>
    match p.pc with
    | .callback _ _ => some p.count
    | .task => some { p with pc := .inbox }
    | _ => none
  | .advance =>
    match p.pc with
    | .advance =>
      some { p with pc := .outside, cq := if 0 < p.advanced then p.cq.advance p.advanced else p.cq }
    | _ => none
  | .run contexts queue =>
    if p.pc.user then some { p with contexts := contexts, queue := queue } else none
  | .dispatch inbox => some { p with inbox := inbox }
  | .post cqe => (p.cq.post cqe).map fun cq => { p with cq := cq }

/-- The steps that there are, each with what it requires. -/
inductive StepCase (p : Poller) : PollOp → Poller → Prop
  | entered (hpc : p.pc = .outside) :
      StepCase p (.enter true)
        { p with pc := .loop, head := p.cq.khead, tail := p.cq.ktail, advanced := 0 }
  | noScheduler (hpc : p.pc = .outside) : StepCase p (.enter false) p
  | handled (reload : Bool) (hpc : p.pc = .loop) (hne : p.head ≠ p.loadTail reload) :
      StepCase p (.next reload)
        ({ p with tail := p.loadTail reload }.handle (p.cq.entry p.head))
  | exhausted (reload : Bool) (hpc : p.pc = .loop) (heq : p.head = p.loadTail reload) :
      StepCase p (.next reload) { p with tail := p.loadTail reload, pc := .advance }
  | popped (task : UniqueTask (Closure (BitVec 64) Unit))
      (inbox : SpscQueue (UniqueTask (Closure (BitVec 64) Unit))) (hpc : p.pc = .inbox)
      (hpop : p.inbox.pop = some (some task, inbox)) :
      StepCase p .pop
        ({ p with inbox := inbox, metrics := p.metrics.recordInboxProcessed }.invoke task)
  | drained (inbox : SpscQueue (UniqueTask (Closure (BitVec 64) Unit))) (hpc : p.pc = .inbox)
      (hpop : p.inbox.pop = some (none, inbox)) : StepCase p .pop p.count
  | returned (op : BitVec 64) (result : IoResult) (hpc : p.pc = .callback op result) :
      StepCase p .leave p.count
  | taskReturned (hpc : p.pc = .task) : StepCase p .leave { p with pc := .inbox }
  | finished (hpc : p.pc = .advance) :
      StepCase p .advance
        { p with
          pc := .outside
          cq := if 0 < p.advanced then p.cq.advance p.advanced else p.cq }
  | ran (contexts : BitVec 64 → IoContext (BitVec 64)) (queue : RunQueue (BitVec 64))
      (huser : p.pc.user) :
      StepCase p (.run contexts queue) { p with contexts := contexts, queue := queue }
  | dispatched (inbox : SpscQueue (UniqueTask (Closure (BitVec 64) Unit))) :
      StepCase p (.dispatch inbox) { p with inbox := inbox }
  | posted (cqe : IoUringCqe) (cq : CompletionQueue) (hpost : p.cq.post cqe = some cq) :
      StepCase p (.post cqe) { p with cq := cq }

end Poller

/-- A step of the thread, or of the others. -/
def pollStep (p : Poller) (op : PollOp) (p' : Poller) : Prop := p.step op = some p'

/-- The inversion of a step. -/
theorem Poller.StepCase.of_step {p p' : Poller} {op : PollOp} (h : pollStep p op p') :
    p.StepCase op p' := by
  unfold pollStep at h
  cases op with
  | enter current =>
    simp only [step] at h
    split at h
    · rename_i hpc
      split_ifs at h with hcurrent
      · subst hcurrent
        exact Option.some.inj h ▸ .entered hpc
      · obtain rfl : current = false := by simpa using hcurrent
        exact Option.some.inj h ▸ .noScheduler hpc
    · simp at h
  | next reload =>
    simp only [step] at h
    split at h
    · rename_i hpc
      split_ifs at h with hne
      · exact Option.some.inj h ▸ .handled reload hpc hne
      · exact Option.some.inj h ▸ .exhausted reload hpc (not_not.mp hne)
    · simp at h
  | pop =>
    simp only [step] at h
    split at h
    · rename_i task inbox hpc hpop
      exact Option.some.inj h ▸ .popped task inbox hpc hpop
    · rename_i inbox hpc hpop
      exact Option.some.inj h ▸ .drained inbox hpc hpop
    · simp at h
  | leave =>
    simp only [step] at h
    split at h
    · rename_i op result hpc
      exact Option.some.inj h ▸ .returned op result hpc
    · rename_i hpc
      exact Option.some.inj h ▸ .taskReturned hpc
    · simp at h
  | advance =>
    simp only [step] at h
    split at h
    · rename_i hpc
      exact Option.some.inj h ▸ .finished hpc
    · simp at h
  | run contexts queue =>
    obtain ⟨huser, h⟩ := Option.ite_none_right_eq_some.mp h
    exact Option.some.inj h ▸ .ran contexts queue huser
  | dispatch inbox => exact Option.some.inj h ▸ .dispatched inbox
  | post cqe =>
    obtain ⟨cq, hpost, rfl⟩ := Option.map_eq_some_iff.mp h
    exact .posted cqe cq hpost

end Novaio
