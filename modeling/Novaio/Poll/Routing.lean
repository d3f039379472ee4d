import Novaio.Poll.Cursor

/-!
# Completions reach what they are for

`Route.Served` says what handling a completion is for, by its route alone: the context of an
operation is written or deleted, and no other one, and the coroutine that waits in it is scheduled;
a multishot operation is invoked with the result; a coroutine is scheduled; `process_inbox` is
called; or nothing happens. The body of the loop does this for the issue that the user data comes
from (`Poller.handle_served`), and no other step of `poll` touches any of it (`Poller.Exact`).
-/

namespace Novaio

open Transition

/-! ## What a completion is for -/

/-- A step that leaves the contexts, the run queue and the inbox alone. -/
structure Poller.Untouched (p p' : Poller) : Prop where
  contexts : p'.contexts = p.contexts
  deleted : p'.deleted = p.deleted
  queue : p'.queue = p.queue
  inbox : p'.inbox = p.inbox

/-- The context of an operation that has completed: it is deleted if its awaiter has been destroyed,
and written otherwise, and the coroutine that waits is scheduled. -/
def Address.Completed (ctx : Address) (result : IoResult) (p p' : Poller) : Prop :=
  (∀ a, a ≠ ctx.word → p'.contexts a = p.contexts a) ∧ p'.inbox = p.inbox ∧
    if (p.contexts ctx.word).cancelled then
      p'.deleted = p.deleted ++ [ctx.word] ∧ p'.contexts ctx.word = p.contexts ctx.word ∧
        p'.queue = p.queue
    else
      p'.deleted = p.deleted ∧
        p'.contexts ctx.word =
          { p.contexts ctx.word with res := result.res, flags := result.flags } ∧
        p'.queue =
          if (p.contexts ctx.word).coro.isSome then p.queue.schedule (p.contexts ctx.word).coro
          else p.queue

/-- What handling a completion of a route does. -/
def Route.Served (result : IoResult) (p p' : Poller) : Route → Prop
  | context ctx => p'.pc = .loop ∧ ctx.Completed result p p'
  | multishot op => p'.pc = .callback op.word result ∧ p.Untouched p'
  | coroutine coro => p'.pc = .loop ∧ p'.contexts = p.contexts ∧ p'.deleted = p.deleted ∧
      p'.queue = p.queue.schedule (some coro.word) ∧ p'.inbox = p.inbox
  | inbox => p'.pc = .inbox ∧ p.Untouched p'
  | nothing => p'.pc = .loop ∧ p.Untouched p'

namespace Poller

/-- The part of `process_inbox` between two calls of `pop`: it goes on with the task that it has
popped, and returns only from an empty inbox. -/
def Drains (p p' : Poller) : Prop :=
  p'.contexts = p.contexts ∧ p'.deleted = p.deleted ∧
    ((p'.pc = .loop ∧ p.inbox.contents = [] ∧ p.Untouched p') ∨
      ∃ task inbox, p.inbox.pop = some (some task, inbox) ∧ p'.inbox = inbox ∧
        ((p'.pc = .inbox ∧ task.callable = none ∧ p'.queue = p.queue) ∨
          (p'.pc = .inbox ∧ ∃ coro, task.callable = some (.schedule coro) ∧
            p'.queue = p.queue.schedule (some coro)) ∨
          (p'.pc = .task ∧ (∃ f, task.callable = some (.other f)) ∧ p'.queue = p.queue)))

/-- What each step may do beside moving on in the queue. -/
def Exact (p : Poller) (op : PollOp) (p' : Poller) : Prop :=
  match op with
  | .next _ =>
    match p.takes op with
    | some cqe => ∃ i : Issue, cqe.userData = i.userData ∧ i.route.Served cqe.result p p'
    | none => p'.pc = .advance ∧ p.Untouched p'
  | .pop => p.Drains p'
  | .leave => p.Untouched p' ∧ (p'.pc = .loop → ∃ op result, p.pc = .callback op result)
  | .enter _ | .advance | .post _ => p.Untouched p'
  | .run _ _ => p'.deleted = p.deleted ∧ p'.inbox = p.inbox
  | .dispatch _ => p'.contexts = p.contexts ∧ p'.deleted = p.deleted ∧ p'.queue = p.queue

variable {p p' : Poller} {op : PollOp} {cqe : IoUringCqe}

/-- The handle at an address. -/
theorem fromAddress_word (a : Address) : fromAddress a.word = some a.word := if_neg a.ne_null

/-- The branch for an operation completes its context. -/
theorem complete_served (p : Poller) (ctx : Address) (result : IoResult) :
    (Route.context ctx).Served result p (p.complete ctx.word result) := by
  have hother : ∀ f, ∀ a, a ≠ ctx.word →
      Function.update p.contexts ctx.word f a = p.contexts a :=
    fun f a ha => Function.update_of_ne ha _ _
  by_cases hcancelled : (p.contexts ctx.word).cancelled
  · rw [complete, if_pos hcancelled]
    refine ⟨rfl, fun _ _ => rfl, rfl, ?_⟩
    rw [if_pos hcancelled]
    exact ⟨rfl, rfl, rfl⟩
  · rw [complete, if_neg hcancelled]
    simp only [setContext, Function.update_self]
    by_cases hcoro : (p.contexts ctx.word).coro.isSome
    · rw [if_pos hcoro]
      refine ⟨rfl, hother _, rfl, ?_⟩
      rw [if_neg hcancelled, if_pos hcoro]
      exact ⟨rfl, Function.update_self _ _ _, rfl⟩
    · rw [if_neg hcoro]
      refine ⟨rfl, hother _, rfl, ?_⟩
      rw [if_neg hcancelled, if_neg hcoro]
      exact ⟨rfl, Function.update_self _ _ _, rfl⟩

/-- The body of the loop serves the issue that the user data comes from. -/
theorem handle_served {i : Issue} (hi : cqe.userData = i.userData) (tail : UInt32) :
    i.route.Served cqe.result p ({ p with tail := tail }.handle cqe) := by
  set q : Poller := { p with tail := tail, metrics := p.metrics.recordIoEvent }
  have hbranch := i.branch_eq (q.complete · cqe.result)
    ({ q with pc := .callback · cqe.result }) (fun coro => (q.schedule (fromAddress coro)).count)
    { q with pc := .inbox } q.count
  rw [← hi] at hbranch
  change ({ p with tail := tail } : Poller).handle cqe = _ at hbranch
  rw [hbranch]
  cases i.route with
  | context ctx => exact complete_served q ctx cqe.result
  | multishot op => exact ⟨rfl, rfl, rfl, rfl, rfl⟩
  | coroutine coro =>
    refine ⟨rfl, rfl, rfl, ?_, rfl⟩
    show p.queue.schedule (fromAddress coro.word) = _
    rw [fromAddress_word]
  | inbox => exact ⟨rfl, rfl, rfl, rfl, rfl⟩
  | nothing => exact ⟨rfl, rfl, rfl, rfl, rfl⟩

/-- A task that `process_inbox` has popped. -/
theorem drains_invoke {task : UniqueTask (Closure (BitVec 64) Unit)}
    {inbox : SpscQueue (UniqueTask (Closure (BitVec 64) Unit))} (hpc : p.pc = .inbox)
    (hpop : p.inbox.pop = some (some task, inbox)) :
    p.Drains
      ({ p with inbox := inbox, metrics := p.metrics.recordInboxProcessed }.invoke task) := by
  unfold invoke
  cases htask : task.callable with
  | none => exact ⟨rfl, rfl, .inr ⟨task, inbox, hpop, rfl, .inl ⟨hpc, htask, rfl⟩⟩⟩
  | some callable =>
    cases callable with
    | schedule coro =>
      exact ⟨rfl, rfl, .inr ⟨task, inbox, hpop, rfl, .inr (.inl ⟨hpc, coro, htask, rfl⟩)⟩⟩
    | other f =>
      exact ⟨rfl, rfl, .inr ⟨task, inbox, hpop, rfl, .inr (.inr ⟨rfl, ⟨f, htask⟩, rfl⟩)⟩⟩

/-- Every step does what it may do, if what the loop takes has been issued. -/
theorem exact_of_step
    (hissued : ∀ cqe, p.takes op = some cqe → ∃ i : Issue, cqe.userData = i.userData)
    (hstep : pollStep p op p') : p.Exact op p' := by
  cases StepCase.of_step hstep with
  | handled reload hpc hne =>
    have htakes : p.takes (.next reload) = some (p.cq.entry p.head) := by simp [takes, hpc, hne]
    obtain ⟨i, hi⟩ := hissued _ htakes
    unfold Exact
    rw [htakes]
    exact ⟨i, hi, handle_served hi (p.loadTail reload)⟩
  | exhausted reload hpc heq =>
    have htakes : p.takes (.next reload) = none := by simp [takes, hpc, heq]
    unfold Exact
    rw [htakes]
    exact ⟨rfl, rfl, rfl, rfl, rfl⟩
  | popped task inbox hpc hpop => exact drains_invoke hpc hpop
  | drained inbox hpc hpop =>
    exact ⟨rfl, rfl, .inl ⟨rfl, SpscQueue.contents_of_pop_none hpop, rfl, rfl, rfl, rfl⟩⟩
  | returned op result hpc => exact ⟨⟨rfl, rfl, rfl, rfl⟩, fun _ => ⟨op, result, hpc⟩⟩
  | taskReturned hpc => exact ⟨⟨rfl, rfl, rfl, rfl⟩, fun hloop => by simp at hloop⟩
  | entered hpc | noScheduler hpc | finished hpc => exact ⟨rfl, rfl, rfl, rfl⟩
  | ran contexts queue huser => exact ⟨rfl, rfl⟩
  | dispatched inbox => exact ⟨rfl, rfl, rfl⟩
  | posted cqe cq hpost => exact ⟨rfl, rfl, rfl, rfl⟩

/-- In a run in which all that is pending and posted has been issued, every step does what it may
do. -/
theorem exact_path {l : List (PollOp × Poller)} (h : p.Counted) (hl : Path pollStep p l)
    (hissued : ∀ cqe ∈ p.pending ++ posted l, ∃ i : Issue, cqe.userData = i.userData) :
    Path (fun p op p' => pollStep p op p' ∧ p.Exact op p') p l := by
  induction l generalizing p with
  | nil => trivial
  | cons x l ih =>
    -- What is pending before the step and posted by it is taken by it or pending after it.
    have hone := pending_append_posted (l := [x]) h ⟨hl.1, trivial⟩
    have hposted : posted (x :: l) = posted [x] ++ posted l := by
      unfold posted
      rw [← List.filterMap_append, ← List.map_append, List.singleton_append]
    rw [hposted, ← List.append_assoc, hone, handled_cons, List.append_assoc] at hissued
    refine ⟨⟨hl.1, exact_of_step (fun cqe hcqe => hissued cqe ?_) hl.1⟩,
      ih (h.moves hl.1).counted hl.2 fun cqe hcqe => hissued cqe ?_⟩
    · rw [hcqe]
      simp
    · rcases List.mem_append.mp hcqe with hmem | hmem
      · exact List.mem_append_right _ (List.mem_append_left _ hmem)
      · exact List.mem_append_right _ (List.mem_append_right _ hmem)

end Poller

/-! ## `poll` returns -/

/-- A step of `poll` itself, with a current scheduler and the tail loaded before every entry, or the
return of the code that it calls. -/
def PollOp.own : PollOp → Bool
  | .enter current => current
  | .next reload => reload
  | .pop | .leave | .advance => true
  | .run _ _ | .dispatch _ | .post _ => false

/-- A step of `poll` itself. -/
def ownStep (p : Poller) (op : PollOp) (p' : Poller) : Prop := pollStep p op p' ∧ op.own

namespace Poller

variable {p p' q : Poller} {op : PollOp}

/-- The inbox holds what its counters say. -/
def InboxHolds (p : Poller) : Prop := ∃ items, p.inbox.Holds 0 items

/-- `poll` by itself goes on to a state in which the same completions are pending. -/
structure GoesOn (p q : Poller) : Prop where
  reachable : Reachable ownStep p q
  counted : q.Counted
  pending_eq : q.pending = p.pending
  holds : q.InboxHolds

/-- It goes on from where it is. -/
theorem GoesOn.refl (h : p.Counted) (hinbox : p.InboxHolds) : GoesOn p p :=
  ⟨.refl _ _, h, rfl, hinbox⟩

/-- It goes on further. -/
theorem GoesOn.trans (h : GoesOn p q) (h' : GoesOn q p') : GoesOn p p' :=
  ⟨h.reachable.trans h'.reachable, h'.counted, h'.pending_eq.trans h.pending_eq, h'.holds⟩

/-- One step of `poll` that takes no completion. -/
theorem GoesOn.step (h : p.Counted) (hstep : ownStep p op q) (htakes : p.takes op = none)
    (hinbox : q.InboxHolds) : GoesOn p q := by
  have hmoves := h.moves hstep.1
  have hposted : op.posted = none := by
    have hown := hstep.2
    cases op <;> first | rfl | simp [PollOp.own] at hown
  have hpending := hmoves.pending_step
  rw [event, hposted, htakes] at hpending
  exact ⟨(Reachable.refl _ p).step hstep, hmoves.counted, hpending, hinbox⟩

/-- A call of `poll` comes to its loop. -/
theorem exists_entered (h : p.Counted) (hinbox : p.InboxHolds) (hpc : p.pc = .outside) :
    ∃ q, GoesOn p q ∧ q.pc = .loop := by
  set entered : Poller :=
    { p with pc := .loop, head := p.cq.khead, tail := p.cq.ktail, advanced := 0 }
  have hstep : ownStep p (.enter true) entered :=
    ⟨by simp only [pollStep, Poller.step, hpc, if_true, entered], rfl⟩
  exact ⟨entered, .step h hstep rfl hinbox, rfl⟩

/-- Behind its loop `poll` returns. -/
theorem exists_finished (h : p.Counted) (hinbox : p.InboxHolds) (hpc : p.pc = .advance) :
    ∃ q, GoesOn p q ∧ q.pc = .outside := by
  set finished : Poller :=
    { p with
      pc := .outside
      cq := if 0 < p.advanced then p.cq.advance p.advanced else p.cq }
  have hstep : ownStep p .advance finished :=
    ⟨by simp only [pollStep, Poller.step, hpc, finished], rfl⟩
  exact ⟨finished, .step h hstep rfl hinbox, rfl⟩

/-- `process_inbox` comes to an end. -/
theorem exists_drained {items : List (UniqueTask (Closure (BitVec 64) Unit))} (h : p.Counted)
    (hpc : p.pc = .inbox) (hholds : p.inbox.Holds 0 items) : ∃ q, GoesOn p q ∧ q.pc = .loop := by
  induction items generalizing p with
  | nil =>
    have hstep : ownStep p .pop p.count :=
      ⟨by simp [pollStep, Poller.step, hpc, hholds.pop_nil], rfl⟩
    exact ⟨p.count, .step h hstep rfl ⟨[], hholds⟩, rfl⟩
  | cons task items ih =>
    obtain ⟨inbox, hpop, -, hrest⟩ := hholds.pop_cons
    set popped : Poller :=
      { p with inbox := inbox, metrics := p.metrics.recordInboxProcessed } with hpopped
    have hstep : ownStep p .pop (popped.invoke task) :=
      ⟨by simp only [pollStep, Poller.step, hpc, hpop, hpopped], rfl⟩
    have hinbox : (popped.invoke task).inbox.Holds 0 items := by
      unfold invoke
      split <;> exact hrest
    have hone := GoesOn.step h hstep rfl ⟨items, hinbox⟩
    -- The task returns, if it is one of the user.
    have hcases : (popped.invoke task).pc = .inbox ∨ (popped.invoke task).pc = .task := by
      unfold invoke
      split
      · exact .inl hpc
      · exact .inr rfl
      · exact .inl hpc
    rcases hcases with hinvoked | hinvoked
    · obtain ⟨q, hq, hloop⟩ := ih hone.counted hinvoked hinbox
      exact ⟨q, hone.trans hq, hloop⟩
    · have hleave : ownStep (popped.invoke task) .leave { popped.invoke task with pc := .inbox } :=
        ⟨by simp only [pollStep, Poller.step, hinvoked], rfl⟩
      have htwo := hone.trans (GoesOn.step hone.counted hleave rfl ⟨items, hinbox⟩)
      obtain ⟨q, hq, hloop⟩ := ih htwo.counted rfl hinbox
      exact ⟨q, htwo.trans hq, hloop⟩

/-- The code that the loop calls returns to it. -/
theorem exists_loop (h : p.Counted) (hinbox : p.InboxHolds) (hout : p.pc ≠ .outside)
    (hadvance : p.pc ≠ .advance) : ∃ q, GoesOn p q ∧ q.pc = .loop := by
  obtain ⟨items, hholds⟩ := hinbox
  cases hpc : p.pc with
  | outside => exact absurd hpc hout
  | advance => exact absurd hpc hadvance
  | loop => exact ⟨p, .refl h ⟨items, hholds⟩, hpc⟩
  | callback op result =>
    have hstep : ownStep p .leave p.count := ⟨by simp only [pollStep, Poller.step, hpc], rfl⟩
    exact ⟨p.count, .step h hstep rfl ⟨items, hholds⟩, rfl⟩
  | inbox => exact exists_drained h hpc hholds
  | task =>
    have hstep : ownStep p .leave { p with pc := .inbox } :=
      ⟨by simp only [pollStep, Poller.step, hpc], rfl⟩
    have hone := GoesOn.step h hstep rfl ⟨items, hholds⟩
    obtain ⟨q, hq, hloop⟩ := exists_drained hone.counted rfl hholds
    exact ⟨q, hone.trans hq, hloop⟩

/-- The body of the loop leaves the inbox alone. -/
theorem handle_inbox (p : Poller) (cqe : IoUringCqe) : (p.handle cqe).inbox = p.inbox := by
  unfold handle complete
  dsimp only
  split_ifs <;> rfl

/-- From its loop, `poll` by itself handles what is pending and comes to the end. -/
theorem exists_return_of_loop (h : p.Counted) (hinbox : p.InboxHolds) (hpc : p.pc = .loop) :
    ∃ q, Reachable ownStep p q ∧ q.pc = .outside ∧ q.pending = [] := by
  induction hn : p.pending.length generalizing p with
  | zero =>
    -- The loop ends, and the head is stored.
    have hnil := List.length_eq_zero_iff.mp hn
    have heq := (h.head_eq_ktail_iff hpc).mpr hnil
    set behind : Poller := { p with tail := p.loadTail true, pc := .advance } with hbehind
    have hstep : ownStep p (.next true) behind :=
      ⟨by simp [pollStep, Poller.step, hpc, ← heq, hbehind], rfl⟩
    have hone := GoesOn.step h hstep (by simp [takes, hpc, heq]) hinbox
    obtain ⟨q, hq, hout⟩ := exists_finished hone.counted hone.holds rfl
    have htwo := hone.trans hq
    exact ⟨q, htwo.reachable, hout, htwo.pending_eq.trans hnil⟩
  | succ n ih =>
    -- The first of the pending completions is handled, and the code that is called returns.
    have hne : p.head ≠ p.loadTail true := by
      intro heq
      rw [(h.head_eq_ktail_iff hpc).mp heq] at hn
      simp at hn
    set q := { p with tail := p.loadTail true }.handle (p.cq.entry p.head) with hq
    have hstep : ownStep p (.next true) q := ⟨by simp [pollStep, Poller.step, hpc, hne, hq], rfl⟩
    have hmoves := h.moves hstep.1
    have htakes : p.takes (.next true) = some (p.cq.entry p.head) := by simp [takes, hpc, hne]
    have hpending := hmoves.pending_step
    rw [event, htakes] at hpending
    have hlength : q.pending.length = n := by
      rw [show p.pending = p.cq.entry p.head :: q.pending from hpending, List.length_cons] at hn
      exact Nat.succ.inj hn
    have hqinbox : q.InboxHolds := by
      obtain ⟨items, hholds⟩ := hinbox
      exact ⟨items, by rw [hq, handle_inbox]; exact hholds⟩
    have hlt : p.advanced.toNat + 1 < 2 ^ 32 := by
      have htaken := taken_of_loop hpc
      have hready := h.ready_le
      have hcap := p.cq.entries_le
      have hrest : p.cq.ready - p.taken = n + 1 := by
        rw [← hn, pending, CompletionQueue.length_rest]
      omega
    have htook := tookOne_handle (p := { p with tail := p.loadTail true }) hlt (p.cq.entry p.head)
    obtain ⟨r, hr, hloop⟩ := exists_loop hmoves.counted hqinbox htook.outside htook.advance
    obtain ⟨s, hs, hout, hnil⟩ := ih hr.counted hr.holds hloop (by rw [hr.pending_eq, hlength])
    have hreach : Reachable ownStep p s :=
      calc Reachable ownStep p _ := (Reachable.refl _ p).step hstep
        Reachable ownStep _ r := hr.reachable
        Reachable ownStep _ s := hs
    exact ⟨s, hreach, hout, hnil⟩

/-- From every state, `poll` by itself handles what is pending and returns, called if it does not
run. -/
theorem exists_return (h : p.Counted) (hinbox : p.InboxHolds) :
    ∃ q, Reachable ownStep p q ∧ q.pc = .outside ∧ q.pending = [] := by
  have hloop : ∃ q, GoesOn p q ∧ q.pc = .loop := by
    by_cases hout : p.pc = .outside
    · exact exists_entered h hinbox hout
    by_cases hadvance : p.pc = .advance
    · -- The call that ends is followed by another one.
      obtain ⟨q, hq, hpc⟩ := exists_finished h hinbox hadvance
      obtain ⟨r, hr, hloop⟩ := exists_entered hq.counted hq.holds hpc
      exact ⟨r, hq.trans hr, hloop⟩
    · exact exists_loop h hinbox hout hadvance
  obtain ⟨q, hq, hpc⟩ := hloop
  obtain ⟨r, hr, hout, hnil⟩ := exists_return_of_loop hq.counted hq.holds hpc
  exact ⟨r, hq.reachable.trans hr, hout, hnil⟩

end Poller

/-! ## Runs -/

/-- `poll` does not run, and the counters of the queue are in order. -/
structure Poller.Idle (p : Poller) : Prop where
  outside : p.pc = .outside
  ready_le : p.cq.ready ≤ p.cq.entries

/-- The counters are in order before `poll` is called. -/
theorem Poller.Idle.counted {p : Poller} (h : p.Idle) : p.Counted where
  ready_le := h.ready_le
  seen_le := (seen_of_outside h.outside).le
  taken_le := by simp [taken, h.outside]
  head_eq hout := absurd h.outside hout
  passed hadvance := absurd (h.outside.symm.trans hadvance) nofun

/-- What `poll` does with the completions in a run, and what it does beside that. Every completion
is taken once and in order, for what it has been issued for. The head is advanced by the number
taken. The completions that are pending when `poll` is called are all taken when its loop ends, and
the loop ends if nobody else moves. -/
structure RoutesEvery (p : Poller) (l : List (PollOp × Poller)) : Prop where
  in_order : p.pending ++ posted l = handled p l ++ (last p l).pending
  exact : Path (fun p op p' => pollStep p op p' ∧ p.Exact op p') p l
  khead_eq : (last p l).pc = .outside →
    (last p l).cq.khead = p.cq.khead + UInt32.ofNat (handled p l).length
  all_due : (last p l).pc = .advance → p.pending <+: handled p l
  returns : (last p l).InboxHolds →
    ∃ q, Reachable ownStep (last p l) q ∧ q.pc = .outside ∧ q.pending = []

/-- In every run in which all user data has been issued, `poll` routes every completion to what it
has been issued for, exactly once. -/
theorem poll_routes {p : Poller} {l : List (PollOp × Poller)} (hp : p.Idle)
    (hl : Path pollStep p l)
    (hissued : ∀ cqe ∈ p.pending ++ posted l, ∃ i : Issue, cqe.userData = i.userData) :
    RoutesEvery p l := by
  have hcounted := hp.counted
  have hposition : ∀ {q : Poller}, q.pc = .outside → q.position = q.cq.khead := by
    intro q hpc
    rw [Poller.position, Poller.taken, hpc]
    exact UInt32.add_zero _
  constructor
  case in_order => exact pending_append_posted hcounted hl
  case exact => exact Poller.exact_path hcounted hl hissued
  case khead_eq =>
    intro hpc
    rw [← hposition hpc, ← hposition hp.outside]
    exact position_eq hcounted hl
  case all_due =>
    intro hpc
    have hdue := due_prefix hcounted hl
    -- All that is pending is due at the start, and nothing is due behind the loop.
    have hstart : p.due = p.pending := by
      unfold Poller.due Poller.pending
      rw [Poller.seen_of_outside hp.outside]
      exact List.take_of_length_le (CompletionQueue.length_rest _ _).le
    have hend : (last p l).due = [] :=
      Poller.due_eq_nil ((hcounted.path hl).2.passed hpc).ge
    rwa [hstart, hend, List.append_nil] at hdue
  case returns => exact fun hinbox => Poller.exists_return (hcounted.path hl).2 hinbox

/-- A call that handles a completion of each kind, on a ring whose counters wrap. The callback of
the multishot operation has another coroutine await the operation, and the kernel posts while the
inbox is drained. -/
theorem poll_routes_five : ∃ (p : Poller) (l : List (PollOp × Poller)),
    p.cq.khead = 4294967294 ∧
      (handled p l).map IoUringCqe.userData = [16#64, 33#64, 66#64, 3#64, 0#64] ∧
      (last p l).cq.khead = 3 ∧ (last p l).pc = .outside ∧ RoutesEvery p l := by
  set cqes : ℕ → IoUringCqe := fun i =>
    if i = 6 then ⟨16, ⟨5, 0⟩⟩ else if i = 7 then ⟨33, ⟨9, 2⟩⟩ else if i = 0 then ⟨66, ⟨0, 0⟩⟩
    else ⟨3, ⟨0, 0⟩⟩ with hcqes
  set start : Poller :=
    { cq := ⟨8, ⟨3, rfl⟩, by decide, 4294967294, 2, cqes⟩
      pc := .outside
      head := 0
      tail := 0
      advanced := 0
      contexts := fun _ => { coro := some 128 }
      deleted := []
      queue := .new fun _ => none
      inbox := .new
      metrics := {} } with hstart
  set ops : List PollOp := [.enter true, .next true, .next true,
    .run (fun _ => { coro := some 192 }) (.new fun _ => none), .leave, .next true, .next true,
    .post ⟨0, ⟨0, 0⟩⟩, .pop, .next true, .next true, .advance] with hops
  have hrun : (follow Poller.step start ops).map (fun l =>
      ((handled start l).map IoUringCqe.userData, (last start l).cq.khead, (last start l).pc)) =
      some ([16#64, 33#64, 66#64, 3#64, 0#64], 3, .outside) := by
    rw [hstart, hops, hcqes]
    decide +kernel
  obtain ⟨l, hl, hvalues⟩ := Option.map_eq_some_iff.mp hrun
  obtain ⟨hlabels, hpath⟩ := path_of_follow hl
  simp only [Prod.mk.injEq] at hvalues
  obtain ⟨huser, hkhead, hpc⟩ := hvalues
  refine ⟨start, l, rfl, huser, hkhead, hpc,
    poll_routes ⟨rfl, by rw [hstart, hcqes]; decide +kernel⟩ hpath fun cqe hcqe => ?_⟩
  -- All user data is that of an issue.
  have hwords : (start.pending ++ ops.filterMap PollOp.posted).map IoUringCqe.userData =
      [16, 33, 66, 3, 0] := by
    rw [hstart, hops, hcqes]
    decide +kernel
  have hmem := List.mem_map_of_mem (f := IoUringCqe.userData) hcqe
  rw [posted, hlabels, hwords] at hmem
  generalize cqe.userData = word at hmem ⊢
  simp only [List.mem_cons, List.not_mem_nil, or_false] at hmem
  rcases hmem with rfl | rfl | rfl | rfl | rfl
  · exact ⟨.recvDirect ⟨16, by decide, by decide⟩, by decide⟩
  · exact ⟨.acceptMultishot ⟨32, by decide, by decide⟩, by decide⟩
  · exact ⟨.unlock ⟨64, by decide, by decide⟩, by decide⟩
  · exact ⟨.dispatchOn, by decide⟩
  · exact ⟨.sendMsgRing, by decide⟩

end Novaio
