import Novaio.SpscQueue.Steps

/-!
# The inbox of a scheduler

`Scheduler::push_inbox` and `Scheduler::process_inbox` of `src/scheduler.cpp`: the inbox is an
`SpscQueue` of tasks, to which every thread that calls `Runtime::dispatch_on` for the scheduler
pushes, and from which the scheduler pops and invokes.

The queue is for one producer, and nothing keeps two calls of `dispatch_on` apart. The tasks are
delivered in runs in which every write is in turn (`inbox_delivers`), and not in all
(`inbox_loses_task`).
-/

namespace Novaio

open Transition

/-- `UniqueTask`: the callable that it owns, if any. -/
structure UniqueTask (κ : Type*) where
  callable : Option κ

variable {ι κ : Type*}

/-- The callables of tasks. -/
def callables (tasks : List (UniqueTask κ)) : List κ := tasks.filterMap UniqueTask.callable

/-- What `process_inbox` has invoked: the callable of every task that it popped, if it has one. -/
def Channel.invoked (c : Channel ι (UniqueTask κ)) : List κ := callables c.consumed

/-- What was accepted is invoked exactly once: nothing else is invoked, nothing is missing once the
inbox is drained, and the scheduler by itself drains it. -/
structure Channel.DeliversOnce [DecidableEq ι] (c : Channel ι (UniqueTask κ)) : Prop where
  invoked_prefix : c.invoked <+: callables c.accepted
  drained : c.Drained → c.invoked = callables c.accepted
  drains : ∃ l, Path channelStep c l ∧ (∀ x ∈ l, x.1 = .popNext) ∧ (last c l).Drained ∧
    (last c l).invoked = callables c.accepted

namespace Channel

variable {c : Channel ι (UniqueTask κ)} {items : List (UniqueTask κ)}

/-- In a consistent inbox, what is invoked is a first part of what was accepted. -/
theorem Consistent.invoked_prefix (h : c.Consistent items) :
    c.invoked <+: callables c.accepted := by
  unfold invoked callables
  rw [h.accepted_eq, List.append_assoc, List.filterMap_append]
  exact List.prefix_append _ _

/-- In a consistent inbox that is drained, all that was accepted is invoked. -/
theorem Consistent.invoked_eq (h : c.Consistent items) (hd : c.Drained) :
    c.invoked = callables c.accepted := by
  obtain ⟨hin, rfl⟩ := h.drained_iff.mp hd
  unfold invoked
  rw [h.accepted_eq, hin, List.append_nil, List.append_nil]

/-- A consistent inbox delivers. -/
theorem Consistent.deliversOnce [DecidableEq ι] (h : c.Consistent items) : c.DeliversOnce := by
  refine ⟨h.invoked_prefix, h.invoked_eq, ?_⟩
  obtain ⟨l, hl, hpop, hd, ⟨items', hlast⟩, hacc⟩ := exists_drain h
  exact ⟨l, hl, hpop, hd, hacc ▸ hlast.invoked_eq hd⟩

end Channel

/-- In every run of the dispatching threads and the scheduler in which each write to a slot is in
turn, every task accepted is invoked exactly once. -/
theorem inbox_delivers [DecidableEq ι]
    (l : List (ChannelOp ι (UniqueTask κ) × Channel ι (UniqueTask κ)))
    (hl : Path channelStep Channel.new l) (hturn : Meets Channel.InTurn Channel.new l) :
    ∀ x ∈ l, x.2.DeliversOnce := by
  intro x hx
  obtain ⟨items, hc⟩ := Channel.consistent_run ⟨[], Channel.new_consistent⟩ hl hturn x hx
  exact hc.deliversOnce

/-- A dispatch and its delivery, without another in between. -/
theorem inbox_delivers_one :
    ∃ l : List (ChannelOp Bool (UniqueTask ℕ) × Channel Bool (UniqueTask ℕ)),
      l.map Prod.fst = [.push false ⟨some 7⟩, .pushNext false, .pushNext false, .pushNext false,
        .popNext, .popNext, .popNext, .popNext, .popNext, .popNext] ∧
      Path channelStep Channel.new l ∧ (last Channel.new l).invoked = [7] ∧
      ∀ x ∈ l, x.2.DeliversOnce := by
  obtain ⟨l, hops, hl, hinvoked, hturn⟩ :
      ∃ l : List (ChannelOp Bool (UniqueTask ℕ) × Channel Bool (UniqueTask ℕ)),
      l.map Prod.fst = [.push false ⟨some 7⟩, .pushNext false, .pushNext false, .pushNext false,
        .popNext, .popNext, .popNext, .popNext, .popNext, .popNext] ∧
      Path channelStep Channel.new l ∧ (last Channel.new l).invoked = [7] ∧
      Meets Channel.InTurn Channel.new l := by
    refine ⟨[(_, _), (_, _), (_, _), (_, _), (_, _), (_, _), (_, _), (_, _), (_, _), (_, _)],
      rfl, ⟨rfl, rfl, rfl, rfl, rfl, rfl, rfl, rfl, rfl, rfl, trivial⟩, rfl, ?_⟩
    refine ⟨trivial, trivial, ⟨rfl, ?_, by decide⟩, trivial, trivial, trivial, trivial, trivial,
      trivial, trivial, trivial⟩
    intro j hj
    cases j with
    | false => exact absurd rfl hj
    | true => exact id
  exact ⟨l, hops, hl, hinvoked, inbox_delivers l hl hturn⟩

/-- Two dispatches that overlap: both threads load the tail, and the second writes over the task
that the first has published. Both tasks are accepted, and one is invoked. -/
theorem inbox_loses_task :
    ∃ l : List (ChannelOp Bool (UniqueTask ℕ) × Channel Bool (UniqueTask ℕ)),
      l.map Prod.fst = [.push false ⟨some 1⟩, .push true ⟨some 2⟩, .pushNext false, .pushNext true,
        .pushNext false, .pushNext false, .pushNext true, .pushNext true, .popNext, .popNext,
        .popNext, .popNext, .popNext, .popNext] ∧
      Path channelStep Channel.new l ∧ (last Channel.new l).invoked = [2] ∧
      ¬ ∀ x ∈ l, x.2.DeliversOnce := by
  refine ⟨[(_, _), (_, _), (_, _), (_, _), (_, _), (_, _), (_, _), (_, _), (_, _), (_, _), (_, _),
    (_, _), (_, _), (_, _)], rfl,
    ⟨rfl, rfl, rfl, rfl, rfl, rfl, rfl, rfl, rfl, rfl, rfl, rfl, rfl, rfl, trivial⟩, rfl, ?_⟩
  intro h
  have hlast := (h _ (List.mem_of_mem_getLast? rfl)).drained ⟨rfl, rfl⟩
  exact absurd hlast (by decide)

end Novaio
