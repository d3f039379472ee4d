import Novaio.Inbox

/-!
# The runtime

`Runtime::start` and `Runtime::dispatch_on` of `src/runtime.cpp`, and the part of a `Scheduler` that
they use: its id, the descriptor of its ring, its inbox, and the coroutines that have been passed to
`Scheduler::schedule`. A pointer to a scheduler is its position in `schedulers_`.

`dispatch_on` is one step here: these are the runs in which the dispatches do not overlap.
-/

namespace Novaio

/-- What a dispatched task does: it schedules a coroutine on the scheduler that runs it, or
something else. -/
inductive Closure (ω κ : Type*) where
  | schedule (coro : ω)
  | other (callable : κ)

/-- `Scheduler`. The descriptor of its ring is missing until `IoEngine::init`. -/
structure Scheduler (ω κ : Type*) where
  id : ℕ
  ringFd : Option ℕ
  inbox : SpscQueue (UniqueTask (Closure ω κ))
  scheduled : List ω

/-- `Runtime`, and the rings that `dispatch_on` has notified. -/
structure Runtime (ω κ : Type*) where
  schedulers : List (Scheduler ω κ)
  notified : List ℕ

variable {ω κ : Type*}

/-- The coroutine that a task schedules, if it does. -/
def UniqueTask.coro (task : UniqueTask (Closure ω κ)) : Option ω :=
  match task.callable with
  | some (.schedule coro) => some coro
  | some (.other _) | none => none

namespace Scheduler

/-- A scheduler as constructed. -/
def new (id : ℕ) : Scheduler ω κ := ⟨id, none, .new, []⟩

/-- `Scheduler::push_inbox`. -/
def pushInbox (s : Scheduler ω κ) (task : UniqueTask (Closure ω κ)) : Bool × Scheduler ω κ :=
  ((s.inbox.push task).1, { s with inbox := (s.inbox.push task).2 })

/-- An iteration of `Scheduler::process_inbox`, if there is one. -/
def processNext (s : Scheduler ω κ) : Option (Scheduler ω κ) :=
  match s.inbox.pop with
  | some (some task, inbox) =>
    some { s with inbox := inbox, scheduled := s.scheduled ++ task.coro.toList }
  | _ => none

/-- `Scheduler::process_inbox`, in at most `n` iterations. -/
def processInbox : ℕ → Scheduler ω κ → Scheduler ω κ
  | 0, s => s
  | n + 1, s =>
    match s.processNext with
    | some s => processInbox n s
    | none => s

end Scheduler

namespace Runtime

/-- A runtime as constructed. -/
def new : Runtime ω κ := ⟨[], []⟩

/-- `Runtime::start`. -/
def start (rt : Runtime ω κ) (numCores : ℕ) : Runtime ω κ :=
  { rt with schedulers := rt.schedulers ++ (List.range numCores).map Scheduler.new }

/-- `IoEngine::init` on the thread of a scheduler. -/
def init (rt : Runtime ω κ) (core fd : ℕ) : Runtime ω κ :=
  { rt with schedulers := rt.schedulers.modify core fun s => { s with ringFd := some fd } }

/-- `Runtime::dispatch_on`, with the notification of the target. -/
def dispatchOn (rt : Runtime ω κ) (coreId : ℕ) (task : UniqueTask (Closure ω κ)) : Runtime ω κ :=
  match rt.schedulers[coreId]? with
  | some target =>
    { schedulers := rt.schedulers.set coreId (target.pushInbox task).2
      notified :=
        if (target.pushInbox task).1 then rt.notified ++ target.ringFd.toList else rt.notified }
  | none => rt

/-- An iteration of `process_inbox` on a core, if there is one. -/
def processNext (rt : Runtime ω κ) (core : ℕ) : Option (Runtime ω κ) :=
  (rt.schedulers[core]?.bind Scheduler.processNext).map fun s =>
    { rt with schedulers := rt.schedulers.set core s }

/-- `process_inbox` on a core, while no task is pushed. -/
def processInbox (rt : Runtime ω κ) (core : ℕ) : Runtime ω κ :=
  { rt with schedulers := rt.schedulers.modify core fun s => s.processInbox s.inbox.size }

/-! ## What a core has received -/

/-- The id of a scheduler. -/
def idOf (rt : Runtime ω κ) (p : ℕ) : Option ℕ := rt.schedulers[p]?.map Scheduler.id

/-- The tasks in the inbox of a scheduler. -/
def inboxOf (rt : Runtime ω κ) (p : ℕ) : List (UniqueTask (Closure ω κ)) :=
  (rt.schedulers[p]?.map fun s => s.inbox.contents).getD []

/-- The coroutines scheduled on a scheduler. -/
def scheduledOn (rt : Runtime ω κ) (p : ℕ) : List ω :=
  (rt.schedulers[p]?.map Scheduler.scheduled).getD []

/-- The coroutines that a scheduler has scheduled, or that a task in its inbox will schedule. -/
def due (rt : Runtime ω κ) (p : ℕ) : List ω :=
  rt.scheduledOn p ++ (rt.inboxOf p).filterMap UniqueTask.coro

end Runtime

/-- What every scheduler in use has: an inbox of the default capacity that holds its contents. -/
structure Scheduler.InUse (s : Scheduler ω κ) : Prop where
  capacity_eq : s.inbox.capacity = 65536
  holds : s.inbox.Holds 0 s.inbox.contents

/-- Every scheduler of a runtime is in use. -/
def Runtime.InUse (rt : Runtime ω κ) : Prop :=
  ∀ (p : ℕ) (s : Scheduler ω κ), rt.schedulers[p]? = some s → s.InUse

namespace Scheduler

variable {s s' : Scheduler ω κ}

/-- A scheduler as constructed is in use, and its inbox is empty. -/
theorem new_inUse (id : ℕ) : (new id : Scheduler ω κ).InUse :=
  ⟨rfl, by
    have h := SpscQueue.new_holds (α := UniqueTask (Closure ω κ))
    show SpscQueue.Holds _ 0 SpscQueue.new.contents
    rwa [h.contents_eq]⟩

/-- `push_inbox` appends the task, unless the inbox is full. -/
theorem pushInbox_spec (h : s.InUse) (task : UniqueTask (Closure ω κ)) :
    (s.pushInbox task).2.InUse ∧ (s.pushInbox task).2.inbox.contents =
      if s.inbox.contents.length < 65536 then s.inbox.contents ++ [task]
      else s.inbox.contents := by
  obtain ⟨-, hcap, hholds⟩ := h.holds.push task
  rw [h.capacity_eq] at hholds hcap
  have hcontents := hholds.contents_eq
  refine ⟨⟨hcap, ?_⟩, hcontents⟩
  show SpscQueue.Holds _ 0 (s.inbox.push task).2.contents
  rwa [hcontents]

/-- An iteration of `process_inbox` takes the first task. -/
theorem processNext_spec (h : s.InUse) :
    (s.inbox.contents = [] ∧ s.processNext = none) ∨
      ∃ task s', s.processNext = some s' ∧ s'.InUse ∧ s'.id = s.id ∧
        s.inbox.contents = task :: s'.inbox.contents ∧
        s'.scheduled = s.scheduled ++ task.coro.toList := by
  have hholds := h.holds
  unfold processNext
  cases hc : s.inbox.contents with
  | nil =>
    rw [hc] at hholds
    exact .inl ⟨rfl, by rw [hholds.pop_nil]⟩
  | cons task rest =>
    rw [hc] at hholds
    obtain ⟨q, hpop, hcap, hq⟩ := hholds.pop_cons
    refine .inr ⟨task, { s with inbox := q, scheduled := s.scheduled ++ task.coro.toList },
      by rw [hpop], ⟨hcap.trans h.capacity_eq, ?_⟩, rfl, ?_, rfl⟩
    · show q.Holds 0 q.contents
      rwa [hq.contents_eq]
    · show task :: rest = task :: q.contents
      rw [hq.contents_eq]

/-- `process_inbox` schedules what the tasks in the inbox schedule. -/
theorem processInbox_scheduled (n : ℕ) (h : s.InUse) (hn : s.inbox.contents.length ≤ n) :
    (s.processInbox n).scheduled = s.scheduled ++ s.inbox.contents.filterMap UniqueTask.coro := by
  induction n generalizing s with
  | zero =>
    rw [List.length_eq_zero_iff.mp (Nat.le_zero.mp hn)]
    simp [processInbox]
  | succ n ih =>
    rcases processNext_spec h with ⟨hc, hnone⟩ | ⟨task, s', hsome, hs', -, hc, hsched⟩
    · simp [processInbox, hnone, hc]
    · rw [hc, List.length_cons] at hn
      simp only [processInbox, hsome]
      rw [ih hs' (by omega), hsched, hc, List.append_assoc]
      congr 1
      cases hcoro : task.coro <;> simp [hcoro]

end Scheduler

namespace Runtime

variable {rt rt' : Runtime ω κ}

/-- The positions without a scheduler. -/
theorem idOf_eq_none_iff (rt : Runtime ω κ) (p : ℕ) :
    rt.idOf p = none ↔ rt.schedulers.length ≤ p := by
  simp [idOf]

/-- Runtimes with the same ids have the same number of schedulers. -/
theorem length_eq (h : rt'.idOf = rt.idOf) : rt'.schedulers.length = rt.schedulers.length := by
  have h1 := (rt.idOf_eq_none_iff rt.schedulers.length).mpr le_rfl
  have h2 := (rt'.idOf_eq_none_iff rt'.schedulers.length).mpr le_rfl
  rw [← h, idOf_eq_none_iff] at h1
  rw [h, idOf_eq_none_iff] at h2
  omega

/-- An inbox holds no more tasks than its capacity. -/
theorem InUse.length_inboxOf (h : rt.InUse) (p : ℕ) : (rt.inboxOf p).length ≤ 65536 := by
  unfold inboxOf
  cases hs : rt.schedulers[p]? with
  | none => simp
  | some s =>
    have huse := h p s hs
    have hle := huse.holds.size_le
    rw [huse.capacity_eq, Nat.zero_add] at hle
    exact hle

/-- A runtime as constructed is in use. -/
theorem new_inUse : (new : Runtime ω κ).InUse := fun p s h => by simp [new] at h

/-- `start` adds schedulers in use. -/
theorem start_inUse (h : rt.InUse) (numCores : ℕ) : (rt.start numCores).InUse := by
  intro p s hs
  have hmem := List.mem_of_getElem? hs
  rcases List.mem_append.mp hmem with hmem | hmem
  · obtain ⟨q, hq⟩ := List.getElem?_of_mem hmem
    exact h q s hq
  · obtain ⟨id, -, rfl⟩ := List.mem_map.mp hmem
    exact Scheduler.new_inUse id

/-- `init` leaves the inboxes and what is scheduled. -/
theorem init_spec (h : rt.InUse) (core fd : ℕ) :
    (rt.init core fd).InUse ∧ (rt.init core fd).idOf = rt.idOf ∧
      (rt.init core fd).inboxOf = rt.inboxOf ∧ (rt.init core fd).scheduledOn = rt.scheduledOn := by
  have hget : ∀ p, (rt.init core fd).schedulers[p]? = rt.schedulers[p]?.map fun s =>
      if core = p then { s with ringFd := some fd } else s := fun p => by
    simp only [init, List.getElem?_modify, Option.map_eq_map]
  refine ⟨?_, ?_, ?_, ?_⟩
  · intro p s hs
    rw [hget] at hs
    obtain ⟨t, ht, rfl⟩ := Option.map_eq_some_iff.mp hs
    have huse := h p t ht
    split_ifs
    · exact ⟨huse.capacity_eq, huse.holds⟩
    · exact huse
  all_goals
    funext p
    simp only [idOf, inboxOf, scheduledOn, hget]
    cases rt.schedulers[p]? with
    | none => rfl
    | some s =>
      simp only [Option.map_some]
      split_ifs <;> rfl

/-- What changes when the scheduler of a core is replaced by one with the same id. -/
theorem setScheduler_spec (h : rt.InUse) {core : ℕ} {s s' : Scheduler ω κ}
    (hs : rt.schedulers[core]? = some s) (huse : s'.InUse) (hid : s'.id = s.id)
    (notified : List ℕ) :
    let rt' : Runtime ω κ := ⟨rt.schedulers.set core s', notified⟩
    rt'.InUse ∧ rt'.idOf = rt.idOf ∧ rt'.inboxOf core = s'.inbox.contents ∧
      rt'.scheduledOn core = s'.scheduled ∧
      ∀ q, q ≠ core → rt'.inboxOf q = rt.inboxOf q ∧ rt'.scheduledOn q = rt.scheduledOn q := by
  intro rt'
  obtain ⟨hlt, -⟩ := List.getElem?_eq_some_iff.mp hs
  have hself : rt'.schedulers[core]? = some s' := List.getElem?_set_self hlt
  have hother : ∀ q, q ≠ core → rt'.schedulers[q]? = rt.schedulers[q]? := fun q hq =>
    List.getElem?_set_ne hq.symm
  refine ⟨?_, ?_, ?_, ?_, ?_⟩
  · intro q t ht
    rcases eq_or_ne q core with rfl | hq
    · obtain rfl := Option.some.inj (hself.symm.trans ht)
      exact huse
    · exact h q t ((hother q hq).symm.trans ht)
  · funext q
    rcases eq_or_ne q core with rfl | hq
    · simp only [idOf, hself, hs, Option.map_some, hid]
    · simp only [idOf, hother q hq]
  · simp only [inboxOf, hself, Option.map_some, Option.getD_some]
  · simp only [scheduledOn, hself, Option.map_some, Option.getD_some]
  · intro q hq
    simp only [inboxOf, scheduledOn, hother q hq, and_self]

/-- `dispatch_on` adds the task to the inbox of its target, if there is one and its inbox has room,
and leaves everything else. -/
theorem dispatchOn_spec (h : rt.InUse) (core : ℕ) (task : UniqueTask (Closure ω κ)) :
    (rt.dispatchOn core task).InUse ∧ (rt.dispatchOn core task).idOf = rt.idOf ∧
      (rt.dispatchOn core task).scheduledOn = rt.scheduledOn ∧
      ∀ q, (rt.dispatchOn core task).inboxOf q =
        if q = core ∧ core < rt.schedulers.length ∧ (rt.inboxOf core).length < 65536 then
          rt.inboxOf q ++ [task]
        else rt.inboxOf q := by
  unfold dispatchOn
  cases hs : rt.schedulers[core]? with
  | none =>
    have hlt := List.getElem?_eq_none_iff.mp hs
    refine ⟨h, rfl, rfl, fun q => ?_⟩
    rw [if_neg (by omega)]
  | some s =>
    obtain ⟨hlt, -⟩ := List.getElem?_eq_some_iff.mp hs
    obtain ⟨huse, hcontents⟩ := Scheduler.pushInbox_spec (h core s hs) task
    obtain ⟨hinUse, hid, hinbox, hscheduled, hother⟩ := setScheduler_spec h hs huse rfl
      (if (s.pushInbox task).1 then rt.notified ++ s.ringFd.toList else rt.notified)
    refine ⟨hinUse, hid, ?_, ?_⟩
    · funext q
      rcases eq_or_ne q core with rfl | hq
      · rw [hscheduled]
        simp only [scheduledOn, hs]
        rfl
      · exact (hother q hq).2
    · intro q
      rcases eq_or_ne q core with rfl | hq
      · rw [hinbox, hcontents]
        simp only [inboxOf, hs, Option.map_some, Option.getD_some, hlt, true_and]
      · rw [(hother q hq).1, if_neg fun hcore => hq hcore.1]

/-- An iteration of `process_inbox` on a core. -/
theorem processNext_spec (h : rt.InUse) {core : ℕ} (hstep : rt.processNext core = some rt') :
    rt'.InUse ∧ rt'.idOf = rt.idOf ∧
      (∀ q, q ≠ core → rt'.inboxOf q = rt.inboxOf q ∧ rt'.scheduledOn q = rt.scheduledOn q) ∧
      ∃ task, rt.inboxOf core = task :: rt'.inboxOf core ∧
        rt'.scheduledOn core = rt.scheduledOn core ++ task.coro.toList := by
  unfold processNext at hstep
  cases hs : rt.schedulers[core]? with
  | none => simp [hs] at hstep
  | some s =>
    rcases Scheduler.processNext_spec (h core s hs) with ⟨-, hnone⟩ |
      ⟨task, s', hsome, huse, hid, hcontents, hsched⟩
    · simp [hs, hnone] at hstep
    · simp only [hs, Option.bind_some, hsome, Option.map_some, Option.some.injEq] at hstep
      subst hstep
      obtain ⟨hinUse, hids, hinbox, hscheduled, hother⟩ :=
        setScheduler_spec h hs huse hid rt.notified
      refine ⟨hinUse, hids, hother, task, ?_, ?_⟩
      · rw [hinbox]
        simpa only [inboxOf, hs, Option.map_some, Option.getD_some] using hcontents
      · rw [hscheduled]
        simpa only [scheduledOn, hs, Option.map_some, Option.getD_some] using hsched

/-- `process_inbox` schedules what is due. -/
theorem processInbox_scheduledOn (h : rt.InUse) (p : ℕ) :
    (rt.processInbox p).scheduledOn p = rt.due p := by
  simp only [processInbox, due, scheduledOn, inboxOf, List.getElem?_modify, if_true]
  cases hs : rt.schedulers[p]? with
  | none => rfl
  | some s =>
    have huse := h p s hs
    have hsize := huse.holds.size_eq
    simp only [Option.map_eq_map, Option.map_some, Option.getD_some]
    exact Scheduler.processInbox_scheduled _ huse (by omega)

/-- After a single `start`, the inboxes are empty. -/
theorem inboxOf_start (n p : ℕ) : ((new : Runtime ω κ).start n).inboxOf p = [] := by
  unfold inboxOf
  cases hs : ((new : Runtime ω κ).start n).schedulers[p]? with
  | none => rfl
  | some s =>
    obtain ⟨id, -, rfl⟩ := List.mem_map.mp (List.mem_of_getElem? hs)
    exact SpscQueue.new_holds.contents_eq

end Runtime

end Novaio
