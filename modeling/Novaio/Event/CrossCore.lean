import Mathlib.Data.List.Perm.Subperm
import Novaio.Event.Broadcast
import Novaio.Runtime

/-!
# Wake-ups across cores

An event whose waiters are suspended on schedulers of the runtime, and whose setter runs on a thread
that is none of them: `resume_waiter` dispatches each waiter to its scheduler, where a task
schedules it. `dispatch_on` drops a task that the inbox refuses, and tells nobody.

`Progress` relates a state of the loop of `set` to the one before the loop: which waiters were
passed on, and which of their tasks are in an inbox or have been processed. While the inboxes have
room, these are the same (`wakeUps_kept_iff`).
-/

namespace Novaio

open Transition

namespace Event

variable {ω τ σ : Type*}

/-- The scheduler on which a waiter was suspended. -/
def schedulerOf (e : Event ω τ σ) (i : ω) : Option σ := (e.awaiters (e.address i)).scheduler

variable [DecidableEq ω] [DecidableEq τ] [DecidableEq σ] {e e' : Event ω τ σ}
  {queued detached : List ω} {first : Option τ} {op : EventOp ω τ σ}

/-- No step writes to the awaiter of a suspended waiter. -/
theorem schedulerOf_step (h : Rep e queued detached first) (hstep : eventStep e op e') {i : ω}
    (hi : e.waiterPc i = .suspended) : e'.schedulerOf i = e.schedulerOf i := by
  have hawaits : (e.waiterPc i).Awaits := by
    rw [hi]
    trivial
  obtain ⟨hstep, hfresh⟩ := hstep
  unfold schedulerOf
  cases StepCase.of_step hstep with
  | awaitReady j a hj =>
    have hne : i ≠ j := by
      rintro rfl
      simp [hi] at hj
    -- A new awaiter is elsewhere.
    have haddr : (e.awaitReady j a).address i = e.address i := Function.update_of_ne hne _ _
    have hmem : (e.awaitReady j a).awaiters (e.address i) = e.awaiters (e.address i) :=
      Function.update_of_ne (hfresh i hawaits) _ _
    rw [haddr, hmem]
  | awaitSuspend j current hj =>
    have hne : e.address i ≠ e.address j := by
      intro heq
      obtain rfl := h.address_inj i j hawaits (by rw [hj]; trivial) heq
      simp [hi] at hj
    unfold awaitSuspend
    split_ifs
    · exact congrArg _ (Function.update_of_ne hne _ _)
    · exact congrArg _ (Function.update_of_ne hne _ _)
  | exchange s _ => rfl
  | detach s _ => rfl
  | resumeWaiter s waiters current _ =>
    obtain ⟨hawaiters, haddress, -⟩ := resumeStep_frame e s waiters current
    rw [hawaiters, haddress]

/-- A step passes one suspended waiter to `resume_waiter` or none, and every other one stays
suspended. -/
theorem resumptions_step (h : Rep e queued detached first) (hstep : eventStep e op e') :
    (e'.resumptions = e.resumptions ∧
      ∀ i, e.waiterPc i = .suspended → e'.waiterPc i = .suspended) ∨
    ∃ s current i, op = .resumeWaiter s current ∧ e.waiterPc i = .suspended ∧
      e'.resumptions = e.resumptions ++ resumeWaiter current (e.schedulerOf i) (some i) ∧
      e'.waiterPc i = .resumed ∧ ∀ j, j ≠ i → e'.waiterPc j = e.waiterPc j := by
  obtain ⟨hstep, hfresh⟩ := hstep
  cases StepCase.of_step hstep with
  | awaitReady j a hj =>
    refine .inl ⟨rfl, fun i hi => ?_⟩
    rw [← hi]
    apply waiterAt_of_ne
    rintro rfl
    simp [hi] at hj
  | awaitSuspend j current hj =>
    have hne : ∀ i, e.waiterPc i = .suspended → i ≠ j := by
      rintro i hi rfl
      simp [hi] at hj
    unfold awaitSuspend
    split_ifs
    · exact .inl ⟨rfl, fun i hi => (waiterAt_of_ne e _ (hne i hi)).trans hi⟩
    · exact .inl ⟨rfl, fun i hi => (waiterAt_of_ne e _ (hne i hi)).trans hi⟩
  | exchange s _ => exact .inl ⟨rfl, fun _ hi => hi⟩
  | detach s _ => exact .inl ⟨rfl, fun _ hi => hi⟩
  | resumeWaiter s waiters current hs =>
    cases waiters with
    | none => exact .inl ⟨rfl, fun _ hi => hi⟩
    | some a =>
      obtain ⟨i, rest, -, rfl, hi, -, -⟩ := h.detached_cons hs
      refine .inr ⟨s, current, i, rfl, hi, ?_⟩
      simp only [resumeStep, h.coroutine i hi]
      exact ⟨rfl, waiterAt_self _ _ _, fun j hj => waiterAt_of_ne _ _ hj⟩

omit [DecidableEq ω] [DecidableEq τ] [DecidableEq σ] in
/-- The event is set once a setter is about to detach the waiters. -/
theorem Rep.signaled (h : Rep e queued detached first) {s : τ} (hs : e.setterPc s = .detach) :
    e.signaled = true := by
  rw [h.signaled_iff, (h.won_iff s).mp (by rw [hs]; trivial)]
  simp

/-- The event stays set. -/
theorem signaled_step (hstep : eventStep e op e') (hset : e.signaled = true) :
    e'.signaled = true := by
  obtain ⟨hstep, -⟩ := hstep
  cases StepCase.of_step hstep with
  | awaitReady j a _ => exact hset
  | awaitSuspend j current _ =>
    rw [awaitSuspend, if_pos hset]
    exact hset
  | exchange s _ => rfl
  | detach s _ => exact hset
  | resumeWaiter s waiters current _ => exact (resumeStep_frame e s waiters current).2.2.trans hset

/-- Once the event is set, no waiter is suspended any more. -/
theorem suspended_step (h : Rep e queued detached first) (hset : e.signaled = true)
    (hstep : eventStep e op e') {i : ω} (hi : e'.waiterPc i = .suspended) :
    e.waiterPc i = .suspended := by
  rcases waiter_step h hstep i with heq | hmove
  · rw [← heq, hi]
  · rw [hi, hset] at hmove
    cases hpc : e.waiterPc i <;> simp [hpc, WaiterPc.Move] at hmove

/-- A waiter comes to be suspended by its own step, which sets its scheduler. -/
theorem newly_suspended (hstep : eventStep e op e') {i : ω} (hi : e.waiterPc i ≠ .suspended)
    (hi' : e'.waiterPc i = .suspended) :
    ∃ current, op = .awaitSuspend i current ∧ e'.schedulerOf i = current := by
  obtain ⟨hstep, -⟩ := hstep
  -- A waiter that goes elsewhere does not become suspended by it.
  have hself : ∀ {e₁ : Event ω τ σ} {j pc}, (e₁.waiterPc = e.waiterPc) → pc ≠ .suspended →
      (e₁.waiterAt j pc).waiterPc i ≠ .suspended := by
    intro e₁ j pc he hpc
    rcases eq_or_ne i j with rfl | hne
    · rwa [waiterAt_self]
    · rwa [waiterAt_of_ne _ _ hne, he]
  cases StepCase.of_step hstep with
  | awaitReady j a _ =>
    refine absurd hi' (hself rfl ?_)
    split_ifs <;> simp
  | awaitSuspend j current _ =>
    unfold awaitSuspend at hi' ⊢
    split_ifs at hi' ⊢ with hset
    · exact absurd hi' (hself rfl (by simp))
    · rcases eq_or_ne i j with rfl | hne
      · exact ⟨current, rfl, congrArg _ (Function.update_self _ _ _)⟩
      · exact absurd ((waiterAt_of_ne _ _ hne).symm.trans hi') hi
  | exchange s _ => exact absurd hi' hi
  | detach s _ => exact absurd hi' hi
  | resumeWaiter s waiters current _ =>
    unfold resumeStep at hi'
    split at hi'
    · exact absurd hi' hi
    · dsimp only at hi'
      split at hi'
      · exact absurd hi' (hself rfl (by simp))
      · exact absurd hi' hi

end Event

open Event

/-! ## The event and the runtime together -/

/-- The task that `resume_waiter` dispatches. -/
def wakeTask {ω κ : Type*} (coro : ω) : UniqueTask (Closure ω κ) := ⟨some (.schedule coro)⟩

/-- What a call of `resume_waiter` does to the runtime. -/
def Runtime.resume {ω κ : Type*} (rt : Runtime ω κ) : Resumption ω ℕ → Runtime ω κ
  | .schedule p coro =>
    { rt with
      schedulers := rt.schedulers.modify p fun s => { s with scheduled := s.scheduled ++ [coro] } }
  | .dispatchOn p coro =>
    match rt.idOf p with
    | some id => rt.dispatchOn id (wakeTask coro)
    | none => rt
  | .resume _ => rt

/-- An event and the runtime. -/
structure CrossCore (ω τ κ : Type*) where
  event : Event ω τ ℕ
  runtime : Runtime ω κ

/-- A step of the event, an iteration of `process_inbox` on a core, or a step of other threads. -/
inductive CrossCoreOp (ω τ κ : Type*) where
  | event (op : EventOp ω τ ℕ)
  | processNext (core : ℕ)
  | start (numCores : ℕ)
  | init (core fd : ℕ)
  | dispatchOn (core : ℕ) (task : UniqueTask (Closure ω κ))

/-- No other thread starts schedulers or dispatches. -/
def CrossCoreOp.Undisturbed {ω τ κ : Type*} : CrossCoreOp ω τ κ → Prop
  | event _ | processNext _ | init _ _ => True
  | start _ | dispatchOn _ _ => False

/-- A waiter is suspended by a scheduler of the runtime, which is not the one, if any, on whose
thread `set` runs. -/
def EventOp.Across {ω τ κ : Type*} (rt : Runtime ω κ) (current : Option ℕ) :
    EventOp ω τ ℕ → Prop
  | .awaitSuspend _ c => ∃ p, c = some p ∧ p < rt.schedulers.length ∧ some p ≠ current
  | .resumeWaiter _ c => c = current
  | .awaitReady _ _ | .exchange _ | .detach _ => True

/-- A step of the event and the runtime, where `set` runs on a thread with the scheduler
`current`. -/
def crossCoreStep {ω τ κ : Type*} [DecidableEq ω] [DecidableEq τ] (current : Option ℕ)
    (w : CrossCore ω τ κ) (op : CrossCoreOp ω τ κ) (w' : CrossCore ω τ κ) : Prop :=
  match op with
  | .event op =>
    op.Across w.runtime current ∧ eventStep w.event op w'.event ∧
      w'.runtime =
        (w'.event.resumptions.drop w.event.resumptions.length).foldl Runtime.resume w.runtime
  | .processNext core =>
    w'.event = w.event ∧ w.runtime.processNext core = some w'.runtime
  | .start numCores => w'.event = w.event ∧ w'.runtime = w.runtime.start numCores
  | .init core fd => w'.event = w.event ∧ w'.runtime = w.runtime.init core fd
  | .dispatchOn core task => w'.event = w.event ∧ w'.runtime = w.runtime.dispatchOn core task

namespace CrossCore

variable {ω τ κ : Type*}

/-- A new event and a new runtime. -/
def new (mem : ℕ → Awaiter ω ℕ) (address : ω → ℕ) : CrossCore ω τ κ :=
  ⟨Event.new mem address, Runtime.new⟩

/-- The waiter is suspended on the scheduler. -/
def SuspendedOn (w : CrossCore ω τ κ) (i : ω) (p : ℕ) : Prop :=
  w.event.waiterPc i = .suspended ∧ w.event.schedulerOf i = some p

/-- `dispatch_on` finds the schedulers of the suspended waiters under their ids. -/
def Home (w : CrossCore ω τ κ) : Prop := ∀ i p, w.SuspendedOn i p → w.runtime.idOf p = some p

/-- Every inbox has room for the tasks of all the waiters that are suspended on its scheduler. -/
def HasRoom (w : CrossCore ω τ κ) : Prop :=
  ∀ (p : ℕ) (waiting : List ω), waiting.Nodup → (∀ i ∈ waiting, w.SuspendedOn i p) →
    (w.runtime.inboxOf p).length + waiting.length ≤ 65536

/-- From `w` to `v`, the waiter was accepted into the inbox of the scheduler once, and it will have
been scheduled once when the scheduler has drained its inbox. -/
structure Woken [DecidableEq ω] (w v : CrossCore ω τ κ) (i : ω) (p : ℕ) : Prop where
  accepted : (v.runtime.due p).count i = (w.runtime.due p).count i + 1
  scheduled : ((v.runtime.processInbox p).scheduledOn p).count i = (w.runtime.due p).count i + 1

/-- What holds in every run: the memory holds the suspended waiters, each on a scheduler that is not
the setter's. -/
structure Sound (current : Option ℕ) (w : CrossCore ω τ κ) : Prop where
  rep : ∃ queued detached first, Rep w.event queued detached first
  inUse : w.runtime.InUse
  placed : ∀ i, w.event.waiterPc i = .suspended →
    ∃ p, w.event.schedulerOf i = some p ∧ p < w.runtime.schedulers.length ∧ some p ≠ current

/-- The core to which the task of a waiter is dispatched. -/
def coreOf (w : CrossCore ω τ κ) (i : ω) : Option ℕ :=
  (w.event.schedulerOf i).bind w.runtime.idOf

/-- From `w`, where the event is set, to `v`: the waiters `done` were passed to `resume_waiter`, and
of these the inbox of each core has accepted `accepted`. Since then, the core has processed
`popped`. -/
structure Progress [DecidableEq ω] (current : Option ℕ) (w v : CrossCore ω τ κ) (done : List ω)
    (accepted : ℕ → List ω) (popped : ℕ → List (UniqueTask (Closure ω κ))) : Prop where
  sound : v.Sound current
  signaled : v.event.signaled = true
  done_nodup : done.Nodup
  done_iff : ∀ i, i ∈ done ↔
    w.event.waiterPc i = .suspended ∧ v.event.waiterPc i ≠ .suspended
  still : ∀ i, v.event.waiterPc i = .suspended →
    w.event.waiterPc i = .suspended ∧ v.event.schedulerOf i = w.event.schedulerOf i
  idOf_eq : v.runtime.idOf = w.runtime.idOf
  sublist : ∀ q, (accepted q).Sublist (done.filter (w.coreOf · = some q))
  received : ∀ q, popped q ++ v.runtime.inboxOf q =
    w.runtime.inboxOf q ++ (accepted q).map wakeTask
  scheduled : ∀ q, v.runtime.scheduledOn q =
    w.runtime.scheduledOn q ++ (popped q).filterMap UniqueTask.coro
  all : w.Home → w.HasRoom → ∀ q, accepted q = done.filter (w.coreOf · = some q)

variable [DecidableEq ω] [DecidableEq τ] {current : Option ℕ} {w v v' : CrossCore ω τ κ}
  {op : CrossCoreOp ω τ κ}

omit [DecidableEq ω] [DecidableEq τ] in
/-- A suspended waiter that is passed to `resume_waiter` is dispatched to the core of its
scheduler. -/
theorem resume_dispatches (h : v.Sound current) {i : ω} (hi : v.event.waiterPc i = .suspended) :
    ∃ id, v.coreOf i = some id ∧
      (resumeWaiter current (v.event.schedulerOf i) (some i)).foldl Runtime.resume v.runtime =
        v.runtime.dispatchOn id (wakeTask i) := by
  obtain ⟨p, hp, hlt, hne⟩ := h.placed i hi
  obtain ⟨s, hs⟩ : ∃ s, v.runtime.schedulers[p]? = some s :=
    ⟨_, List.getElem?_eq_getElem hlt⟩
  have hid : v.runtime.idOf p = some s.id := by
    unfold Runtime.idOf
    rw [hs]
    rfl
  refine ⟨s.id, by rw [coreOf, hp, Option.bind_some, hid], ?_⟩
  rw [hp]
  simp only [resumeWaiter, if_neg hne.symm, List.foldl_cons, List.foldl_nil, Runtime.resume, hid]

/-- What a step of the event does to the runtime: nothing, or the dispatch of one waiter. -/
theorem event_step (h : v.Sound current) {op : EventOp ω τ ℕ}
    (hstep : crossCoreStep current v (.event op) v') :
    (v'.runtime = v.runtime ∧
      ∀ i, v.event.waiterPc i = .suspended → v'.event.waiterPc i = .suspended) ∨
    ∃ i id, v.event.waiterPc i = .suspended ∧ v.coreOf i = some id ∧
      v'.runtime = v.runtime.dispatchOn id (wakeTask i) ∧
      v'.event.waiterPc i = .resumed ∧
      ∀ j, j ≠ i → v'.event.waiterPc j = v.event.waiterPc j := by
  obtain ⟨queued, detached, first, hrep⟩ := h.rep
  obtain ⟨hacross, hevent, hruntime⟩ := hstep
  rcases resumptions_step hrep hevent with ⟨heq, hsus⟩ |
    ⟨s, c, i, rfl, hi, heq, hres, hother⟩
  · left
    rw [heq, List.drop_length] at hruntime
    exact ⟨hruntime, hsus⟩
  · right
    obtain rfl : c = current := hacross
    obtain ⟨id, hcore, hdispatch⟩ := resume_dispatches h hi
    rw [heq, List.drop_left, hdispatch] at hruntime
    exact ⟨i, id, hi, hcore, hruntime, hres, hother⟩

/-- A step of the event keeps every suspended waiter in its place. -/
theorem placed_event (h : v.Sound current) {op : EventOp ω τ ℕ}
    (hstep : crossCoreStep current v (.event op) v')
    (hlen : v'.runtime.schedulers.length = v.runtime.schedulers.length) {i : ω}
    (hi : v'.event.waiterPc i = .suspended) :
    ∃ p, v'.event.schedulerOf i = some p ∧ p < v'.runtime.schedulers.length ∧
      some p ≠ current := by
  obtain ⟨queued, detached, first, hrep⟩ := h.rep
  obtain ⟨hacross, hevent, -⟩ := hstep
  rw [hlen]
  by_cases hwas : v.event.waiterPc i = .suspended
  · rw [schedulerOf_step hrep hevent hwas]
    exact h.placed i hwas
  · -- The waiter is suspended by this step.
    obtain ⟨c, rfl, hc⟩ := newly_suspended hevent hwas hi
    obtain ⟨p, rfl, hlt, hne⟩ := hacross
    exact ⟨p, hc, hlt, hne⟩

/-- The step lemma: every step keeps what holds in every run. -/
theorem sound_step (h : v.Sound current) (hstep : crossCoreStep current v op v') :
    v'.Sound current := by
  -- As long as no scheduler goes away, what is suspended stays placed.
  have hplaced : v'.event = v.event →
      v.runtime.schedulers.length ≤ v'.runtime.schedulers.length →
      ∀ i, v'.event.waiterPc i = .suspended → ∃ p, v'.event.schedulerOf i = some p ∧
        p < v'.runtime.schedulers.length ∧ some p ≠ current := by
    intro he hle i hi
    rw [he] at hi ⊢
    obtain ⟨p, hp, hlt, hne⟩ := h.placed i hi
    exact ⟨p, hp, by omega, hne⟩
  cases op with
  | event op =>
    have hrep : ∃ queued detached first, Rep v'.event queued detached first := by
      obtain ⟨queued, detached, first, hrep⟩ := h.rep
      exact rep_step hrep hstep.2.1
    rcases event_step h hstep with ⟨hrt, -⟩ | ⟨i, id, -, -, hrt, -⟩
    · exact ⟨hrep, hrt ▸ h.inUse, fun j hj => placed_event h hstep (by rw [hrt]) hj⟩
    · obtain ⟨huse, hid, -, -⟩ := Runtime.dispatchOn_spec h.inUse id (wakeTask i)
      exact ⟨hrep, hrt ▸ huse, fun j hj =>
        placed_event h hstep (by rw [hrt]; exact Runtime.length_eq hid) hj⟩
  | processNext core =>
    obtain ⟨he, hrt⟩ := hstep
    obtain ⟨huse, hid, -⟩ := Runtime.processNext_spec h.inUse hrt
    exact ⟨he ▸ h.rep, huse, hplaced he (Runtime.length_eq hid).ge⟩
  | start numCores =>
    obtain ⟨he, hrt⟩ := hstep
    refine ⟨he ▸ h.rep, hrt ▸ Runtime.start_inUse h.inUse numCores, hplaced he ?_⟩
    rw [hrt]
    simp [Runtime.start]
  | init core fd =>
    obtain ⟨he, hrt⟩ := hstep
    obtain ⟨huse, hid, -⟩ := Runtime.init_spec h.inUse core fd
    exact ⟨he ▸ h.rep, hrt ▸ huse, hplaced he (by rw [hrt, Runtime.length_eq hid])⟩
  | dispatchOn core task =>
    obtain ⟨he, hrt⟩ := hstep
    obtain ⟨huse, hid, -⟩ := Runtime.dispatchOn_spec h.inUse core task
    exact ⟨he ▸ h.rep, hrt ▸ huse, hplaced he (by rw [hrt, Runtime.length_eq hid])⟩

omit [DecidableEq ω] [DecidableEq τ] in
/-- The start is sound. -/
theorem new_sound (current : Option ℕ) (mem : ℕ → Awaiter ω ℕ) (address : ω → ℕ) :
    (new mem address : CrossCore ω τ κ).Sound current :=
  ⟨⟨_, _, _, new_rep mem address⟩, Runtime.new_inUse, fun i hi => by simp [new, Event.new] at hi⟩

/-- The run lemma. -/
theorem run_sound {mem : ℕ → Awaiter ω ℕ} {address : ω → ℕ}
    {l : List (CrossCoreOp ω τ κ × CrossCore ω τ κ)}
    (hl : Path (crossCoreStep current) (new mem address) l) :
    (last (new mem address) l).Sound current :=
  (hl.invariant (I := fun w => w.Sound current) (fun _ _ _ => sound_step)
    (new_sound current mem address)).2

/-! ## The loop of `set` -/

section

variable {done : List ω} {accepted : ℕ → List ω}
  {popped : ℕ → List (UniqueTask (Closure ω κ))}

omit [DecidableEq τ] in
/-- Before the loop no waiter was passed on. -/
theorem Sound.progress (h : w.Sound current) (hset : w.event.signaled = true) :
    Progress current w w [] (fun _ => []) fun _ => [] := by
  refine ⟨h, hset, .nil, ?_, fun i hi => ⟨hi, rfl⟩, rfl, fun _ => .refl _, ?_, ?_, fun _ _ _ => rfl⟩
  · intro i
    simp
  · intro q
    simp
  · intro q
    simp

/-- A core processes a task. -/
theorem Progress.processNext (h : Progress current w v done accepted popped) {core : ℕ}
    (hstep : crossCoreStep current v (.processNext core) v') :
    ∃ popped', Progress current w v' done accepted popped' := by
  have hsound := sound_step h.sound hstep
  obtain ⟨he, hrt⟩ := hstep
  obtain ⟨-, hid, hother, task, hinbox, hsched⟩ := Runtime.processNext_spec h.sound.inUse hrt
  refine ⟨Function.update popped core (popped core ++ [task]), hsound, he ▸ h.signaled,
    h.done_nodup, he ▸ h.done_iff, he ▸ h.still, hid.trans h.idOf_eq, h.sublist, ?_, ?_, h.all⟩
  · intro q
    rw [← h.received q]
    rcases eq_or_ne q core with rfl | hq
    · rw [Function.update_self, hinbox, List.append_assoc]
      rfl
    · rw [Function.update_of_ne hq, (hother q hq).1]
  · intro q
    rcases eq_or_ne q core with rfl | hq
    · rw [Function.update_self, hsched, h.scheduled, List.append_assoc, List.filterMap_append]
      congr 2
    · rw [Function.update_of_ne hq, (hother q hq).2, h.scheduled]

omit [DecidableEq τ] in
/-- A step after which the same waiters are suspended, and the inboxes and what is scheduled are the
same. -/
theorem Progress.frame (h : Progress current w v done accepted popped) (hsound : v'.Sound current)
    (hset : v'.event.signaled = true)
    (hsus : ∀ i, v'.event.waiterPc i = .suspended ↔ v.event.waiterPc i = .suspended)
    (hon : ∀ i, v.event.waiterPc i = .suspended → v'.event.schedulerOf i = v.event.schedulerOf i)
    (hid : v'.runtime.idOf = v.runtime.idOf) (hinbox : v'.runtime.inboxOf = v.runtime.inboxOf)
    (hsched : v'.runtime.scheduledOn = v.runtime.scheduledOn) :
    Progress current w v' done accepted popped := by
  refine ⟨hsound, hset, h.done_nodup, ?_, ?_, hid.trans h.idOf_eq, h.sublist, ?_, ?_, h.all⟩
  · intro i
    rw [h.done_iff, Ne, Ne, hsus]
  · intro i hi
    have hi' := (hsus i).mp hi
    exact ⟨(h.still i hi').1, (hon i hi').trans (h.still i hi').2⟩
  · rw [hinbox]
    exact h.received
  · rw [hsched]
    exact h.scheduled

omit [DecidableEq τ] in
/-- While there is room, every inbox holds fewer tasks than it can when the next waiter of its
scheduler is passed on. -/
theorem Progress.room (h : Progress current w v done accepted popped) (hhome : w.Home)
    (hroom : w.HasRoom) {i : ω} {p : ℕ} (hi : v.event.waiterPc i = .suspended)
    (hcore : w.coreOf i = some p) : (v.runtime.inboxOf p).length < 65536 := by
  have hnot : i ∉ done := fun hd => ((h.done_iff i).mp hd).2 hi
  have hon : ∀ j, w.event.waiterPc j = .suspended → w.coreOf j = some p → w.SuspendedOn j p := by
    intro j hj hc
    obtain ⟨q, hq, hid⟩ := Option.bind_eq_some_iff.mp hc
    obtain rfl : q = p := Option.some.inj ((hhome j q ⟨hj, hq⟩).symm.trans hid)
    exact ⟨hj, hq⟩
  have hbound := hroom p ((done ++ [i]).filter (w.coreOf · = some p))
    ((List.nodup_append.mpr ⟨h.done_nodup, List.nodup_singleton i, by
      rintro j hj k hk rfl
      rw [List.mem_singleton.mp hk] at hj
      exact hnot hj⟩).filter _) (by
    intro j hj
    obtain ⟨hj, hc⟩ := List.mem_filter.mp hj
    refine hon j ?_ (of_decide_eq_true hc)
    rcases List.mem_append.mp hj with hj | hj
    · exact ((h.done_iff j).mp hj).1
    · rw [List.mem_singleton.mp hj]
      exact (h.still i hi).1)
  have hlen := congrArg List.length (h.received p)
  rw [List.length_append, List.length_append, List.length_map, h.all hhome hroom p] at hlen
  have hone : [i].filter (w.coreOf · = some p) = [i] := by simp [hcore]
  rw [List.filter_append, List.length_append, hone, List.length_singleton] at hbound
  omega

omit [DecidableEq τ] in
/-- A waiter is dispatched. -/
theorem Progress.dispatch (h : Progress current w v done accepted popped)
    (hsound : v'.Sound current) (hset : v'.event.signaled = true) {i : ω} {id : ℕ}
    (hi : v.event.waiterPc i = .suspended) (hcore : v.coreOf i = some id)
    (hrt : v'.runtime = v.runtime.dispatchOn id (wakeTask i))
    (hi' : v'.event.waiterPc i = .resumed)
    (hother : ∀ j, j ≠ i → v'.event.waiterPc j = v.event.waiterPc j)
    (hon : ∀ j, v.event.waiterPc j = .suspended →
      v'.event.schedulerOf j = v.event.schedulerOf j) :
    ∃ accepted', Progress current w v' (done ++ [i]) accepted' popped := by
  obtain ⟨-, hid, hsched, hinbox⟩ := Runtime.dispatchOn_spec h.sound.inUse id (wakeTask i)
  rw [← hrt] at hid hsched hinbox
  have hcore' : w.coreOf i = some id := by
    rw [← hcore, coreOf, coreOf, (h.still i hi).2, h.idOf_eq]
  have hnot : i ∉ done := fun hd => ((h.done_iff i).mp hd).2 hi
  -- The lists of the waiters passed on, by core.
  have hfilter : ∀ q, (done ++ [i]).filter (w.coreOf · = some q) =
      done.filter (w.coreOf · = some q) ++ if q = id then [i] else [] := by
    intro q
    rw [List.filter_append]
    congr 1
    rcases eq_or_ne q id with rfl | hq
    · simp [hcore']
    · simp [hcore', hq, Ne.symm hq]
  refine ⟨fun q => if q = id ∧ id < v.runtime.schedulers.length ∧
    (v.runtime.inboxOf id).length < 65536 then accepted q ++ [i] else accepted q, hsound, hset,
    ?_, ?_, ?_, hid.trans h.idOf_eq, ?_, ?_, ?_, ?_⟩
  · refine List.nodup_append.mpr ⟨h.done_nodup, List.nodup_singleton i, ?_⟩
    rintro j hj k hk rfl
    rw [List.mem_singleton.mp hk] at hj
    exact hnot hj
  · intro j
    rw [List.mem_append, List.mem_singleton, h.done_iff]
    rcases eq_or_ne j i with rfl | hj
    · simp [hi', (h.still j hi).1]
    · simp [hother j hj, hj]
  · intro j hj
    have hne : j ≠ i := by
      rintro rfl
      simp [hi'] at hj
    rw [hother j hne] at hj
    exact ⟨(h.still j hj).1, (hon j hj).trans (h.still j hj).2⟩
  · intro q
    rw [hfilter]
    split_ifs with hc hq hq
    · exact (h.sublist q).append (.refl _)
    · exact absurd hc.1 hq
    · exact (h.sublist q).trans (List.sublist_append_left _ _)
    · rw [List.append_nil]
      exact h.sublist q
  · intro q
    rw [hinbox q]
    split_ifs with hc
    · rw [← List.append_assoc, h.received, List.map_append, List.append_assoc]
      rfl
    · exact h.received q
  · rw [hsched]
    exact h.scheduled
  · intro hhome hroom q
    rw [hfilter, ← h.all hhome hroom q]
    have hlen := h.room hhome hroom hi hcore'
    have hlt : id < v.runtime.schedulers.length := by
      obtain ⟨p, hp, hidp⟩ := Option.bind_eq_some_iff.mp hcore'
      obtain rfl := Option.some.inj ((hhome i p ⟨(h.still i hi).1, hp⟩).symm.trans hidp)
      rw [← h.idOf_eq] at hidp
      by_contra hge
      rw [(v.runtime.idOf_eq_none_iff p).mpr (by omega)] at hidp
      simp at hidp
    rcases eq_or_ne q id with rfl | hq
    · rw [if_pos ⟨rfl, hlt, hlen⟩, if_pos rfl]
    · rw [if_neg (fun hc => hq hc.1), if_neg hq, List.append_nil]

/-- The step lemma of the loop: a step of the event. -/
theorem Progress.event (h : Progress current w v done accepted popped) {op : EventOp ω τ ℕ}
    (hstep : crossCoreStep current v (.event op) v') :
    ∃ done' accepted', Progress current w v' done' accepted' popped := by
  have hsound := sound_step h.sound hstep
  obtain ⟨queued, detached, first, hrep⟩ := h.sound.rep
  have hset : v'.event.signaled = true := signaled_step hstep.2.1 h.signaled
  have hon : ∀ j, v.event.waiterPc j = .suspended →
      v'.event.schedulerOf j = v.event.schedulerOf j :=
    fun j hj => schedulerOf_step hrep hstep.2.1 hj
  rcases event_step h.sound hstep with ⟨hrt, hsus⟩ | ⟨i, id, hi, hcore, hrt, hi', hother⟩
  · refine ⟨done, accepted, h.frame hsound hset (fun i => ⟨?_, hsus i⟩) hon ?_ ?_ ?_⟩
    · exact suspended_step hrep h.signaled hstep.2.1
    all_goals rw [hrt]
  · obtain ⟨accepted', h'⟩ := h.dispatch hsound hset hi hcore hrt hi' hother hon
    exact ⟨_, accepted', h'⟩

/-- The step lemma of the loop. -/
theorem Progress.step (h : Progress current w v done accepted popped) (hop : op.Undisturbed)
    (hstep : crossCoreStep current v op v') :
    ∃ done' accepted' popped', Progress current w v' done' accepted' popped' := by
  cases op with
  | event op =>
    obtain ⟨done', accepted', h'⟩ := h.event hstep
    exact ⟨done', accepted', popped, h'⟩
  | processNext core =>
    obtain ⟨popped', h'⟩ := h.processNext hstep
    exact ⟨done, accepted, popped', h'⟩
  | init core fd =>
    have hsound := sound_step h.sound hstep
    obtain ⟨he, hrt⟩ := hstep
    obtain ⟨-, hid, hinbox, hsched⟩ := Runtime.init_spec h.sound.inUse core fd
    refine ⟨done, accepted, popped, h.frame hsound (he ▸ h.signaled) (fun i => ?_) (fun i _ => ?_)
      (hrt ▸ hid) (hrt ▸ hinbox) (hrt ▸ hsched)⟩
    all_goals rw [he]
  | start numCores => exact hop.elim
  | dispatchOn core task => exact hop.elim

omit [DecidableEq τ] in
/-- What is due on a core: what was due before the loop, and the waiters accepted there. -/
theorem Progress.due_eq (h : Progress current w v done accepted popped) (p : ℕ) :
    v.runtime.due p = w.runtime.due p ++ accepted p := by
  -- Each task that was accepted schedules its waiter.
  have hwake : ((accepted p).map wakeTask).filterMap
      (UniqueTask.coro (κ := κ)) = accepted p := by
    rw [List.filterMap_map]
    exact List.filterMap_some
  calc v.runtime.due p
      = w.runtime.scheduledOn p
        ++ (popped p ++ v.runtime.inboxOf p).filterMap UniqueTask.coro := by
        rw [Runtime.due, h.scheduled, List.append_assoc, List.filterMap_append]
    _ = w.runtime.scheduledOn p
        ++ (w.runtime.inboxOf p ++ (accepted p).map wakeTask).filterMap UniqueTask.coro := by
        rw [h.received]
    _ = w.runtime.due p ++ accepted p := by
        rw [List.filterMap_append, hwake, Runtime.due, List.append_assoc]

omit [DecidableEq τ] in
/-- A waiter is woken if and only if its core has accepted it. -/
theorem Progress.woken_iff (h : Progress current w v done accepted popped) (i : ω) (p : ℕ) :
    Woken w v i p ↔ i ∈ accepted p := by
  have hnodup : (accepted p).Nodup := (h.done_nodup.filter _).sublist (h.sublist p)
  have hdrain := Runtime.processInbox_scheduledOn h.sound.inUse p
  have hcount : (v.runtime.due p).count i = (w.runtime.due p).count i + 1 ↔ i ∈ accepted p := by
    rw [h.due_eq, List.count_append, ← List.count_pos_iff]
    have := List.nodup_iff_count_le_one.mp hnodup i
    omega
  rw [← hcount]
  exact ⟨fun hw => hw.accepted, fun hc => ⟨hc, hdrain ▸ hc⟩⟩

omit [DecidableEq τ] in
/-- At the end of the loop, every waiter was passed on. -/
theorem Progress.done_of_returned {s : τ} (h : Progress current w v done accepted popped)
    (hs : v.event.setterPc s = .returned) {i : ω} (hi : w.event.waiterPc i = .suspended) :
    i ∈ done := by
  obtain ⟨queued, detached, first, hrep⟩ := h.sound.rep
  refine (h.done_iff i).mpr ⟨hi, fun hv => ?_⟩
  have hphase := hrep.phase s ((hrep.won_iff s).mp (by rw [hs]; trivial))
  rw [hs] at hphase
  obtain ⟨rfl, rfl⟩ := hphase
  have := (hrep.mem_iff i).mpr hv
  simp at this

/-- The loop of `set` run by itself, while no core processes its inbox. -/
theorem Progress.undrained {l : List (EventOp ω τ ℕ × Event ω τ ℕ)}
    (h : Progress current w v done accepted popped) (hl : Path eventStep v.event l)
    (hacross : ∀ x ∈ l, x.1.Across v.runtime current)
    (hsetter : ∀ x ∈ l, ∀ i c, x.1 ≠ .awaitSuspend i c) :
    ∃ (m : List (CrossCoreOp ω τ κ × CrossCore ω τ κ)) (done' : List ω) (accepted' : ℕ → List ω),
      Path (crossCoreStep current) v m ∧ (∀ x ∈ m, x.1.Undisturbed) ∧
      (last v m).event = last v.event l ∧
      Progress current w (last v m) done' accepted' popped := by
  induction l generalizing v done accepted with
  | nil => exact ⟨[], done, accepted, trivial, by simp, rfl, h⟩
  | cons x l ih =>
    obtain ⟨op, e⟩ := x
    obtain ⟨hhead, htail⟩ := List.forall_mem_cons.mp hacross
    obtain ⟨hop, hops⟩ := List.forall_mem_cons.mp hsetter
    -- Each call of `resume_waiter` dispatches, and nothing drains an inbox in between.
    set v' : CrossCore ω τ κ := ⟨e, (e.resumptions.drop v.event.resumptions.length).foldl
      Runtime.resume v.runtime⟩ with hv'
    have hstep : crossCoreStep current v (.event op) v' := ⟨hhead, hl.1, rfl⟩
    obtain ⟨done', accepted', h'⟩ := h.event hstep
    have htail' : ∀ y ∈ l, y.1.Across v'.runtime current := by
      intro y hy
      have hy' := htail y hy
      have hne := hops y hy
      cases hop : y.1 with
      | awaitSuspend i c => exact absurd hop (hne i c)
      | resumeWaiter s c =>
        rw [hop] at hy'
        exact hy'
      | awaitReady | exchange | detach => trivial
    obtain ⟨m, done'', accepted'', hm, hquiet, hlast, hend⟩ := ih h' hl.2 htail' hops
    exact ⟨(.event op, v') :: m, done'', accepted'', ⟨hstep, hm⟩,
      List.forall_mem_cons.mpr ⟨trivial, hquiet⟩, hlast, hend⟩

/-- The setter can go through its loop by itself, while no core processes its inbox. -/
theorem Sound.undrained {s : τ} (h : w.Sound current) (hs : w.event.setterPc s = .detach) :
    ∃ (m : List (CrossCoreOp ω τ κ × CrossCore ω τ κ)) (done : List ω) (accepted : ℕ → List ω),
      Path (crossCoreStep current) w m ∧ (∀ x ∈ m, x.1.Undisturbed) ∧
      (last w m).event.setterPc s = .returned ∧
      Progress current w (last w m) done accepted fun _ => [] := by
  obtain ⟨queued, detached, first, hrep⟩ := h.rep
  have hdetach : eventStep w.event (.detach s) (w.event.detach s) := ⟨if_pos hs, trivial⟩
  obtain ⟨l, hl, hops, hend⟩ := resume_returns current (rep_detach hrep hs) (setterAt_self _ _ _)
  obtain ⟨m, done, accepted, hm, hquiet, hlast, hprog⟩ :=
    (h.progress (hrep.signaled hs)).undrained (l := (.detach s, w.event.detach s) :: l)
      ⟨hdetach, hl⟩
      (List.forall_mem_cons.mpr ⟨trivial, fun x hx => by rw [hops x hx]; rfl⟩)
      (List.forall_mem_cons.mpr ⟨by simp, fun x hx => by rw [hops x hx]; simp⟩)
  exact ⟨m, done, accepted, hm, hquiet, by rw [hlast]; exact hend, hprog⟩

omit [DecidableEq τ] in
/-- Where no inbox was processed, each has had room for the waiters woken. -/
theorem Progress.length_le (h : Progress current w v done accepted fun _ => []) {p : ℕ}
    {waiting : List ω} (hnodup : waiting.Nodup) (hwoken : ∀ i ∈ waiting, Woken w v i p) :
    (w.runtime.inboxOf p).length + waiting.length ≤ 65536 := by
  have hle : waiting.length ≤ (accepted p).length :=
    (List.Nodup.subperm hnodup fun i hi => (h.woken_iff i p).mp (hwoken i hi)).length_le
  have hlen := congrArg List.length (h.received p)
  have hcap := h.sound.inUse.length_inboxOf p
  rw [List.nil_append, List.length_append, List.length_map] at hlen
  omega

end

end CrossCore

open CrossCore

/-- In every state that a run of the event, the runtime and other threads reaches and in which a
setter is about to detach the waiters: every waiter is woken on its scheduler in every run to the
return of `set` in which no other thread dispatches, whenever the schedulers process their inboxes,
if and only if `dispatch_on` finds the scheduler of every waiter under its id, and every inbox has
room for the tasks of all the waiters suspended on its scheduler. -/
theorem wakeUps_kept_iff {ω τ κ : Type*} [DecidableEq ω] [DecidableEq τ] (current : Option ℕ)
    (mem : ℕ → Awaiter ω ℕ) (address : ω → ℕ)
    (pre : List (CrossCoreOp ω τ κ × CrossCore ω τ κ))
    (hpre : Path (crossCoreStep current) (CrossCore.new mem address) pre) (s : τ)
    (hs : (last (CrossCore.new mem address) pre).event.setterPc s = .detach) :
    let w := last (CrossCore.new mem address) pre
    (∀ l : List (CrossCoreOp ω τ κ × CrossCore ω τ κ), Path (crossCoreStep current) w l →
      (∀ x ∈ l, x.1.Undisturbed) → (last w l).event.setterPc s = .returned →
      ∀ i p, w.SuspendedOn i p → Woken w (last w l) i p) ↔ w.Home ∧ w.HasRoom := by
  intro w
  have hsound : w.Sound current := run_sound hpre
  constructor
  · -- There is a run in which the setter returns before any inbox is drained.
    intro hall
    obtain ⟨m, done, accepted, hm, hquiet, hret, hprog⟩ := hsound.undrained hs
    have hwoken := hall m hm hquiet hret
    refine ⟨fun i p hi => ?_, fun p waiting hnodup hon => ?_⟩
    · have hmem := (hprog.sublist p).subset ((hprog.woken_iff i p).mp (hwoken i p hi))
      have hcore := of_decide_eq_true (List.mem_filter.mp hmem).2
      rwa [coreOf, hi.2, Option.bind_some] at hcore
    · exact hprog.length_le hnodup fun i hi => hwoken i p (hon i hi)
  · -- With room for all, every coroutine that the setter resumes is accepted.
    rintro ⟨hhome, hroom⟩ l hl hquiet hret i p hi
    obtain ⟨queued, detached, first, hrep⟩ := hsound.rep
    obtain ⟨done, accepted, popped, hprog⟩ := (hl.invariant_of_meets
      (C := fun _ op => op.Undisturbed)
      (I := fun v => ∃ done accepted popped, Progress current w v done accepted popped)
      (fun _ _ _ ⟨_, _, _, h⟩ hop hstep => h.step hop hstep)
      ⟨_, _, _, hsound.progress (hrep.signaled hs)⟩ (meets_of_forall hquiet)).2
    rw [hprog.woken_iff, hprog.all hhome hroom]
    refine List.mem_filter.mpr ⟨hprog.done_of_returned hret hi.1, decide_eq_true ?_⟩
    rw [coreOf, hi.2, Option.bind_some, hhome i p hi]

/-- `n` waiters suspended on the only scheduler, and a setter about to detach them. -/
structure Crowd (n : ℕ) (w : CrossCore ℕ Unit Empty) : Prop where
  suspended : ∀ i < n, w.SuspendedOn i 0
  idle : ∀ i, n ≤ i → w.event.waiterPc i = .idle
  address_eq : ∀ i, w.event.address i = i
  runtime_eq : w.runtime = Runtime.new.start 1

/-- In a crowd of one, the waiter 0 is the one suspended. -/
theorem Crowd.eq_zero {w : CrossCore ℕ Unit Empty} (h : Crowd 1 w) {i p : ℕ}
    (hi : w.SuspendedOn i p) : i = 0 ∧ p = 0 := by
  obtain rfl : i = 0 := by
    by_contra hne
    have hidle := h.idle i (by omega)
    rw [hi.1] at hidle
    simp at hidle
  exact ⟨rfl, Option.some.inj (hi.2.symm.trans (h.suspended 0 (by decide)).2)⟩

/-- Any number of waiters can be suspended on a scheduler. -/
theorem exists_crowd (n : ℕ) :
    ∃ pre, Path (crossCoreStep none) (CrossCore.new (fun _ => {}) id) pre ∧
      Crowd n (last (CrossCore.new (fun _ => {}) id) pre) ∧
      (last (CrossCore.new (fun _ => {}) id) pre).event.signaled = false ∧
      (last (CrossCore.new (fun _ => {}) id) pre).event.setterPc () = .idle := by
  induction n with
  | zero =>
    refine ⟨[(.start 1, ⟨Event.new (fun _ => {}) id, Runtime.new.start 1⟩)], ⟨⟨rfl, rfl⟩, trivial⟩,
      ⟨by simp, fun _ _ => rfl, fun _ => rfl, rfl⟩, rfl, rfl⟩
  | succ n ih =>
    obtain ⟨pre, hpre, hcrowd, hset, hsetter⟩ := ih
    set w := last (CrossCore.new (fun _ => {}) id) pre with hw
    -- One more waiter is suspended, on the only scheduler.
    set e₁ := w.event.awaitReady n n with he₁
    set e₂ := e₁.awaitSuspend n (some 0) with he₂
    have h1 : crossCoreStep none w (.event (.awaitReady n n)) ⟨e₁, w.runtime⟩ := by
      refine ⟨trivial, ⟨if_pos (hcrowd.idle n le_rfl), fun i hi => ?_⟩, ?_⟩
      · rw [hcrowd.address_eq]
        rintro rfl
        rw [hcrowd.idle i le_rfl] at hi
        exact hi
      · simp [he₁, Event.awaitReady, Event.setAwaiter, Event.waiterAt]
    have hpc₁ : e₁.waiterPc n = .suspending := by
      simp [he₁, Event.awaitReady, Event.setAwaiter, Event.waiterAt, hset]
    have haddr₁ : e₁.address = w.event.address := by
      funext i
      rcases eq_or_ne i n with rfl | hi
      · exact (Function.update_self _ _ _).trans (hcrowd.address_eq i).symm
      · exact Function.update_of_ne hi _ _
    have h2 : crossCoreStep none ⟨e₁, w.runtime⟩ (.event (.awaitSuspend n (some 0)))
        ⟨e₂, w.runtime⟩ := by
      refine ⟨⟨0, rfl, ?_, by simp⟩, ⟨if_pos hpc₁, trivial⟩, ?_⟩
      · rw [hcrowd.runtime_eq]
        decide
      · have hset₁ : e₁.signaled = false := hset
        simp [he₂, Event.awaitSuspend, Event.setAwaiter, Event.waiterAt, hset₁]
    have heq : e₂ = _ := if_neg (by rw [show e₁.signaled = false from hset]; simp)
    have haddr₂ : e₂.address = w.event.address := by
      rw [heq]
      exact haddr₁
    have hn : e₁.address n = n := by rw [haddr₁, hcrowd.address_eq]
    -- The others stay where they are.
    have hpc₂ : ∀ i, i ≠ n → e₂.waiterPc i = w.event.waiterPc i := by
      intro i hi
      rw [heq]
      exact (waiterAt_of_ne _ _ hi).trans (waiterAt_of_ne _ _ hi)
    have hmem₂ : ∀ a, a ≠ n → e₂.awaiters a = w.event.awaiters a := by
      intro a ha
      rw [heq]
      exact (Function.update_of_ne (by rwa [hn]) _ _).trans (Function.update_of_ne ha _ _)
    refine ⟨pre ++ [(_, _), (_, _)], path_append.mpr ⟨hpre, h1, h2, trivial⟩, ?_, ?_, ?_⟩
    all_goals rw [last_append]
    · refine ⟨fun i hi => ?_, fun i hi => ?_, fun i => ?_, hcrowd.runtime_eq⟩
      · rcases eq_or_ne i n with rfl | hne
        · refine ⟨?_, ?_⟩
          · show e₂.waiterPc i = .suspended
            rw [heq]
            exact waiterAt_self _ _ _
          · show (e₂.awaiters (e₂.address i)).scheduler = some 0
            rw [haddr₂, ← haddr₁, heq]
            exact congrArg _ (Function.update_self _ _ _)
        · obtain ⟨hsus, hsched⟩ := hcrowd.suspended i (by omega)
          refine ⟨(hpc₂ i hne).trans hsus, ?_⟩
          show (e₂.awaiters (e₂.address i)).scheduler = some 0
          rw [haddr₂, hmem₂ _ (by rwa [hcrowd.address_eq])]
          exact hsched
      · exact (hpc₂ i (by omega)).trans (hcrowd.idle i (by omega))
      · exact (congrFun haddr₂ i).trans (hcrowd.address_eq i)
    · rw [last, last, last, heq]
      exact hset
    · rw [last, last, last, heq]
      exact hsetter

/-- Any number of waiters can be suspended on a scheduler when a setter comes to detach them. -/
theorem exists_crowd_detach (n : ℕ) :
    ∃ pre, Path (crossCoreStep none) (CrossCore.new (fun _ => {}) id) pre ∧
      Crowd n (last (CrossCore.new (fun _ => {}) id) pre) ∧
      (last (CrossCore.new (fun _ => {}) id) pre).event.setterPc () = .detach := by
  obtain ⟨pre, hpre, hcrowd, hset, hsetter⟩ := exists_crowd n
  set w := last (CrossCore.new (fun _ => {}) id) pre with hw
  have hstep : crossCoreStep none w (.event (.exchange ())) ⟨w.event.exchange (), w.runtime⟩ := by
    refine ⟨trivial, ⟨if_pos hsetter, trivial⟩, ?_⟩
    simp [Event.exchange, Event.setterAt]
  refine ⟨pre ++ [(_, _)], path_append.mpr ⟨hpre, hstep, trivial⟩, ?_, ?_⟩
  all_goals rw [last_append]
  · exact ⟨hcrowd.suspended, hcrowd.idle, hcrowd.address_eq, hcrowd.runtime_eq⟩
  · show (w.event.exchange ()).setterPc () = .detach
    simp [Event.exchange, Event.setterAt, hset]

/-- One waiter is woken, in every run to the return of `set`. -/
theorem wakeUps_kept_one :
    ∃ pre, Path (crossCoreStep none) (CrossCore.new (fun _ => {}) id) pre ∧
      let w : CrossCore ℕ Unit Empty := last (CrossCore.new (fun _ => {}) id) pre
      w.SuspendedOn 0 0 ∧ ∀ l, Path (crossCoreStep none) w l → (∀ x ∈ l, x.1.Undisturbed) →
        (last w l).event.setterPc () = .returned → Woken w (last w l) 0 0 := by
  obtain ⟨pre, hpre, hcrowd, hs⟩ := exists_crowd_detach 1
  refine ⟨pre, hpre, hcrowd.suspended 0 (by decide), fun l hl hquiet hret => ?_⟩
  refine (wakeUps_kept_iff none _ _ pre hpre () hs).mpr ⟨?_, ?_⟩ l hl hquiet hret 0 0
    (hcrowd.suspended 0 (by decide))
  all_goals
    have hzero : ∀ i p, SuspendedOn _ i p → i = 0 ∧ p = 0 := fun i p hi => hcrowd.eq_zero hi
  · rintro i p hi
    obtain ⟨rfl, rfl⟩ := hzero i p hi
    rw [hcrowd.runtime_eq]
    rfl
  · intro p waiting hnodup hon
    have hle : waiting.length ≤ [0].length :=
      (List.Nodup.subperm hnodup fun i hi => by simp [(hzero i p (hon i hi)).1]).length_le
    rw [List.length_singleton] at hle
    have hempty : (last (CrossCore.new (fun _ => {}) id) pre).runtime.inboxOf p = [] := by
      rw [hcrowd.runtime_eq]
      exact Runtime.inboxOf_start 1 p
    rw [hempty, List.length_nil]
    omega

/-- More waiters than the inbox of their scheduler has room for: while the scheduler does not
process its inbox, one of them at least is never woken. -/
theorem wakeUps_dropped :
    ∃ pre, Path (crossCoreStep none) (CrossCore.new (fun _ => {}) id) pre ∧
      let w : CrossCore ℕ Unit Empty := last (CrossCore.new (fun _ => {}) id) pre
      Crowd 65537 w ∧ ∃ l, Path (crossCoreStep none) w l ∧ (∀ x ∈ l, x.1.Undisturbed) ∧
        (last w l).event.setterPc () = .returned ∧
        ¬ ∀ i p, w.SuspendedOn i p → Woken w (last w l) i p := by
  generalize hn : 65537 = n
  obtain ⟨pre, hpre, hcrowd, hs⟩ := exists_crowd_detach n
  obtain ⟨l, done, accepted, hl, hquiet, hret, hprog⟩ := (run_sound hpre).undrained hs
  refine ⟨pre, hpre, hcrowd, l, hl, hquiet, hret, fun hall => ?_⟩
  have hle := hprog.length_le (p := 0) (List.nodup_range (n := n)) fun i hi =>
    hall i 0 (hcrowd.suspended i (List.mem_range.mp hi))
  rw [List.length_range] at hle
  omega

end Novaio
