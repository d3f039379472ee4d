import Novaio.CoMutex.Fairness
import Novaio.RunQueue

/-!
# The owner of the mutex

`unlock` gives the lock to a waiter and then arranges that the waiter is resumed: it schedules the
waiter's handle, if it runs on the waiter's scheduler, and sends a `TAG_CORO` message to that
scheduler otherwise. Here the mutex is put together with what is arranged: the run queue and the
batch of each scheduler (`Scheduler::run`), and the messages that are prepared or in flight.

A waiter that was suspended on a thread without a scheduler has none, and nothing is arranged for
it. `live_owner_iff` says that this is the only way in which the mutex loses its owner, as long as
no full run queue overwrites the owner's handle.
-/

namespace Novaio

open CoMutex Transition

/-- The unlocking coroutine is in `unlock`. -/
def LockPc.Unlocks : LockPc → Prop
  | .exchange | .compareExchangeStrong | .exchangeAgain | .reverse _ _ | .select => True
  | .idle | .compareExchange _ | .suspended | .selected | .holding => False

/-- The mutex, the run queue of each scheduler, the handles that its `run` has taken from it and not
resumed yet, and the `TAG_CORO` messages that no scheduler has received. -/
structure LockSystem (κ σ : Type*) where
  mutex : CoMutex κ σ
  queue : σ → RunQueue κ
  batch : σ → List κ
  messages : List (σ × Option κ)

/-- A step of a coroutine that uses the mutex, or of a scheduler: it receives a `TAG_CORO` message,
schedules a coroutine that was suspended in something else, takes a batch from its run queue, or
resumes the next coroutine of the batch. -/
inductive LockSystemOp (κ σ : Type*) where
  | lock (op : LockOp κ σ)
  | poll (scheduler : σ) (payload : Option κ)
  | schedule (scheduler : σ) (handle : κ)
  | tryDequeueBatch (scheduler : σ)
  | resume (scheduler : σ)

namespace LockSystem

variable {κ σ : Type*}

/-- A new mutex, with schedulers that have nothing to do. -/
def new (mem : ℕ → Awaiter κ σ) (address : κ → ℕ) (buffer : ℕ → Option κ) : LockSystem κ σ where
  mutex := .new mem address
  queue _ := .new buffer
  batch _ := []
  messages := []

/-- A coroutine is due: it is in the run queue of a scheduler, in the batch, or in a message. -/
def Due (s : LockSystem κ σ) (scheduler : σ) (k : κ) : Prop :=
  some k ∈ (s.queue scheduler).contents ∨ k ∈ s.batch scheduler ∨
    (scheduler, some k) ∈ s.messages

/-- The scheduler in the awaiter of a coroutine. -/
def schedulerOf (s : LockSystem κ σ) (k : κ) : Option σ :=
  (s.mutex.awaiters (s.mutex.address k)).scheduler

/-- If the mutex is locked and nobody is in `unlock`, a coroutine owns the lock and goes on with it:
it is outside of `lock`, or it is due on its scheduler. -/
def HasLiveOwner (s : LockSystem κ σ) : Prop :=
  s.mutex.state ≠ unlocked → (∀ k, ¬ (s.mutex.pc k).Unlocks) →
    ∃ k, (s.mutex.pc k).Holds ∧ (s.mutex.pc k = .holding ∨
      ∃ scheduler, s.schedulerOf k = some scheduler ∧ s.Due scheduler k)

variable [DecidableEq σ]

/-- `Scheduler::schedule`. -/
def scheduleOn (s : LockSystem κ σ) (scheduler : σ) (handle : Option κ) : LockSystem κ σ :=
  { s with queue := Function.update s.queue scheduler ((s.queue scheduler).schedule handle) }

/-- What `unlock` does to have a waiter resumed. -/
def handOver (s : LockSystem κ σ) : Handover κ σ → LockSystem κ σ
  | .schedule scheduler handle => s.scheduleOn scheduler handle
  | .notifyTargetRing scheduler handle =>
    { s with messages := s.messages ++ [(scheduler, handle)] }

/-- The mutex takes a step, with the handovers that the step adds. -/
def withMutex (s : LockSystem κ σ) (m : CoMutex κ σ) : LockSystem κ σ :=
  (m.handovers.drop s.mutex.handovers.length).foldl handOver { s with mutex := m }

variable [DecidableEq κ]

/-- What a step does, where it is possible. A waiter is resumed by its scheduler alone, and a
coroutine that is in `lock` is not scheduled by anything else. -/
def step (s : LockSystem κ σ) : LockSystemOp κ σ → Option (LockSystem κ σ)
  | .lock (.resume _) => none
  | .lock op => (s.mutex.step op).map s.withMutex
  | .poll scheduler payload =>
    if (scheduler, payload) ∈ s.messages then
      some { s.scheduleOn scheduler payload with
        messages := s.messages.erase (scheduler, payload) }
    else none
  | .schedule scheduler handle =>
    match s.mutex.pc handle with
    | .compareExchange _ | .suspended | .selected => none
    | _ => some (s.scheduleOn scheduler (some handle))
  | .tryDequeueBatch scheduler =>
    if s.batch scheduler = [] then
      let (batch, queue) := (s.queue scheduler).tryDequeueBatch 16
      some { s with
        queue := Function.update s.queue scheduler queue
        batch := Function.update s.batch scheduler batch }
    else none
  | .resume scheduler =>
    match s.batch scheduler with
    | [] => none
    | k :: batch =>
      let s := { s with batch := Function.update s.batch scheduler batch }
      if s.mutex.pc k = .selected then some { s with mutex := s.mutex.goto k .holding } else some s

end LockSystem

/-- A step of the system. A new awaiter is at an address that is aligned for its pointers and that
no other awaiter has. -/
def lockSystemStep {κ σ : Type*} [DecidableEq κ] [DecidableEq σ] (s : LockSystem κ σ)
    (op : LockSystemOp κ σ) (t : LockSystem κ σ) : Prop :=
  s.step op = some t ∧
    match op with
    | .lock (.load _ a _) => a ≠ 0 ∧ a % 8 = 0 ∧
        ∀ k, (s.mutex.pc k).Awaits → s.mutex.address k ≠ a
    | _ => True

/-- The condition on a step that the waiter which `unlock` selects has a scheduler. -/
def SelectsScheduled {κ σ : Type*} (s : LockSystem κ σ) : LockSystemOp κ σ → Prop
  | .lock (.select _ _) => ∀ a, s.mutex.waitersHead = some a → (s.mutex.awaiters a).scheduler.isSome
  | _ => True

/-- The condition on a step that no full run queue overwrites the handle of the coroutine to which
the lock was given. -/
def KeepsOwner {κ σ : Type*} (s : LockSystem κ σ) : LockSystemOp κ σ → Prop
  | .lock (.select _ current) => ∀ a k scheduler, s.mutex.waitersHead = some a →
      (s.mutex.awaiters a).awaitingCoroutine = some k →
      (s.mutex.awaiters a).scheduler = some scheduler → current = some scheduler →
      (s.queue scheduler).Keeps k k
  | .poll scheduler (some h) | .schedule scheduler h =>
    ∀ k, s.mutex.pc k = .selected → (s.queue scheduler).Keeps h k
  | _ => True

namespace CoMutex

variable {κ σ : Type*} [DecidableEq κ] {m m' : CoMutex κ σ}

/-- A step hands nothing over: it adds no handover and selects no waiter, and it leaves the
scheduler of a selected one. -/
structure Quiet (m m' : CoMutex κ σ) : Prop where
  handovers : m'.handovers = m.handovers
  selected : ∀ k, m'.pc k = .selected → m.pc k = .selected ∧
    (m'.awaiters (m'.address k)).scheduler = (m.awaiters (m.address k)).scheduler

omit [DecidableEq κ] in
/-- Two quiet changes. -/
theorem Quiet.trans {m'' : CoMutex κ σ} (h : Quiet m m') (h' : Quiet m' m'') : Quiet m m'' := by
  refine ⟨h'.handovers.trans h.handovers, fun k hk => ?_⟩
  obtain ⟨hk', hscheduler⟩ := h'.selected k hk
  obtain ⟨hk, hscheduler'⟩ := h.selected k hk'
  exact ⟨hk, hscheduler.trans hscheduler'⟩

/-- A coroutine goes to a place where it is not selected. -/
theorem quiet_goto {k : κ} {pc : LockPc} (hpc : pc ≠ .selected)
    (hgoto : m'.pc = (m.goto k pc).pc) (hhandovers : m'.handovers = m.handovers)
    (hmemory : m'.awaiters = m.awaiters ∧ m'.address = m.address) : Quiet m m' := by
  refine ⟨hhandovers, fun k' hk' => ?_⟩
  rw [hgoto] at hk'
  rw [hmemory.1, hmemory.2]
  rcases eq_or_ne k' k with rfl | hne
  · rw [goto_pc_self] at hk'
    exact (hpc hk').elim
  · rw [goto_pc_of_ne m pc hne] at hk'
    exact ⟨hk', rfl⟩

omit [DecidableEq κ] in
/-- A write to the link of an awaiter. -/
theorem quiet_setNext (m : CoMutex κ σ) (a : ℕ) (p : Option ℕ) :
    Quiet m (m.setAwaiter a ({ · with next := p })) := by
  refine ⟨rfl, fun k hk => ⟨hk, ?_⟩⟩
  have hmem : (m.setAwaiter a ({ · with next := p })).awaiters (m.address k) =
      if m.address k = a then { m.awaiters a with next := p } else m.awaiters (m.address k) :=
    setAwaiter_awaiters m a (m.address k) _
  show ((m.setAwaiter a ({ · with next := p })).awaiters (m.address k)).scheduler = _
  rw [hmem]
  split_ifs with ha
  · rw [ha]
  · rfl

/-- A call of `lock` writes an awaiter that is not in use. -/
theorem quiet_load {k : κ} {a : ℕ} {current : Option σ}
    (hfresh : ∀ k', (m.pc k').Awaits → m.address k' ≠ a) : Quiet m (m.load k a current) := by
  refine ⟨rfl, fun k' hk' => ?_⟩
  rcases eq_or_ne k' k with rfl | hne
  · have hpc : (m.load k' a current).pc k' = .compareExchange m.state := goto_pc_self _ _ _
    rw [hpc] at hk'
    simp at hk'
  · have hpc : (m.load k a current).pc k' = m.pc k' := goto_pc_of_ne _ _ hne
    have haddress : (m.load k a current).address k' = m.address k' := Function.update_of_ne hne _ _
    rw [hpc] at hk'
    have hawaiter : (m.load k a current).awaiters (m.address k') = m.awaiters (m.address k') :=
      Function.update_of_ne (hfresh k' (by rw [hk']; trivial)) _ _
    rw [haddress, hawaiter]
    exact ⟨hk', rfl⟩

/-- An iteration of the loop of `await_suspend`. -/
theorem quiet_compareExchangeWeak (k : κ) (oldState : ℕ) (spurious : Bool) :
    Quiet m (m.compareExchangeWeak k oldState spurious) := by
  unfold compareExchangeWeak
  by_cases hold : oldState = unlocked
  · rw [if_pos hold]
    split_ifs <;> exact quiet_goto (by simp) rfl rfl ⟨rfl, rfl⟩
  · rw [if_neg hold]
    generalize toAwaiter (if oldState = lockedNoWaiters then 0 else oldState) = next
    refine (quiet_setNext m (m.address k) next).trans ?_
    dsimp only
    split_ifs <;> exact quiet_goto (by simp) rfl rfl ⟨rfl, rfl⟩

/-- Only the end of `unlock` hands over. -/
theorem quiet_step [DecidableEq σ] {op : LockOp κ σ} (hstep : lockStep m op m')
    (hop : ∀ k current, op ≠ .select k current) : Quiet m m' := by
  obtain ⟨hstep, hfresh⟩ := hstep
  cases StepCase.of_step hstep with
  | load k a current _ => exact quiet_load hfresh.2.2
  | compareExchangeWeak k oldState spurious _ => exact quiet_compareExchangeWeak k oldState spurious
  | resume k _ _ => exact quiet_goto (by simp) rfl rfl ⟨rfl, rfl⟩
  | unlock k _ =>
    unfold unlock
    split_ifs <;> exact quiet_goto (by simp) rfl rfl ⟨rfl, rfl⟩
  | exchange k _ =>
    unfold exchange
    dsimp only
    split_ifs <;> exact quiet_goto (by simp) rfl rfl ⟨rfl, rfl⟩
  | compareExchangeStrong k _ =>
    unfold compareExchangeStrong
    split_ifs <;> exact quiet_goto (by simp) rfl rfl ⟨rfl, rfl⟩
  | exchangeAgain k _ => exact quiet_goto (by simp) rfl rfl ⟨rfl, rfl⟩
  | reverse k current prev _ =>
    unfold reverse
    split
    · exact (quiet_setNext m _ _).trans (quiet_goto (by simp) rfl rfl ⟨rfl, rfl⟩)
    · exact quiet_goto (by simp) rfl rfl ⟨rfl, rfl⟩
  | select k current _ => exact (hop k current rfl).elim

/-- What the end of `unlock` selects: the first waiter of `waiters_head_`, and no other one. -/
theorem select_spec [DecidableEq σ] {w : Waiting κ} {holder : Option κ} {k : κ}
    (h : Rep m w holder) (hk : m.pc k = .select) (current : Option σ) :
    ∃ k₀, m.waitersHead = some (m.address k₀) ∧
      (m.awaiters (m.address k₀)).awaitingCoroutine = some k₀ ∧
      (∀ k', (m.select k current).pc k' = .selected ↔ k' = k₀) ∧
      (m.select k current).handovers =
        m.handovers ++ handover current (m.awaiters (m.address k₀)) ∧
      (m.select k current).awaiters = m.awaiters ∧ (m.select k current).address = m.address := by
  have hphase := h.phase k (h.holder_eq (by rw [hk]; trivial))
  rw [hk] at hphase
  obtain ⟨k₀, fifo, hcons⟩ := List.exists_cons_of_ne_nil hphase.1
  have hhead : m.waitersHead = some (m.address k₀) := by
    rw [h.fifo.head, hcons]
    rfl
  have hsuspended : m.pc k₀ = .suspended := h.suspended (by simp [hcons])
  have hcoroutine := (h.address k₀ (by rw [hsuspended]; trivial)).2
  -- The waiter taken is the head of `waiters_head_`.
  have hselect : m.select k current =
      { (m.goto k .idle).goto k₀ .selected with
        granted := m.granted ++ [k₀]
        waitersHead := m.next (m.address k₀)
        handovers := m.handovers ++ handover current (m.awaiters (m.address k₀)) } := by
    simp only [select, hhead, hcoroutine]
    rfl
  have hself : (m.select k current).pc k₀ = .selected := by
    rw [hselect]
    exact goto_pc_self _ _ _
  -- It holds the lock from now on, which only one coroutine does.
  obtain ⟨k₁, _, -, -, -, -, h'⟩ := rep_select h hk current
  refine ⟨k₀, hhead, hcoroutine, fun k' => ⟨fun hk' => ?_, fun hk' => hk' ▸ hself⟩, ?_, ?_, ?_⟩
  · have hholder := h'.holder_eq (k := k₀) (by rw [hself]; trivial)
    have hholder' := h'.holder_eq (k := k') (by rw [hk']; trivial)
    exact Option.some.inj (hholder'.symm.trans hholder)
  · rw [hselect]
  · rw [hselect]
    rfl
  · rw [hselect]
    rfl

end CoMutex

namespace LockSystem

variable {κ σ : Type*} {s t : LockSystem κ σ} {w : Waiting κ} {holder : Option κ}

/-- What every system in use has: waiters that the memory holds, run queues that are well formed,
and no null handle in a message. -/
structure InUse (s : LockSystem κ σ) (w : Waiting κ) (holder : Option κ) : Prop where
  rep : Rep s.mutex w holder
  wellFormed : ∀ scheduler, (s.queue scheduler).localQueue.WellFormed
  messages : ∀ x ∈ s.messages, x.2.isSome

/-- A selected waiter is due on its scheduler. -/
def Arranged (s : LockSystem κ σ) : Prop :=
  ∀ k, s.mutex.pc k = .selected →
    ∃ scheduler, s.schedulerOf k = some scheduler ∧ s.Due scheduler k

/-- The mutex has a live owner if and only if a selected waiter is due. -/
theorem hasLiveOwner_iff [DecidableEq κ] (h : Rep s.mutex w holder) :
    s.HasLiveOwner ↔ s.Arranged := by
  constructor
  · intro hlive k hk
    obtain rfl := h.holder_eq (k := k) (by rw [hk]; trivial)
    -- While a waiter is selected, nobody is in `unlock`.
    have hnone : ∀ k', ¬ (s.mutex.pc k').Unlocks := by
      intro k' hk'
      have hholds : (s.mutex.pc k').Holds := by
        revert hk'
        cases s.mutex.pc k' <;> simp [LockPc.Unlocks, LockPc.Holds]
      obtain rfl := Option.some.inj (h.holder_eq hholds)
      rw [hk] at hk'
      exact hk'
    obtain ⟨k', hholds, hgoes⟩ := hlive h.state_ne hnone
    obtain rfl := Option.some.inj (h.holder_eq hholds)
    exact hgoes.resolve_left (by simp [hk])
  · intro harranged hlocked hnone
    obtain ⟨k, rfl⟩ := Option.ne_none_iff_exists'.mp fun hno => hlocked (h.state_iff.mpr hno)
    have hholds := (h.holds_iff k).mpr rfl
    refine ⟨k, hholds, ?_⟩
    have hunlocks := hnone k
    -- The holder has been selected, or is in the critical section or in `unlock`.
    cases hk : s.mutex.pc k with
    | holding => exact .inl rfl
    | selected => exact .inr (harranged k hk)
    | idle | compareExchange | suspended =>
      rw [hk] at hholds
      exact hholds.elim
    | exchange | compareExchangeStrong | exchangeAgain | reverse | select =>
      rw [hk] at hunlocks
      exact (hunlocks trivial).elim

section Steps

variable [DecidableEq σ]

/-- Scheduling a handle keeps the run queues well formed. -/
theorem scheduleOn_wellFormed
    (hw : ∀ scheduler, (s.queue scheduler).localQueue.WellFormed) (scheduler : σ) (h : κ) :
    ∀ scheduler', ((s.scheduleOn scheduler (some h)).queue scheduler').localQueue.WellFormed := by
  intro scheduler'
  rcases eq_or_ne scheduler' scheduler with rfl | hne
  · simp only [scheduleOn, Function.update_self]
    exact RunQueue.schedule_wellFormed (hw scheduler') h
  · simp only [scheduleOn, Function.update_of_ne hne]
    exact hw scheduler'

/-- A handle that is kept is in a run queue after a handle is scheduled, if it was or if it is the
one scheduled. -/
theorem mem_contents_scheduleOn (hw : ∀ scheduler, (s.queue scheduler).localQueue.WellFormed)
    {scheduler : σ} (scheduler' : σ) {h k : κ} (hkeep : (s.queue scheduler).Keeps h k)
    (hmem : scheduler = scheduler' ∧ h = k ∨ some k ∈ (s.queue scheduler').contents) :
    some k ∈ ((s.scheduleOn scheduler (some h)).queue scheduler').contents := by
  rcases eq_or_ne scheduler' scheduler with rfl | hne
  · simp only [scheduleOn, Function.update_self]
    exact hkeep.mem_contents (hw scheduler') (hmem.imp_left And.right)
  · simp only [scheduleOn, Function.update_of_ne hne]
    exact hmem.resolve_left fun hk => hne hk.1.symm

/-- A step of the mutex that hands nothing over. -/
theorem withMutex_of_quiet {m : CoMutex κ σ} (hm : Quiet s.mutex m) :
    s.withMutex m = { s with mutex := m } := by
  rw [withMutex, hm.handovers, List.drop_length]
  rfl

/-- A step that hands over, with what it hands over. -/
theorem withMutex_of_append {m : CoMutex κ σ} {l : List (Handover κ σ)}
    (hm : m.handovers = s.mutex.handovers ++ l) :
    s.withMutex m = l.foldl handOver { s with mutex := m } := by
  rw [withMutex, hm, List.drop_left]

variable [DecidableEq κ]

/-- A step of the mutex, in the system. -/
theorem lockStep_of_lock {op : LockOp κ σ} (hstep : lockSystemStep s (.lock op) t) :
    ∃ m, lockStep s.mutex op m ∧ t = s.withMutex m := by
  obtain ⟨hstep, hfresh⟩ := hstep
  cases op with
  | resume k => simp [step] at hstep
  | _ =>
    obtain ⟨m, hm, rfl⟩ := Option.map_eq_some_iff.mp hstep
    exact ⟨m, ⟨hm, hfresh⟩, rfl⟩

/-- What the end of `unlock` does in the system: the waiter that came first is selected, alone, and
it is scheduled, sent to its scheduler, or neither if it has none. -/
theorem select_cases (h : Rep s.mutex w holder) {k : κ} {current : Option σ}
    (hstep : lockSystemStep s (.lock (.select k current)) t) :
    ∃ a k₀ m, s.mutex.waitersHead = some a ∧ (s.mutex.awaiters a).awaitingCoroutine = some k₀ ∧
      lockStep s.mutex (.select k current) m ∧ t.mutex = m ∧
      (∀ k', m.pc k' = .selected ↔ k' = k₀) ∧
      t.schedulerOf k₀ = (s.mutex.awaiters a).scheduler ∧
      (((s.mutex.awaiters a).scheduler = none ∧ t = { s with mutex := m }) ∨
        ∃ scheduler, (s.mutex.awaiters a).scheduler = some scheduler ∧
          ((current = some scheduler ∧
              t = LockSystem.scheduleOn { s with mutex := m } scheduler (some k₀)) ∨
            t = { s with mutex := m, messages := s.messages ++ [(scheduler, some k₀)] })) := by
  obtain ⟨m, hm, rfl⟩ := lockStep_of_lock hstep
  obtain ⟨hk, hselect⟩ := Option.ite_none_right_eq_some.mp hm.1
  obtain rfl := Option.some.inj hselect
  obtain ⟨k₀, hhead, hcoroutine, hselected, hhandovers, hawaiters, haddress⟩ :=
    select_spec h hk current
  -- What is handed over leaves the mutex as it is.
  have hmutex : ∀ l : List (Handover κ σ), ∀ s' : LockSystem κ σ,
      (l.foldl handOver s').mutex = s'.mutex := by
    intro l
    induction l with
    | nil => exact fun _ => rfl
    | cons x l ih =>
      intro s'
      rw [List.foldl_cons, ih]
      cases x <;> rfl
  have ht := withMutex_of_append hhandovers
  have htm : (s.withMutex (s.mutex.select k current)).mutex = s.mutex.select k current := by
    rw [ht, hmutex]
  refine ⟨_, k₀, _, hhead, hcoroutine, hm, htm, hselected, ?_, ?_⟩
  · rw [schedulerOf, htm, hawaiters, haddress]
  · rw [ht]
    cases hscheduler : (s.mutex.awaiters (s.mutex.address k₀)).scheduler with
    | none => exact .inl ⟨rfl, by simp [handover, hscheduler]⟩
    | some scheduler =>
      refine .inr ⟨scheduler, rfl, ?_⟩
      by_cases hcurrent : current = some scheduler
      · exact .inl ⟨hcurrent, by simp [handover, hscheduler, hcurrent, hcoroutine, handOver]⟩
      · exact .inr (by simp [handover, hscheduler, hcurrent, hcoroutine, handOver])

/-- The step lemma: a system stays in use. -/
theorem inUse_step {op : LockSystemOp κ σ} (h : InUse s w holder) (hstep : lockSystemStep s op t) :
    ∃ w' holder', InUse t w' holder' := by
  have hstep' := hstep.1
  cases op with
  | lock op =>
    obtain ⟨m, hm, ht⟩ := lockStep_of_lock hstep
    obtain ⟨w', holder', hrep⟩ := rep_step h.rep hm
    -- Only the end of `unlock` hands over.
    by_cases hop : ∃ k current, op = .select k current
    · obtain ⟨k, current, rfl⟩ := hop
      obtain ⟨a, k₀, m', -, -, hm', -, -, -, hcases⟩ := select_cases h.rep hstep
      obtain rfl := Option.some.inj (hm.1.symm.trans hm'.1)
      refine ⟨w', holder', ?_⟩
      rcases hcases with ⟨-, rfl⟩ | ⟨scheduler, -, ⟨-, rfl⟩ | rfl⟩
      · exact ⟨hrep, h.wellFormed, h.messages⟩
      · exact ⟨hrep, scheduleOn_wellFormed (s := { s with mutex := m }) h.wellFormed _ _,
          h.messages⟩
      · refine ⟨hrep, h.wellFormed, fun x hx => ?_⟩
        rcases List.mem_append.mp hx with hx | hx
        · exact h.messages x hx
        · rw [List.mem_singleton.mp hx]
          rfl
    · have hquiet := quiet_step hm fun k current heq => hop ⟨k, current, heq⟩
      rw [withMutex_of_quiet hquiet] at ht
      subst ht
      exact ⟨w', holder', hrep, h.wellFormed, h.messages⟩
  | poll scheduler payload =>
    simp only [step, Option.ite_none_right_eq_some, Option.some.injEq] at hstep'
    obtain ⟨hmem, rfl⟩ := hstep'
    obtain ⟨k, hk⟩ := Option.isSome_iff_exists.mp (h.messages _ hmem)
    obtain rfl : payload = some k := hk
    exact ⟨w, holder, h.rep, scheduleOn_wellFormed h.wellFormed _ _,
      fun x hx => h.messages x (List.mem_of_mem_erase hx)⟩
  | schedule scheduler handle =>
    have ht : t = s.scheduleOn scheduler (some handle) := by
      simp only [step] at hstep'
      split at hstep' <;> simp_all
    subst ht
    exact ⟨w, holder, h.rep, scheduleOn_wellFormed h.wellFormed _ _, h.messages⟩
  | tryDequeueBatch scheduler =>
    simp only [step, Option.ite_none_right_eq_some, Option.some.injEq] at hstep'
    obtain ⟨-, rfl⟩ := hstep'
    obtain ⟨-, hw, -⟩ :=
      RunQueue.tryDequeueBatch_spec 16 (by decide) (h.wellFormed scheduler)
    refine ⟨w, holder, h.rep, fun scheduler' => ?_, h.messages⟩
    rcases eq_or_ne scheduler' scheduler with rfl | hne
    · simp only [Function.update_self]
      exact hw
    · simp only [Function.update_of_ne hne]
      exact h.wellFormed scheduler'
  | resume scheduler =>
    simp only [step] at hstep'
    split at hstep'
    · simp at hstep'
    · split_ifs at hstep' with hk
      · obtain rfl := Option.some.inj hstep'
        exact ⟨w, holder, rep_resume h.rep hk, h.wellFormed, h.messages⟩
      · obtain rfl := Option.some.inj hstep'
        exact ⟨w, holder, h.rep, h.wellFormed, h.messages⟩

/-- A step of the mutex: only the end of `unlock` selects a waiter, which is due if and only if it
has a scheduler. -/
theorem arranged_lock_iff {op : LockOp κ σ} (h : InUse s w holder) (harranged : s.Arranged)
    (hkeeps : KeepsOwner s (.lock op)) (hstep : lockSystemStep s (.lock op) t) :
    t.Arranged ↔ SelectsScheduled s (.lock op) := by
  by_cases hop : ∃ k current, op = .select k current
  · obtain ⟨k, current, rfl⟩ := hop
    obtain ⟨a, k₀, m, hhead, hcoroutine, -, rfl, hselected, hscheduler, hcases⟩ :=
      select_cases h.rep hstep
    have hiff : t.Arranged ↔ ∃ scheduler, t.schedulerOf k₀ = some scheduler ∧
        t.Due scheduler k₀ := by
      unfold Arranged
      simp only [hselected, forall_eq]
    rw [hiff, hscheduler]
    -- Without a scheduler nothing is arranged for the waiter.
    rcases hcases with ⟨hnone, -⟩ | ⟨scheduler, hsome, ht⟩
    · simp [SelectsScheduled, hhead, hnone]
    · refine iff_of_true ⟨scheduler, hsome, ?_⟩ (by simp [SelectsScheduled, hhead, hsome])
      rcases ht with ⟨hcurrent, ht⟩ | ht
      · rw [ht]
        exact .inl (mem_contents_scheduleOn (s := { s with mutex := t.mutex }) h.wellFormed _
          (hkeeps a k₀ scheduler hhead hcoroutine hsome hcurrent) (.inl ⟨rfl, rfl⟩))
      · rw [ht]
        exact .inr (.inr (by simp))
  · obtain ⟨m, hm, ht⟩ := lockStep_of_lock hstep
    have hquiet := quiet_step hm fun k current heq => hop ⟨k, current, heq⟩
    rw [withMutex_of_quiet hquiet] at ht
    subst ht
    refine iff_of_true (fun k hk => ?_) ?_
    · obtain ⟨hk, hscheduler⟩ := hquiet.selected k hk
      obtain ⟨scheduler, hs, hdue⟩ := harranged k hk
      exact ⟨scheduler, hscheduler.trans hs, hdue⟩
    · cases op with
      | select k current => exact (hop ⟨k, current, rfl⟩).elim
      | _ => trivial

/-- The coroutine that is resumed is not selected any more, and the others are due as before. -/
theorem Arranged.resume {scheduler : σ} (harranged : s.Arranged)
    (hstep : s.step (.resume scheduler) = some t) : t.Arranged := by
  simp only [step] at hstep
  split at hstep
  · simp at hstep
  · rename_i k₀ batch hbatch
    intro k hk
    -- The coroutine that is resumed is not selected any more, and the others wait as before.
    have hrest : k ≠ k₀ ∧ s.mutex.pc k = .selected ∧ t.schedulerOf k = s.schedulerOf k ∧
        t.queue = s.queue ∧ t.batch = Function.update s.batch scheduler batch ∧
        t.messages = s.messages := by
      split_ifs at hstep with hk₀
      · obtain rfl := Option.some.inj hstep
        have hne : k ≠ k₀ := by
          rintro rfl
          simp [goto_pc_self] at hk
        exact ⟨hne, (goto_pc_of_ne _ _ hne).symm.trans hk, rfl, rfl, rfl, rfl⟩
      · obtain rfl := Option.some.inj hstep
        have hne : k ≠ k₀ := by
          rintro rfl
          exact hk₀ hk
        exact ⟨hne, hk, rfl, rfl, rfl, rfl⟩
    obtain ⟨hne, hk, hscheduler, hqueue, hbatch', hmessages⟩ := hrest
    obtain ⟨scheduler', hs, hdue⟩ := harranged k hk
    refine ⟨scheduler', hscheduler.trans hs, ?_⟩
    unfold Due at hdue ⊢
    rw [hqueue, hbatch', hmessages]
    refine hdue.imp_right (.imp_left fun hmem => ?_)
    rcases eq_or_ne scheduler' scheduler with rfl | hother
    · rw [hbatch] at hmem
      rw [Function.update_self]
      exact (List.mem_cons.mp hmem).resolve_left hne
    · rwa [Function.update_of_ne hother]

/-- The step lemma: the selected waiter stays due if and only if a waiter that is selected now has a
scheduler. -/
theorem arranged_step_iff {op : LockSystemOp κ σ} (h : InUse s w holder) (harranged : s.Arranged)
    (hkeeps : KeepsOwner s op) (hstep : lockSystemStep s op t) :
    t.Arranged ↔ SelectsScheduled s op := by
  have hstep' := hstep.1
  cases op with
  | lock op => exact arranged_lock_iff h harranged hkeeps hstep
  | poll scheduler payload =>
    simp only [step, Option.ite_none_right_eq_some, Option.some.injEq] at hstep'
    obtain ⟨hmem, rfl⟩ := hstep'
    obtain ⟨h₀, hpayload⟩ := Option.isSome_iff_exists.mp (h.messages _ hmem)
    obtain rfl : payload = some h₀ := hpayload
    refine iff_of_true (fun k hk => ?_) trivial
    obtain ⟨scheduler', hs, hdue⟩ := harranged k hk
    refine ⟨scheduler', hs, ?_⟩
    have hmem := mem_contents_scheduleOn h.wellFormed scheduler' (hkeeps k hk)
    -- A message that is handled puts its coroutine into the queue.
    rcases hdue with hqueue | hbatch | hmessage
    · exact .inl (hmem (.inr hqueue))
    · exact .inr (.inl hbatch)
    · by_cases heq : (scheduler', some k) = (scheduler, some h₀)
      · simp only [Prod.mk.injEq, Option.some.injEq] at heq
        exact .inl (hmem (.inl ⟨heq.1.symm, heq.2.symm⟩))
      · exact .inr (.inr ((List.mem_erase_of_ne heq).mpr hmessage))
  | schedule scheduler handle =>
    have ht : t = s.scheduleOn scheduler (some handle) := by
      simp only [step] at hstep'
      split at hstep' <;> simp_all
    subst ht
    refine iff_of_true (fun k hk => ?_) trivial
    obtain ⟨scheduler', hs, hdue⟩ := harranged k hk
    exact ⟨scheduler', hs, hdue.imp_left fun hqueue =>
      mem_contents_scheduleOn h.wellFormed _ (hkeeps k hk) (.inr hqueue)⟩
  | tryDequeueBatch scheduler =>
    simp only [step, Option.ite_none_right_eq_some, Option.some.injEq] at hstep'
    obtain ⟨hbatch, rfl⟩ := hstep'
    obtain ⟨hcontents, -, -⟩ :=
      RunQueue.tryDequeueBatch_spec 16 (by decide) (h.wellFormed scheduler)
    refine iff_of_true (fun k hk => ?_) trivial
    obtain ⟨scheduler', hs, hdue⟩ := harranged k hk
    refine ⟨scheduler', hs, ?_⟩
    -- The batch that is taken is the front of the queue.
    rcases eq_or_ne scheduler' scheduler with rfl | hne
    · simp only [Due, hcontents, hbatch, List.not_mem_nil, false_or, List.mem_append] at hdue
      simp only [Due, Function.update_self]
      simpa [or_assoc, or_comm, or_left_comm] using hdue
    · simpa only [Due, Function.update_of_ne hne] using hdue
  | resume scheduler => exact iff_of_true (harranged.resume hstep') trivial

end Steps

/-- A new system is in use. -/
theorem new_inUse (mem : ℕ → Awaiter κ σ) (address : κ → ℕ) (buffer : ℕ → Option κ) :
    InUse (new mem address buffer) ⟨[], [], [], []⟩ none :=
  ⟨new_rep mem address, fun _ => (RunQueue.new_wellFormed buffer).1, by simp [new]⟩

end LockSystem

open LockSystem

/-- In a run in which no full run queue overwrites the owner's handle, the mutex always has a live
owner if and only if every waiter that `unlock` selects has a scheduler. -/
theorem live_owner_iff {κ σ : Type*} [DecidableEq κ] [DecidableEq σ] (mem : ℕ → Awaiter κ σ)
    (address : κ → ℕ) (buffer : ℕ → Option κ) (l : List (LockSystemOp κ σ × LockSystem κ σ))
    (hl : Path lockSystemStep (.new mem address buffer) l)
    (hkeeps : Meets KeepsOwner (.new mem address buffer) l) :
    (∀ x ∈ l, x.2.HasLiveOwner) ↔ Meets SelectsScheduled (.new mem address buffer) l := by
  refine Path.always_iff_meets (I := fun s => ∃ w holder, InUse s w holder) ?_ ?_
    ⟨_, _, new_inUse mem address buffer⟩ ?_ (hl.and_meets hkeeps)
  · rintro s op t ⟨w, holder, h⟩ ⟨hstep, -⟩
    exact inUse_step h hstep
  · rintro s op t ⟨w, holder, h⟩ hlive ⟨hstep, hkeeps⟩
    obtain ⟨w', holder', h'⟩ := inUse_step h hstep
    rw [hasLiveOwner_iff h'.rep]
    exact arranged_step_iff h ((hasLiveOwner_iff h.rep).mp hlive) hkeeps hstep
  · rw [hasLiveOwner_iff (new_rep mem address)]
    intro k hk
    simp [LockSystem.new, CoMutex.new] at hk

/-- A coroutine of one scheduler waits, and one of another scheduler unlocks. -/
theorem live_owner_two :
    ∃ l : List (LockSystemOp Bool Bool × LockSystem Bool Bool),
      l.map Prod.fst = [.lock (.load true 8 (some true)), .lock (.compareExchangeWeak true false),
        .lock (.load false 16 (some false)), .lock (.compareExchangeWeak false false),
        .lock (.unlock true), .lock (.exchange true), .lock (.reverse true), .lock (.reverse true),
        .lock (.select true (some true)), .poll false (some false), .tryDequeueBatch false,
        .resume false] ∧
      Path lockSystemStep (.new (fun _ => {}) (fun _ => 0) (fun _ => none)) l ∧
      (last (.new (fun _ => {}) (fun _ => 0) (fun _ => none)) l).mutex.pc false = .holding ∧
      ∀ x ∈ l, x.2.HasLiveOwner := by
  -- The lock passes from one scheduler to the other one, by a message that is handled there.
  have hrun : ∃ l : List (LockSystemOp Bool Bool × LockSystem Bool Bool),
      l.map Prod.fst = [.lock (.load true 8 (some true)), .lock (.compareExchangeWeak true false),
        .lock (.load false 16 (some false)), .lock (.compareExchangeWeak false false),
        .lock (.unlock true), .lock (.exchange true), .lock (.reverse true), .lock (.reverse true),
        .lock (.select true (some true)), .poll false (some false), .tryDequeueBatch false,
        .resume false] ∧
      (last (.new (fun _ => {}) (fun _ => 0) (fun _ => none)) l).mutex.pc false = .holding ∧
      Path lockSystemStep (.new (fun _ => {}) (fun _ => 0) (fun _ => none)) l ∧
      Meets KeepsOwner (.new (fun _ => {}) (fun _ => 0) (fun _ => none)) l ∧
      Meets SelectsScheduled (.new (fun _ => {}) (fun _ => 0) (fun _ => none)) l := by
    refine ⟨[(_, _), (_, _), (_, _), (_, _), (_, _), (_, _), (_, _), (_, _), (_, _), (_, _), (_, _),
      (_, _)], rfl, ?_, ⟨⟨rfl, by decide, by decide, ?_⟩, ⟨rfl, trivial⟩,
      ⟨rfl, by decide, by decide, ?_⟩, ⟨rfl, trivial⟩, ⟨rfl, trivial⟩, ⟨rfl, trivial⟩,
      ⟨rfl, trivial⟩, ⟨rfl, trivial⟩, ⟨rfl, trivial⟩, ⟨rfl, trivial⟩, ⟨rfl, trivial⟩,
      ⟨rfl, trivial⟩, trivial⟩, ?_, ?_⟩
    · rfl
    · rintro (_ | _) hk <;> exact hk.elim
    · rintro (_ | _) hk <;> exact hk.elim
    · refine ⟨trivial, trivial, trivial, trivial, trivial, trivial, trivial, trivial, ?_, ?_,
        trivial, trivial, trivial⟩
      · intro a k scheduler _ _ _ _
        exact .inl rfl
      · intro k _
        exact .inl rfl
    · refine ⟨trivial, trivial, trivial, trivial, trivial, trivial, trivial, trivial, ?_, trivial,
        trivial, trivial, trivial⟩
      rintro a ha
      obtain rfl := Option.some.inj ha
      rfl
  obtain ⟨l, hops, hlast, hl, hkeeps, hselects⟩ := hrun
  exact ⟨l, hops, hl, hlast, (live_owner_iff _ _ _ l hl hkeeps).mpr hselects⟩

/-- A coroutine waits on a thread that has no scheduler. It is given the lock, and nothing resumes
it. -/
theorem owner_lost :
    ∃ l : List (LockSystemOp Bool Bool × LockSystem Bool Bool),
      l.map Prod.fst = [.lock (.load true 8 (some true)), .lock (.compareExchangeWeak true false),
        .lock (.load false 16 none), .lock (.compareExchangeWeak false false),
        .lock (.unlock true), .lock (.exchange true), .lock (.reverse true), .lock (.reverse true),
        .lock (.select true (some true))] ∧
      Path lockSystemStep (.new (fun _ => {}) (fun _ => 0) (fun _ => none)) l ∧
      ¬ ∀ x ∈ l, x.2.HasLiveOwner := by
  have hrun : ∃ l : List (LockSystemOp Bool Bool × LockSystem Bool Bool),
      l.map Prod.fst = [.lock (.load true 8 (some true)), .lock (.compareExchangeWeak true false),
        .lock (.load false 16 none), .lock (.compareExchangeWeak false false),
        .lock (.unlock true), .lock (.exchange true), .lock (.reverse true), .lock (.reverse true),
        .lock (.select true (some true))] ∧
      Path lockSystemStep (.new (fun _ => {}) (fun _ => 0) (fun _ => none)) l ∧
      ∃ x ∈ l, x.2 = last (.new (fun _ => {}) (fun _ => 0) (fun _ => none)) l ∧
        x.2.mutex.pc false = .selected ∧ x.2.schedulerOf false = none := by
    refine ⟨[(_, _), (_, _), (_, _), (_, _), (_, _), (_, _), (_, _), (_, _), (_, _)], rfl,
      ⟨⟨rfl, by decide, by decide, ?_⟩, ⟨rfl, trivial⟩,
      ⟨rfl, by decide, by decide, ?_⟩, ⟨rfl, trivial⟩, ⟨rfl, trivial⟩, ⟨rfl, trivial⟩,
      ⟨rfl, trivial⟩, ⟨rfl, trivial⟩, ⟨rfl, trivial⟩, trivial⟩,
      _, List.mem_of_mem_getLast? rfl, rfl, rfl, rfl⟩
    · rintro (_ | _) hk <;> exact hk.elim
    · rintro (_ | _) hk <;> exact hk.elim
  obtain ⟨l, hops, hl, x, hx, hlast, hselected, hscheduler⟩ := hrun
  refine ⟨l, hops, hl, fun hlive => ?_⟩
  obtain ⟨-, w, holder, h⟩ := hl.invariant (I := fun s => ∃ w holder, InUse s w holder)
    (fun _ _ _ ⟨_, _, h⟩ hstep => inUse_step h hstep) ⟨_, _, new_inUse _ _ _⟩
  rw [← hlast] at h
  obtain ⟨scheduler, hsome, -⟩ := (hasLiveOwner_iff h.rep).mp (hlive x hx) false hselected
  simp [hscheduler] at hsome

end Novaio
