import Novaio.Affinity.Places

/-!
# One place for each coroutine

Every step of the program keeps the places of the coroutines apart (`Places.step`), so that in a run
each coroutine is at one place at most (`one_place`): it runs on one thread, or one thing is going
to resume it. As the schedulers hold no handle twice, their run queues have room for all
(`run_queues_fit`).
-/

namespace Novaio

open Transition

namespace Program

variable {σ τ κ μ ι ω : Type*} [Fintype σ] [DecidableEq σ] [DecidableEq τ] [DecidableEq κ]
  {C : Finset κ} {ended : List κ} {place : κ → Option (Place σ τ κ μ ι ω)}
  {s t : Program σ τ κ μ ι ω} {k : κ} {c : σ ⊕ τ} {op : WorkersOp σ τ κ}

/-! ## Coroutines and tasks -/

omit [Fintype σ] [DecidableEq σ] [DecidableEq κ] [DecidableEq τ] in
/-- The coroutine that a thread runs has the topmost frame of its stack. -/
theorem stack_of_running (hk : s.running c = some k) :
    s.acts c = true ∧ ∃ rest, s.stack c = .coroutine k :: rest := by
  unfold running at hk
  split at hk
  · rename_i k' rest hstack
    split_ifs at hk with hacts
    exact ⟨hacts, rest, Option.some.inj hk ▸ hstack⟩
  · simp at hk

/-- The coroutine that runs leaves the stack. -/
theorem Places.leave (h : Places C ended place s) {rest : List (UserFrame κ ω)}
    (hstack : s.stack c = .coroutine k :: rest) :
    Places C ended place (s.leave c) ∧ Nowhere place (s.leave c) k ∧ place k = some (.stack c) :=
  h.pop hstack _ (by rw [hstack]; rfl)

/-- A coroutine is suspended in a scheduler. -/
theorem Places.suspend (h : Places C ended place s) (hC : C.card ≤ 65536)
    {rest : List (UserFrame κ ω)} (hstack : s.stack c = .coroutine k :: rest)
    (hop : Workers.placed op = [k]) (ht : (s.within op).map (fun s => s.leave c) = some t) :
    ∃ place', Places C ended place' t := by
  obtain ⟨hleft, hnowhere, hplace⟩ := h.leave hstack
  obtain ⟨_, hwithin, rfl⟩ := Option.map_eq_some_iff.mp ht
  obtain ⟨runtime, hstep, rfl⟩ := Option.map_eq_some_iff.mp hwithin
  refine ⟨_, hleft.within hC hnowhere (by simp [hplace]) hop ?_⟩
  show (s.runtime.step op).map _ = _
  rw [hstep]
  rfl

/-- A coroutine awaits a new task, and becomes its continuation. -/
theorem Places.awaitTask (h : Places C ended place s) {rest : List (UserFrame κ ω)}
    (hstack : s.stack c = .coroutine k :: rest) {task : κ} (htask : s.created task = false)
    (hmem : task ∈ C) : ∃ place', Places C ended place' (s.awaitTask c k task) := by
  obtain ⟨hleft, hnowhere, hplace⟩ := h.leave hstack
  have hne : k ≠ task := by
    rintro rfl
    simp [h.created k (by simp [hplace])] at htask
  -- The task gets the place on the stack that the coroutine has left.
  obtain ⟨hcreated, hnew⟩ := hleft.create (k := task) htask hmem (.stack c)
  have hmoving : Nowhere (Function.update place task (some (.stack c)))
      ((s.leave c).create task) k := by
    refine ⟨hnowhere.holds, fun t ht => ?_⟩
    have htt : t ≠ task := by
      rintro rfl
      have ht : s.continuation t = some k := ht
      simp [h.new t htask] at ht
    rw [Function.update_of_ne htt]
    exact hnowhere.awaits t ht
  have hlive : Function.update place task (some (.stack c)) k ≠ none := by
    rw [Function.update_of_ne hne, hplace]
    simp
  have hreplaced := hcreated.replace hmoving hlive (some (.task task))
  have hawaits : Function.update (Function.update place task (some (.stack c))) k
      (some (.task task)) k = some (.task task) := Function.update_self _ _ _
  have hcontinuation := hreplaced.setContinuation hawaits (Function.update_self _ _ _)
    (h.new task htask)
  refine ⟨_, hcontinuation.enter (k := task) (c := c) ?_ (hnew.holds (.stack c))⟩
  rw [Function.update_of_ne hne.symm, Function.update_self]

/-- A task ends, and its continuation goes on. -/
theorem Places.finish (h : Places C ended place s) {rest : List (UserFrame κ ω)}
    (hstack : s.stack c = .coroutine k :: rest) :
    ∃ place', Places C (ended ++ [k]) place' (s.finish c k) := by
  obtain ⟨hleft, hnowhere, hplace⟩ := h.leave hstack
  have hlive : place k ≠ none := by simp [hplace]
  have hended := hleft.kill hnowhere hlive
  unfold Program.finish
  split
  · rename_i p hp
    have hpplace : place p = some (.task k) := h.continuation k p hp hlive
    have hne : p ≠ k := by
      rintro rfl
      simp [hplace] at hpplace
    -- The continuation awaits nothing any more.
    have hpended : Function.update place k none p = some (.task k) := by
      rwa [Function.update_of_ne hne]
    have hmoving := hended.nowhere hpended (fun hp => hp) fun t ht => by
      obtain rfl := Place.task.inj ht
      exact Function.update_self _ _ _
    have hreplaced := hended.replace hmoving (by simp [hpended]) (some (.stack c))
    exact ⟨_, hreplaced.enter (Function.update_self _ _ _) (hmoving.holds (.stack c))⟩
  · exact ⟨_, hended⟩

/-! ## `when_all` -/

variable [DecidableEq ω]

/-- A coroutine awaits `when_all`, with a new counter. -/
theorem Places.whenAll (h : Places C ended place s) {rest : List (UserFrame κ ω)}
    (hstack : s.stack c = .coroutine k :: rest) (counter : ω) (n : ℕ) :
    ∃ place', Places C ended place' (s.whenAll c k counter n) := by
  obtain ⟨hpopped, hnowhere, hplace⟩ :=
    h.pop hstack (.startTasks counter n :: (s.stack c).tail) (by rw [hstack]; rfl)
  have hreplaced := hpopped.replace hnowhere (by simp [hplace]) (some (.counter counter))
  refine ⟨_, hreplaced.setCounter counter ⟨n, some k⟩ fun k' _ hk' => ?_⟩
  obtain rfl := Option.some.inj hk'
  exact Function.update_self _ _ _

omit [DecidableEq ω] in
/-- An iteration of `start_tasks` starts `run_task`, which awaits its task. -/
theorem Places.runTask (h : Places C ended place s) {counter : ω} {n : ℕ}
    {rest : List (UserFrame κ ω)} (hstack : s.stack c = .startTasks counter (n + 1) :: rest)
    {helper task : κ} (hhelper : s.created helper = false) (htask : s.created task = false)
    (hne : helper ≠ task) (hmem : helper ∈ C ∧ task ∈ C) :
    ∃ place', Places C ended place' (s.runTask c counter n helper task) := by
  obtain ⟨hcreated, hnowhere⟩ := h.create hhelper hmem.1 (.stack c)
  have hsame : (UserFrame.startTasks counter n :: (s.stack c).tail).filterMap UserFrame.coro =
      (s.create helper).frames c := by
    rw [frames, Program.create, hstack]
    rfl
  have hframes := hcreated.setStack c (.startTasks counter n :: (s.stack c).tail) (by rw [hsame])
  have hcounterOf : Places C ended (Function.update place helper (some (.stack c)))
      { (s.create helper).setStack c (.startTasks counter n :: (s.stack c).tail) with
        counterOf := Function.update s.counterOf helper (some counter) } := { hframes with }
  have hentered := hcounterOf.enter (k := helper) (c := c) (Function.update_self _ _ _) (by
    have hnot : helper ∉ (s.create helper).frames c := hnowhere.holds (.stack c)
    rw [← hsame] at hnot
    simpa [frames, Program.setStack] using hnot)
  refine hentered.awaitTask (k := helper) (Function.update_self _ _ _) ?_ hmem.2
  exact (Function.update_of_ne hne.symm _ _).trans htask

/-- `WhenAllCounter::notify` up to its comparison: the helper ends, and the counter is one less. -/
def counted (s : Program σ τ κ μ ι ω) (c : σ ⊕ τ) (helper : κ) (counter : ω)
    (whenAllCounter : WhenAllCounter κ) : Program σ τ κ μ ι ω :=
  { s with
    counters := Function.update s.counters counter
      (some { whenAllCounter with count := whenAllCounter.count - 1 })
    counterOf := Function.update s.counterOf helper none }.leave c

omit [Fintype σ] in
/-- What `WhenAllCounter::notify` does: the counter is one less, and where it has been one, its
coroutine is scheduled or resumed. -/
theorem notify_cases {helper : κ} {counter : ω} (ht : s.notify c helper counter = some t) :
    ∃ whenAllCounter, s.counters counter = some whenAllCounter ∧
      (((whenAllCounter.count = 1 → whenAllCounter.continuation = none) ∧
          t = s.counted c helper counter whenAllCounter) ∨
        ∃ k, whenAllCounter.count = 1 ∧ whenAllCounter.continuation = some k ∧
          ((∃ i, (s.counted c helper counter whenAllCounter).within (.worker i (.schedule k)) =
              some t) ∨ t = (s.counted c helper counter whenAllCounter).enter c k)) := by
  unfold Program.notify at ht
  split at ht
  · rename_i whenAllCounter hcounter
    refine ⟨whenAllCounter, hcounter, ?_⟩
    split_ifs at ht with hlast
    · split at ht
      · rename_i k i hk hi
        exact .inr ⟨k, hlast, hk, .inl ⟨i, ht⟩⟩
      · rename_i k hk hi
        exact .inr ⟨k, hlast, hk, .inr (Option.some.inj ht).symm⟩
      · rename_i hnone
        exact .inl ⟨fun _ => hnone, (Option.some.inj ht).symm⟩
    · exact .inl ⟨fun heq => (hlast heq).elim, (Option.some.inj ht).symm⟩
  · simp at ht

/-- The helper ends; where the counter has been one, its coroutine is nowhere any more. -/
theorem Places.counted (h : Places C ended place s) {rest : List (UserFrame κ ω)} {helper : κ}
    (hstack : s.stack c = .coroutine helper :: rest) {counter : ω}
    {whenAllCounter : WhenAllCounter κ} (hcounter : s.counters counter = some whenAllCounter) :
    Places C (ended ++ [helper]) (Function.update place helper none)
        (s.counted c helper counter whenAllCounter) ∧
      ∀ k, whenAllCounter.count = 1 → whenAllCounter.continuation = some k →
        Nowhere (Function.update place helper none) (s.counted c helper counter whenAllCounter) k ∧
          Function.update place helper none k ≠ none := by
  obtain ⟨hleft, hnowhere, hplace⟩ := h.leave hstack
  have hended := hleft.kill hnowhere (by simp [hplace])
  have hplaces {k : κ} (hcount : whenAllCounter.count ≠ 0)
      (hk : whenAllCounter.continuation = some k) :
      Function.update place helper none k = some (.counter counter) := by
    have hkplace := h.holds (.counter counter) k ⟨whenAllCounter, hcounter, hcount, hk⟩
    rwa [Function.update_of_ne]
    rintro rfl
    simp [hplace] at hkplace
  have hcounted := hended.setCounter counter
    { whenAllCounter with count := whenAllCounter.count - 1 } fun k hcount hk =>
      hplaces (fun hzero => hcount (by simp [hzero])) hk
  have hforgotten : Places C (ended ++ [helper]) (Function.update place helper none)
      (s.counted c helper counter whenAllCounter) := { hcounted with }
  refine ⟨hforgotten, fun k hlast hk => ?_⟩
  have hkplace := hplaces (by simp [hlast]) hk
  refine ⟨hforgotten.nowhere hkplace ?_ (by simp), by simp [hkplace]⟩
  rintro ⟨old, hget, hcount, -⟩
  obtain rfl : { whenAllCounter with count := whenAllCounter.count - 1 } = old := by
    simpa [Program.counted, Program.leave, Program.setStack] using hget
  exact hcount (by simp [hlast])

/-- The end of `run_task`: the counter resumes its coroutine after the last child. -/
theorem Places.notify (h : Places C ended place s) (hC : C.card ≤ 65536)
    {rest : List (UserFrame κ ω)} {helper : κ} (hstack : s.stack c = .coroutine helper :: rest)
    {counter : ω} (ht : s.notify c helper counter = some t) :
    ∃ place', Places C (ended ++ [helper]) place' t := by
  obtain ⟨whenAllCounter, hcounter, ⟨-, rfl⟩ | ⟨k, hlast, hk, ⟨i, ht⟩ | rfl⟩⟩ := notify_cases ht
  · exact ⟨_, (h.counted hstack hcounter).1⟩
  · obtain ⟨hcounted, hmoving⟩ := h.counted hstack hcounter
    obtain ⟨hnowhere, hlive⟩ := hmoving k hlast hk
    exact ⟨_, hcounted.within hC hnowhere hlive rfl ht⟩
  · obtain ⟨hcounted, hmoving⟩ := h.counted hstack hcounter
    obtain ⟨hnowhere, hlive⟩ := hmoving k hlast hk
    exact ⟨_, (hcounted.replace hnowhere hlive (some (.stack c))).enter (Function.update_self _ _ _)
      (hnowhere.holds (.stack c))⟩

/-! ## Mutexes and events -/

omit [DecidableEq ω] in
/-- What `unlock` does to have a waiter resumed places its handle in the runtime. -/
theorem Places.handOver (h : Places C ended place s) (hC : C.card ≤ 65536)
    (hnowhere : Nowhere place s k) (hk : place k ≠ none) {ok : Bool} {awaiter : Awaiter κ σ}
    (hawaiter : awaiter.awaitingCoroutine = some k) {current : Option σ}
    (ht : Program.handOver c ok (CoMutex.handover current awaiter) s = some t) :
    ∃ place', Places C ended place' t := by
  unfold CoMutex.handover at ht
  split at ht
  · exact ⟨place, Option.some.inj ht ▸ h⟩
  · rename_i target htarget
    rw [hawaiter] at ht
    split_ifs at ht
    · obtain ⟨u, hu, ht⟩ := Option.bind_eq_some_iff.mp ht
      obtain rfl := Option.some.inj ht
      exact ⟨_, h.within hC hnowhere hk rfl hu⟩
    · obtain ⟨u, hu, ht⟩ := Option.bind_eq_some_iff.mp ht
      obtain rfl := Option.some.inj ht
      exact ⟨_, h.within hC hnowhere hk rfl hu⟩

omit [DecidableEq ω] in
/-- A step of a coroutine or of a thread that uses a mutex. -/
theorem Places.lock [DecidableEq μ] (h : Places C ended place s) (hC : C.card ≤ 65536) {m : μ}
    {op : LockOp κ σ} {ok : Bool} (ht : s.lock c m op ok = some t)
    (hstep : lockStep (s.mutexes m) op (t.mutexes m)) : ∃ place', Places C ended place' t := by
  obtain ⟨hmay, ht⟩ := Option.ite_none_right_eq_some.mp ht
  obtain ⟨mutex, hmutex, ht⟩ := Option.bind_eq_some_iff.mp ht
  obtain ⟨u, hu, rfl⟩ := Option.map_eq_some_iff.mp ht
  replace hstep : lockStep (s.mutexes m) op mutex := ⟨hmutex, hstep.2⟩
  obtain ⟨w, holder, hrep⟩ := h.mutexes m
  have hrep' := CoMutex.rep_step hrep hstep
  rcases CoMutex.handover_of_step hrep hstep with
    ⟨hsame, -⟩ | ⟨j, current, k, rfl, hk, hselected, hawaiter, happend, -⟩
  · rw [hsame, List.drop_length] at hu
    obtain rfl := Option.some.inj hu
    by_cases hsuspends : ∃ k spurious, op = .compareExchangeWeak k spurious ∧
        mutex.pc k = .suspended
    · -- The coroutine that runs is suspended in the mutex.
      obtain ⟨k, spurious, rfl, hk⟩ := hsuspends
      obtain ⟨-, rest, hstack⟩ := stack_of_running (by simpa [mayLock] using hmay)
      obtain ⟨hleft, hnowhere, hplace⟩ := h.leave hstack
      have hreplaced := hleft.replace hnowhere (by simp [hplace]) (some (.mutex m))
      simp only [if_pos hk]
      refine ⟨_, hreplaced.setMutex hrep' fun k' hk' => ?_⟩
      rcases CoMutex.suspended_of_step hrep hstep hk' with hbefore | ⟨_, heq⟩
      · exact hreplaced.holds (.mutex m) k' hbefore
      · obtain rfl := (LockOp.compareExchangeWeak.inj heq).1
        exact Function.update_self _ _ _
    · refine ⟨place, ?_⟩
      have hset : Places C ended place { s with mutexes := Function.update s.mutexes m mutex } := by
        refine h.setMutex hrep' fun k hk => ?_
        rcases CoMutex.suspended_of_step hrep hstep hk with hbefore | ⟨spurious, heq⟩
        · exact h.holds (.mutex m) k hbefore
        · exact (hsuspends ⟨k, spurious, heq, hk⟩).elim
      split
      · rename_i k spurious _ _
        rw [if_neg fun hk => hsuspends ⟨k, spurious, rfl, hk⟩]
        exact hset
      · exact hset
  · -- The lock is given to a waiter, which the mutex holds no longer.
    rw [happend, List.drop_left] at hu
    have hplace := h.holds (.mutex m) k hk
    have hset : Places C ended place { s with mutexes := Function.update s.mutexes m mutex } := by
      refine h.setMutex hrep' fun k' hk' => ?_
      rcases CoMutex.suspended_of_step hrep hstep hk' with hbefore | ⟨spurious, heq⟩
      · exact h.holds (.mutex m) k' hbefore
      · simp at heq
    have hnowhere := hset.nowhere hplace (by simp [Holds, hselected]) (by simp)
    exact hset.handOver hC hnowhere (by simp [hplace]) hawaiter hu

omit [DecidableEq ω] in
/-- What `set` does to have a waiter resumed places its handle in the runtime, or resumes it. -/
theorem Places.resumeWaiter (h : Places C ended place s) (hC : C.card ≤ 65536)
    (hnowhere : Nowhere place s k) (hk : place k ≠ none) {n : ℕ} {current scheduler : Option σ}
    (ht : Program.resumeWaiter c (Event.resumeWaiter current scheduler (some (k, n))) s = some t) :
    ∃ place', Places C ended place' t := by
  unfold Event.resumeWaiter at ht
  dsimp only at ht
  split at ht
  · split_ifs at ht
    · obtain ⟨u, hu, ht⟩ := Option.bind_eq_some_iff.mp ht
      obtain rfl := Option.some.inj ht
      exact ⟨_, h.within hC hnowhere hk rfl hu⟩
    · obtain ⟨u, hu, ht⟩ := Option.bind_eq_some_iff.mp ht
      obtain rfl := Option.some.inj ht
      exact ⟨_, h.within hC hnowhere hk rfl hu⟩
  · obtain rfl := Option.some.inj ht
    have hreplaced := h.replace hnowhere hk (some (.stack c))
    exact ⟨_, hreplaced.enter (Function.update_self _ _ _) (hnowhere.holds (.stack c))⟩

omit [DecidableEq ω] in
/-- A step of a coroutine or of a thread that uses an event. -/
theorem Places.event [DecidableEq ι] (h : Places C ended place s) (hC : C.card ≤ 65536) {e : ι}
    {op : EventOp (κ × ℕ) ((σ ⊕ τ) × ℕ) σ} (ht : s.event c e op = some t)
    (hstep : eventStep (s.events e) op (t.events e)) : ∃ place', Places C ended place' t := by
  obtain ⟨hmay, ht⟩ := Option.ite_none_right_eq_some.mp ht
  obtain ⟨event, hevent, ht⟩ := Option.bind_eq_some_iff.mp ht
  obtain ⟨u, hu, rfl⟩ := Option.map_eq_some_iff.mp ht
  replace hstep : eventStep (s.events e) op event := ⟨hevent, hstep.2⟩
  obtain ⟨queued, detached, first, hrep⟩ := h.events e
  have hrep' := Event.rep_step hrep hstep
  -- Who is suspended after the step was so before, or takes the step.
  have hbefore {k : κ} {n : ℕ} (hk : event.waiterPc (k, n) = .suspended)
      (hop : ∀ current, op ≠ .awaitSuspend (k, n) current) :
      place k = some (.event e n) := by
    refine h.holds (.event e n) k ?_
    by_contra hne
    obtain ⟨current, heq, -⟩ := Event.newly_suspended hstep hne hk
    exact hop current heq
  rcases Event.resumptions_step hrep hstep with
    ⟨hsame, -⟩ | ⟨setter, current, ⟨k, n⟩, rfl, hk, happend, hresumed, -⟩
  · rw [hsame, List.drop_length] at hu
    obtain rfl := Option.some.inj hu
    by_cases hsuspends : ∃ k n current, op = .awaitSuspend (k, n) current ∧
        event.waiterPc (k, n) = .suspended
    · -- The coroutine that runs is suspended in the event.
      obtain ⟨k, n, current, rfl, hk⟩ := hsuspends
      have hrunning : s.running c = some k := (by simpa [maySignal] using hmay :
        s.running c = some k ∧ current = currentScheduler c).1
      obtain ⟨-, rest, hstack⟩ := stack_of_running hrunning
      obtain ⟨hleft, hnowhere, hplace⟩ := h.leave hstack
      have hreplaced := hleft.replace hnowhere (by simp [hplace]) (some (.event e n))
      simp only [if_pos hk]
      refine ⟨_, hreplaced.setEvent hrep' fun k' n' hk' => ?_⟩
      rcases eq_or_ne (k', n') (k, n) with heq | hne
      · obtain ⟨rfl, rfl⟩ := Prod.mk.inj heq
        exact Function.update_self _ _ _
      · refine hreplaced.holds (.event e n') k' ?_
        by_contra hbefore
        obtain ⟨_, heq, -⟩ := Event.newly_suspended hstep hbefore hk'
        exact hne (EventOp.awaitSuspend.inj heq).1.symm
    · refine ⟨place, ?_⟩
      have hset : Places C ended place { s with events := Function.update s.events e event } :=
        h.setEvent hrep' fun k n hk => hbefore hk fun current heq =>
          hsuspends ⟨k, n, current, heq, hk⟩
      split
      · rename_i waiter current _ _
        rw [if_neg fun hk => hsuspends ⟨waiter.1, waiter.2, current, rfl, hk⟩]
        exact hset
      · exact hset
  · -- A waiter is resumed, which the event holds no longer.
    rw [happend, List.drop_left] at hu
    have hplace := h.holds (.event e n) k hk
    have hset : Places C ended place { s with events := Function.update s.events e event } :=
      h.setEvent hrep' fun k n hk => hbefore hk (by simp)
    have hnowhere := hset.nowhere hplace (by simp [Holds, hresumed]) (by simp)
    exact hset.resumeWaiter hC hnowhere (by simp [hplace]) hu

/-! ## Every step -/

variable [DecidableEq μ] [DecidableEq ι]

omit [Fintype σ] [DecidableEq τ] [DecidableEq ω] [DecidableEq μ] [DecidableEq ι] in
/-- What the program relies on in a step: every coroutine is one of `C`, a new context is at an
address that no operation under way has, and a direct operation completes once. -/
def Orderly (C : Finset κ) (s : Program σ τ κ μ ι ω) : ProgramOp σ τ κ μ ι ω → Prop
  | .runtime op => s.runtime.Fresh op
  | .schedule _ k | .awaitTask _ k => k ∈ C
  | .runTask _ helper task => helper ∈ C ∧ task ∈ C
  | _ => True

/-- The coroutine that ends in a step. -/
def ends (s : Program σ τ κ μ ι ω) : ProgramOp σ τ κ μ ι ω → List κ
  | .finish c | .notify c => (s.running c).toList
  | _ => []

/-- The step lemma: every coroutine has one place after each step. -/
theorem Places.step (h : Places C ended place s) (hC : C.card ≤ 65536)
    {op : ProgramOp σ τ κ μ ι ω} (horderly : s.Orderly C op) (hstep : programStep s op t) :
    ∃ place', Places C (ended ++ s.ends op) place' t := by
  obtain ⟨ht, hop⟩ := hstep
  cases op with
  | runtime op => simpa [ends] using h.runtimeStep hC horderly ht
  | schedule i k =>
    obtain ⟨⟨-, hk⟩, ht⟩ := Option.ite_none_right_eq_some.mp ht
    obtain ⟨hcreated, hnowhere⟩ := h.create hk horderly .runtime
    simpa [ends] using ⟨_, hcreated.within hC hnowhere (by simp) rfl ht⟩
  | sleepFor i node ms now =>
    simp only [Program.step] at ht
    split at ht
    · rename_i k hk
      obtain ⟨-, rest, hstack⟩ := stack_of_running hk
      simpa [ends] using h.suspend hC hstack rfl ht
    · simp at ht
  | awaitIo i ctx =>
    simp only [Program.step] at ht
    split at ht
    · rename_i k hk
      obtain ⟨-, rest, hstack⟩ := stack_of_running hk
      simpa [ends] using h.suspend hC hstack rfl ht
    · simp at ht
  | awaitTask c task =>
    simp only [Program.step] at ht
    split at ht
    · rename_i k hk
      obtain ⟨-, rest, hstack⟩ := stack_of_running hk
      obtain ⟨htask, ht⟩ := Option.ite_none_right_eq_some.mp ht
      obtain rfl := Option.some.inj ht
      simpa [ends] using h.awaitTask hstack htask horderly
    · simp at ht
  | finish c =>
    simp only [Program.step] at ht
    split at ht
    · rename_i k hk
      obtain ⟨-, rest, hstack⟩ := stack_of_running hk
      obtain ⟨-, ht⟩ := Option.ite_none_right_eq_some.mp ht
      obtain rfl := Option.some.inj ht
      simpa [ends, hk] using h.finish hstack
    · simp at ht
  | whenAll c counter n =>
    simp only [Program.step] at ht
    split at ht
    · rename_i k hk hcounter
      obtain ⟨-, rest, hstack⟩ := stack_of_running hk
      obtain ⟨-, ht⟩ := Option.ite_none_right_eq_some.mp ht
      obtain rfl := Option.some.inj ht
      simpa [ends] using h.whenAll hstack counter n
    · simp at ht
  | runTask c helper task =>
    simp only [Program.step] at ht
    split at ht
    · rename_i counter n rest hstack
      obtain ⟨⟨-, hhelper, htask, hne⟩, ht⟩ := Option.ite_none_right_eq_some.mp ht
      obtain rfl := Option.some.inj ht
      simpa [ends] using h.runTask hstack hhelper htask hne horderly
    · simp at ht
  | endStartTasks c =>
    simp only [Program.step] at ht
    split at ht
    · obtain ⟨-, ht⟩ := Option.ite_none_right_eq_some.mp ht
      obtain rfl := Option.some.inj ht
      have hleft : Places C ended place (s.leave c) :=
        h.setStack c _ ((List.tail_sublist _).filterMap _)
      simpa [ends] using ⟨place, hleft⟩
    · simp at ht
  | notify c =>
    simp only [Program.step] at ht
    split at ht
    · rename_i helper hhelper
      obtain ⟨-, rest, hstack⟩ := stack_of_running hhelper
      split at ht
      · simpa [ends, hhelper] using h.notify hC hstack ht
      · simp at ht
    · simp at ht
  | lock c m op ok => simpa [ends] using h.lock hC ht hop
  | event c e op => simpa [ends] using h.event hC ht hop

omit [DecidableEq τ] [DecidableEq ω] [DecidableEq μ] [DecidableEq ι] in
/-- In a program at its start, there is no coroutine. -/
theorem new_places (C : Finset κ) (buffer : ℕ → Option κ) (expiresAt : ℕ → UInt64)
    (handle : ℕ → κ) (address : κ → ℕ) (waiterAddress : κ × ℕ → ℕ) :
    Places C [] (fun _ => none)
      (new buffer expiresAt handle address waiterAddress : Program σ τ κ μ ι ω) := by
  obtain ⟨hregular, hcopies⟩ := Workers.new_regular (σ := σ) (τ := τ) buffer expiresAt handle
  have hframes (c : σ ⊕ τ) : (new buffer expiresAt handle address waiterAddress :
      Program σ τ κ μ ι ω).frames c = [] := by
    cases c <;> rfl
  refine ⟨fun p k hp => ?_, by simp, fun k => (hcopies k).le.trans (Nat.zero_le _),
    fun c => by simp [hframes], by simp, fun t _ => rfl, by simp [new], by simp, hregular,
    fun m => ⟨_, _, CoMutex.new_rep _ _⟩, fun e => ⟨_, _, _, Event.new_rep _ _⟩⟩
  cases p with
  | runtime => exact absurd (hcopies k) (Nat.pos_iff_ne_zero.mp hp)
  | stack c => simp [Holds, hframes] at hp
  | mutex m => simp [Holds, new, CoMutex.new] at hp
  | event e n => simp [Holds, new, Event.new] at hp
  | counter w => simp [Holds, new] at hp
  | task t => exact hp.elim

omit [DecidableEq τ] [DecidableEq ω] [DecidableEq μ] [DecidableEq ι] in
/-- A coroutine is at its place. -/
theorem Places.place_eq (h : Places C ended place s) {p : Place σ τ κ μ ι ω} (hk : s.At k p) :
    place k = some p := by
  induction hk with
  | here hp => exact h.holds _ _ hp
  | task hcontinuation _ ih => exact h.continuation _ _ hcontinuation (by simp [ih])

omit [DecidableEq τ] [DecidableEq ω] [DecidableEq μ] [DecidableEq ι] in
/-- A run queue holds no handle twice, and has no more of them than slots. -/
theorem Places.queue (h : Places C ended place s) (hC : C.card ≤ 65536) (i : σ) :
    (s.runtime.workers i).queue.contents.Nodup ∧
      (s.runtime.workers i).queue.localQueue.size ≤
        (s.runtime.workers i).queue.localQueue.capacity := by
  have hroom := h.runtime.room hC i .leave (fun k => h.copies_le k) fun k hk =>
    h.mem k (h.created k (by simp [h.holds .runtime k hk]))
  refine ⟨List.nodup_iff_count_le_one.mpr fun x => ?_, hroom⟩
  cases x with
  | none =>
    refine (List.count_eq_zero_of_not_mem fun hnone => ?_).le.trans (Nat.zero_le 1)
    simpa using (h.runtime.workers i).isSome_of_mem hnone
  | some k =>
    have hcopies := s.runtime.copies_le i k
    have hle := h.copies_le k
    have hcount : (s.runtime.workers i).queue.contents.count (some k) ≤
        (s.runtime.workers i).copies (s.runtime.flight i) k := by
      unfold Worker.copies
      omega
    omega

/-- The run lemma: in a run, every coroutine has one place at a time, or none. -/
theorem run_places {C : Finset κ} (hC : C.card ≤ 65536) {buffer : ℕ → Option κ}
    {expiresAt : ℕ → UInt64} {handle : ℕ → κ} {address : κ → ℕ} {waiterAddress : κ × ℕ → ℕ}
    {l : List (ProgramOp σ τ κ μ ι ω × Program σ τ κ μ ι ω)}
    (hl : Path programStep (new buffer expiresAt handle address waiterAddress) l)
    (horderly : Meets (Orderly C) (new buffer expiresAt handle address waiterAddress) l) :
    ∃ place, Places C (collect ends (new buffer expiresAt handle address waiterAddress) l) place
      (last (new buffer expiresAt handle address waiterAddress) l) :=
  (hl.and_meets horderly).invariant_collect (I := fun ended s => ∃ place, Places C ended place s)
    (fun _ _ _ _ ⟨_, h⟩ hstep => h.step hC hstep.2 hstep.1) [] ⟨_, new_places C _ _ _ _ _⟩

end Program

/-- In every run, each coroutine is at one place at most, with one copy of its handle or one frame
there, and one that has ended is nowhere. -/
theorem one_place {σ τ κ μ ι ω : Type*} [Fintype σ] [DecidableEq σ] [DecidableEq τ] [DecidableEq κ]
    [DecidableEq μ] [DecidableEq ι] [DecidableEq ω] (C : Finset κ) (hC : C.card ≤ 65536)
    (buffer : ℕ → Option κ) (expiresAt : ℕ → UInt64) (handle : ℕ → κ) (address : κ → ℕ)
    (waiterAddress : κ × ℕ → ℕ) (l : List (ProgramOp σ τ κ μ ι ω × Program σ τ κ μ ι ω))
    (hl : Path programStep (.new buffer expiresAt handle address waiterAddress) l)
    (horderly : Meets (Program.Orderly C) (.new buffer expiresAt handle address waiterAddress) l)
    (k : κ) :
    (∀ p q, (last (.new buffer expiresAt handle address waiterAddress) l).At k p →
        (last (.new buffer expiresAt handle address waiterAddress) l).At k q → p = q) ∧
      (last (.new buffer expiresAt handle address waiterAddress) l).runtime.copies k ≤ 1 ∧
      (∀ c, ((last (.new buffer expiresAt handle address waiterAddress) l).frames c).count k ≤ 1) ∧
      (k ∈ collect Program.ends (.new buffer expiresAt handle address waiterAddress) l →
        ∀ p, ¬ (last (.new buffer expiresAt handle address waiterAddress) l).At k p) := by
  obtain ⟨place, h⟩ := Program.run_places hC hl horderly
  refine ⟨fun p q hp hq => ?_, h.copies_le k, fun c => List.nodup_iff_count_le_one.mp (h.nodup c) k,
    fun hk p hp => ?_⟩
  · exact Option.some.inj ((h.place_eq hp).symm.trans (h.place_eq hq))
  · exact absurd (h.ended k hk).2 (by simp [h.place_eq hp])

/-- A task of another thread schedules two coroutines. One waits for an event while the other runs,
and neither is at any other place. -/
theorem one_place_two :
    ∃ l : List (ProgramOp Unit Unit Bool Unit Unit Unit × Program Unit Unit Bool Unit Unit Unit),
      Path programStep
        (.new (fun _ => none) (fun _ => 0) (fun _ => false) (fun _ => 0) (fun _ => 0)) l ∧
      (last (.new (fun _ => none) (fun _ => 0) (fun _ => false) (fun _ => 0) (fun _ => 0)) l).At
        false (.event () 0) ∧
      (last (.new (fun _ => none) (fun _ => 0) (fun _ => false) (fun _ => 0) (fun _ => 0)) l).At
        true (.stack (.inl ())) ∧
      (∀ p, (last (.new (fun _ => none) (fun _ => 0) (fun _ => false) (fun _ => 0) (fun _ => 0))
        l).At false p → p = .event () 0) ∧
      ∀ p, (last (.new (fun _ => none) (fun _ => 0) (fun _ => false) (fun _ => 0) (fun _ => 0))
        l).At true p → p = .stack (.inl ()) := by
  have hrun :
      ∃ l : List (ProgramOp Unit Unit Bool Unit Unit Unit ×
          Program Unit Unit Bool Unit Unit Unit),
        Path programStep
          (.new (fun _ => none) (fun _ => 0) (fun _ => false) (fun _ => 0) (fun _ => 0)) l ∧
        Meets (Program.Orderly Finset.univ)
          (.new (fun _ => none) (fun _ => 0) (fun _ => false) (fun _ => 0) (fun _ => 0)) l ∧
        ((last (.new (fun _ => none) (fun _ => 0) (fun _ => false) (fun _ => 0) (fun _ => 0))
          l).events ()).waiterPc (false, 0) = .suspended ∧
        (last (.new (fun _ => none) (fun _ => 0) (fun _ => false) (fun _ => 0) (fun _ => 0))
          l).frames (.inl ()) = [true] :=
    ⟨[(.runtime (.push (.inr ()) () ⟨some (.other ())⟩), _), (.runtime (.ringFd (.inr ())), _),
      (.runtime (.worker () (.init (fun depth _ => depth = 256) 0)), _),
      (.runtime (.worker () (.check 0)), _), (.runtime (.worker () .pop), _),
      (.schedule () false, _), (.schedule () true, _), (.runtime (.worker () .leave), _),
      (.runtime (.worker () .pop), _), (.runtime (.worker () .tryDequeueBatch), _),
      -- The first coroutine waits for the event.
      (.runtime (.worker () (.resume false)), _),
      (.event (.inl ()) () (.awaitReady (false, 0) 8), _),
      (.event (.inl ()) () (.awaitSuspend (false, 0) (some ())), _),
      (.runtime (.worker () .leave), _),
      -- The second one runs.
      (.runtime (.worker () (.resume false)), _)],
      ⟨⟨rfl, trivial⟩, ⟨rfl, trivial⟩, ⟨rfl, trivial⟩, ⟨rfl, trivial⟩, ⟨rfl, trivial⟩,
        ⟨rfl, trivial⟩, ⟨rfl, trivial⟩, ⟨rfl, trivial⟩, ⟨rfl, trivial⟩, ⟨rfl, trivial⟩,
        ⟨rfl, trivial⟩, ⟨rfl, rfl, fun _ h => False.elim h⟩, ⟨rfl, rfl, trivial⟩,
        ⟨rfl, trivial⟩, ⟨rfl, trivial⟩, trivial⟩,
      ⟨trivial, trivial, trivial, trivial, trivial, Finset.mem_univ false, Finset.mem_univ true,
        trivial, trivial, trivial, trivial, trivial, trivial, trivial, trivial, trivial⟩, rfl, rfl⟩
  obtain ⟨l, hl, horderly, hsuspended, hframes⟩ := hrun
  have hfirst := Program.At.here (p := .event () 0) hsuspended
  have hsecond := Program.At.here (p := .stack (.inl ())) (k := true) <| by
    show true ∈ Program.frames _ _
    rw [hframes]
    exact List.mem_singleton_self true
  have hplace := one_place Finset.univ (by decide) _ _ _ _ _ l hl horderly
  exact ⟨l, hl, hfirst, hsecond, fun p hp => (hplace false).1 p _ hp hfirst,
    fun p hp => (hplace true).1 p _ hp hsecond⟩

/-- In every run, no run queue of a scheduler ever holds more handles than it has slots, or a handle
twice, so that `push`, which does not check for room, overwrites none. -/
theorem run_queues_fit {σ τ κ μ ι ω : Type*} [Fintype σ] [DecidableEq σ] [DecidableEq τ]
    [DecidableEq κ] [DecidableEq μ] [DecidableEq ι] [DecidableEq ω] (C : Finset κ)
    (hC : C.card ≤ 65536) (buffer : ℕ → Option κ) (expiresAt : ℕ → UInt64) (handle : ℕ → κ)
    (address : κ → ℕ) (waiterAddress : κ × ℕ → ℕ)
    (l : List (ProgramOp σ τ κ μ ι ω × Program σ τ κ μ ι ω))
    (hl : Path programStep (.new buffer expiresAt handle address waiterAddress) l)
    (horderly : Meets (Program.Orderly C) (.new buffer expiresAt handle address waiterAddress) l)
    (i : σ) :
    ((last (.new buffer expiresAt handle address waiterAddress) l).runtime.workers
        i).queue.contents.Nodup ∧
      ((last (.new buffer expiresAt handle address waiterAddress) l).runtime.workers
          i).queue.localQueue.size ≤
        ((last (.new buffer expiresAt handle address waiterAddress) l).runtime.workers
          i).queue.localQueue.capacity := by
  obtain ⟨place, h⟩ := Program.run_places hC hl horderly
  exact h.queue hC i

/-- A task of another thread schedules three coroutines, two of which are in the ring then. -/
theorem run_queues_fit_three :
    ∃ l : List (ProgramOp Unit Unit (Fin 3) Unit Unit Unit ×
        Program Unit Unit (Fin 3) Unit Unit Unit),
      Path programStep
        (.new (fun _ => none) (fun _ => 0) (fun _ => 0) (fun _ => 0) (fun _ => 0)) l ∧
      ((last (.new (fun _ => none) (fun _ => 0) (fun _ => 0) (fun _ => 0) (fun _ => 0))
        l).runtime.workers ()).queue.localQueue.size = 2 ∧
      ((last (.new (fun _ => none) (fun _ => 0) (fun _ => 0) (fun _ => 0) (fun _ => 0))
        l).runtime.workers ()).queue.contents = [some 0, some 1, some 2] ∧
      ((last (.new (fun _ => none) (fun _ => 0) (fun _ => 0) (fun _ => 0) (fun _ => 0))
        l).runtime.workers ()).queue.contents.Nodup ∧
      ((last (.new (fun _ => none) (fun _ => 0) (fun _ => 0) (fun _ => 0) (fun _ => 0))
          l).runtime.workers ()).queue.localQueue.size ≤
        ((last (.new (fun _ => none) (fun _ => 0) (fun _ => 0) (fun _ => 0) (fun _ => 0))
          l).runtime.workers ()).queue.localQueue.capacity := by
  have hrun :
      ∃ l : List (ProgramOp Unit Unit (Fin 3) Unit Unit Unit ×
          Program Unit Unit (Fin 3) Unit Unit Unit),
        Path programStep
          (.new (fun _ => none) (fun _ => 0) (fun _ => 0) (fun _ => 0) (fun _ => 0)) l ∧
        Meets (Program.Orderly Finset.univ)
          (.new (fun _ => none) (fun _ => 0) (fun _ => 0) (fun _ => 0) (fun _ => 0)) l ∧
        ((last (.new (fun _ => none) (fun _ => 0) (fun _ => 0) (fun _ => 0) (fun _ => 0))
          l).runtime.workers ()).queue.localQueue.size = 2 ∧
        ((last (.new (fun _ => none) (fun _ => 0) (fun _ => 0) (fun _ => 0) (fun _ => 0))
          l).runtime.workers ()).queue.contents = [some 0, some 1, some 2] :=
    ⟨[(.runtime (.push (.inr ()) () ⟨some (.other ())⟩), _), (.runtime (.ringFd (.inr ())), _),
      (.runtime (.worker () (.init (fun depth _ => depth = 256) 0)), _),
      (.runtime (.worker () (.check 0)), _), (.runtime (.worker () .pop), _), (.schedule () 0, _),
      (.schedule () 1, _), (.schedule () 2, _)],
      ⟨⟨rfl, trivial⟩, ⟨rfl, trivial⟩, ⟨rfl, trivial⟩, ⟨rfl, trivial⟩, ⟨rfl, trivial⟩,
        ⟨rfl, trivial⟩, ⟨rfl, trivial⟩, ⟨rfl, trivial⟩, trivial⟩,
      ⟨trivial, trivial, trivial, trivial, trivial, Finset.mem_univ 0, Finset.mem_univ 1,
        Finset.mem_univ 2, trivial⟩, rfl, rfl⟩
  obtain ⟨l, hl, horderly, hsize, hcontents⟩ := hrun
  exact ⟨l, hl, hsize, hcontents,
    run_queues_fit Finset.univ (by decide) _ _ _ _ _ l hl horderly ()⟩

end Novaio
