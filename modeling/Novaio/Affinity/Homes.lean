import Novaio.Affinity.Basic
import Novaio.Worker.Located

/-!
# Scheduler affinity

Every coroutine has a home: the scheduler on which it is first scheduled, or on which the coroutine
runs that awaits it or passes it to `when_all`. `AtHome` says that every handle that is stored
anywhere is where the home of its coroutine is, and that every coroutine runs at home. A step
creates at most two coroutines, whose homes are the scheduler that takes the step, and keeps the
rest.
-/

namespace Novaio

/-! ## The awaiters -/

/-- An awaiter has the home of its coroutine. -/
def Awaiter.AtHome {α σ : Type*} (home : α → Option σ) (awaiter : Awaiter α σ) : Prop :=
  ∀ k, awaiter.awaitingCoroutine = some k → ∃ i, awaiter.scheduler = some i ∧ home k = some i

namespace Program

variable {σ τ κ μ ι ω : Type*} {home home' : κ → Option σ} {s t : Program σ τ κ μ ι ω}

/-- A coroutine is on the worker that is its home. -/
def OnHome (home : κ → Option σ) (c : σ ⊕ τ) (k : κ) : Prop := ∃ i, c = .inl i ∧ home k = some i

/-- A counter exists, and resumes a coroutine whose home is this one. -/
def CounterAt (home : κ → Option σ) (s : Program σ τ κ μ ι ω) (counter : ω) (i : σ) : Prop :=
  ∃ whenAllCounter, s.counters counter = some whenAllCounter ∧
    ∀ k, whenAllCounter.continuation = some k → home k = some i

/-- Every handle is stored where the home of its coroutine is, and every coroutine has run there. -/
structure AtHome (home : κ → Option σ) (s : Program σ τ κ μ ι ω) : Prop where
  runtime : s.runtime.Located home
  created : ∀ k i, home k = some i → s.created k = true
  coroutines : ∀ c k, .coroutine k ∈ s.stack c → OnHome home c k
  starting : ∀ c counter n, .startTasks counter n ∈ s.stack c →
    ∃ i, c = .inl i ∧ s.CounterAt home counter i
  continuation : ∀ k p, s.continuation k = some p → ∃ i, home k = some i ∧ home p = some i
  helpers : ∀ k counter, s.counterOf k = some counter →
    ∃ i, home k = some i ∧ s.CounterAt home counter i
  mutexes : ∀ m a, ((s.mutexes m).awaiters a).AtHome home
  events : ∀ e a, ((s.events e).awaiters a).AtHome fun waiter => home waiter.1
  resumptions : ∀ k c, (k, c) ∈ s.resumptions → OnHome home c k

/-! ## What a step consists of -/

/-- The coroutine that a thread runs is at home. -/
theorem AtHome.of_running (h : AtHome home s) {c : σ ⊕ τ} {k : κ} (hk : s.running c = some k) :
    OnHome home c k := by
  unfold running at hk
  split at hk
  · rename_i k' frames hstack
    split_ifs at hk
    obtain rfl := Option.some.inj hk
    exact h.coroutines c k' (hstack ▸ List.mem_cons_self)
  · simp at hk

/-- The homes of new coroutines do not matter for what is there. -/
theorem CounterAt.mono {counter : ω} {i : σ} (h : s.CounterAt home counter i)
    (hle : ∀ k i, home k = some i → home' k = some i) : s.CounterAt home' counter i :=
  have ⟨whenAllCounter, hcounter, hk⟩ := h
  ⟨whenAllCounter, hcounter, fun k hc => hle k i (hk k hc)⟩

/-- A coroutine without a home gets one. -/
theorem AtHome.mono (h : AtHome home s) (hle : ∀ k i, home k = some i → home' k = some i)
    (hcreated : ∀ k i, home' k = some i → s.created k = true) : AtHome home' s where
  runtime := h.runtime.mono hle
  created := hcreated
  coroutines c k hk := by
    obtain ⟨i, hc, hi⟩ := h.coroutines c k hk
    exact ⟨i, hc, hle k i hi⟩
  starting c counter n hn := by
    obtain ⟨i, hc, hcounter⟩ := h.starting c counter n hn
    exact ⟨i, hc, hcounter.mono hle⟩
  continuation k p hp := by
    obtain ⟨i, hk, hp⟩ := h.continuation k p hp
    exact ⟨i, hle k i hk, hle p i hp⟩
  helpers k counter hk := by
    obtain ⟨i, hi, hcounter⟩ := h.helpers k counter hk
    exact ⟨i, hle k i hi, hcounter.mono hle⟩
  mutexes m a k hk := by
    obtain ⟨i, hs, hi⟩ := h.mutexes m a k hk
    exact ⟨i, hs, hle k i hi⟩
  events e a waiter hw := by
    obtain ⟨i, hs, hi⟩ := h.events e a waiter hw
    exact ⟨i, hs, hle waiter.1 i hi⟩
  resumptions k c hk := by
    obtain ⟨i, hc, hi⟩ := h.resumptions k c hk
    exact ⟨i, hc, hle k i hi⟩

/-- A coroutine is created, and gets a home. -/
theorem AtHome.create [DecidableEq κ] (h : AtHome home s) {k : κ} (hk : s.created k = false)
    (i : σ) : AtHome (Function.update home k (some i)) (s.create k) := by
  have hcreated : AtHome home (s.create k) :=
    { h with
      created := fun k' j hj => by
        rcases eq_or_ne k' k with rfl | hne
        · exact Function.update_self _ _ _
        · exact (Function.update_of_ne hne _ _).trans (h.created k' j hj) }
  refine hcreated.mono (fun k' j hj => ?_) fun k' j hj => ?_
  · have hne : k' ≠ k := by
      rintro rfl
      have := h.created k' j hj
      simp [hk] at this
    rwa [Function.update_of_ne hne]
  · rcases eq_or_ne k' k with rfl | hne
    · exact Function.update_self _ _ _
    · rw [Function.update_of_ne hne] at hj
      exact hcreated.created k' j hj

section

variable [DecidableEq σ] [DecidableEq τ]

/-- A thread has a stack. -/
theorem AtHome.setStack (h : AtHome home s) {c : σ ⊕ τ} {frames : List (UserFrame κ ω)}
    (hcoroutines : ∀ k, .coroutine k ∈ frames → OnHome home c k)
    (hstarting : ∀ counter n, .startTasks counter n ∈ frames →
      ∃ i, c = .inl i ∧ s.CounterAt home counter i) : AtHome home (s.setStack c frames) :=
  { h with
    coroutines := fun c' k hk => by
      rcases eq_or_ne c' c with rfl | hne
      · exact hcoroutines k (by simpa [Program.setStack] using hk)
      · exact h.coroutines c' k (by simpa [Program.setStack, hne] using hk)
    starting := fun c' counter n hn => by
      rcases eq_or_ne c' c with rfl | hne
      · exact hstarting counter n (by simpa [Program.setStack] using hn)
      · exact h.starting c' counter n (by simpa [Program.setStack, hne] using hn) }

/-- The topmost frame returns. -/
theorem AtHome.leave (h : AtHome home s) (c : σ ⊕ τ) : AtHome home (s.leave c) :=
  h.setStack (fun k hk => h.coroutines c k (List.mem_of_mem_tail hk))
    fun counter n hn => h.starting c counter n (List.mem_of_mem_tail hn)

/-- A coroutine is started or resumed at home. -/
theorem AtHome.enter (h : AtHome home s) {c : σ ⊕ τ} {k : κ} (hk : OnHome home c k) :
    AtHome home (s.enter c k) := by
  have hstack : AtHome home (s.setStack c (.coroutine k :: s.stack c)) := by
    refine h.setStack (fun k' hk' => ?_) fun counter n hn => ?_
    · rcases List.mem_cons.mp hk' with heq | hk'
      · exact UserFrame.coroutine.inj heq ▸ hk
      · exact h.coroutines c k' hk'
    · rcases List.mem_cons.mp hn with heq | hn
      · simp at heq
      · exact h.starting c counter n hn
  refine { hstack with resumptions := fun k' c' hk' => ?_ }
  rcases List.mem_append.mp hk' with hk' | hk'
  · exact h.resumptions k' c' hk'
  · obtain ⟨rfl, rfl⟩ := Prod.mk.inj (List.mem_singleton.mp hk')
    exact hk

/-- A step of the runtime in a step of user code. -/
theorem AtHome.within (h : AtHome home s) (op : WorkersOp σ τ κ)
    (hop : Workers.Respects home op) (ht : s.within op = some t) : AtHome home t := by
  obtain ⟨runtime, hruntime, rfl⟩ := Option.map_eq_some_iff.mp ht
  exact { h with runtime := h.runtime.step (.of_step hruntime) hop }

omit [DecidableEq σ] [DecidableEq τ] in
/-- A step that puts no handle anywhere puts no handle where it does not belong. -/
theorem respects_of_placesHandle {op : WorkersOp σ τ κ} (hop : op.placesHandle = false) :
    Workers.Respects home op := by
  cases op with
  | worker i op => cases op <;> trivial
  | push c target task =>
    intro k hk
    simp [WorkersOp.placesHandle, hk] at hop
  | notifyCoro c target k ok => simp [WorkersOp.placesHandle] at hop
  | _ => trivial

/-- The step lemma for the steps of the loop and of the kernel. -/
theorem AtHome.runtimeStep (h : AtHome home s) {op : WorkersOp σ τ κ}
    (ht : s.runtimeStep op = some t) : AtHome home t := by
  unfold Program.runtimeStep at ht
  split at ht
  · simp at ht
  · rename_i hop
    -- The steps that the scheduler takes place no handle anew.
    have hstep {runtime : Workers σ τ κ} (hr : s.runtime.step op = some runtime) :
        AtHome home { s with runtime := runtime } :=
      { h with
        runtime := h.runtime.step (.of_step hr) (respects_of_placesHandle (by simpa using hop)) }
    have hempty {runtime : Workers σ τ κ} (hr : s.runtime.step op = some runtime) (c : σ ⊕ τ) :
        AtHome home ({ s with runtime := runtime }.setStack c []) :=
      (hstep hr).setStack (by simp) (by simp)
    have hplain {runtime : Workers σ τ κ} (hr : s.runtime.step op = some runtime) (c : σ ⊕ τ) :
        AtHome home ({ s with runtime := runtime }.setStack c [.plain]) :=
      (hstep hr).setStack (by simp) (by simp)
    split at ht
    · -- The loop resumes a coroutine of its batch.
      split at ht
      · rename_i k handles hpc
        obtain ⟨runtime, hr, rfl⟩ := Option.map_eq_some_iff.mp ht
        refine (hempty hr _).enter ⟨_, rfl, (h.runtime.workers _).batch k ?_⟩
        simp [Worker.batch, hpc]
      · obtain ⟨runtime, hr, rfl⟩ := Option.map_eq_some_iff.mp ht
        exact hstep hr
    · split at ht
      · obtain ⟨runtime, hr, rfl⟩ := Option.map_eq_some_iff.mp ht
        exact hempty hr _
      · obtain ⟨runtime, hr, rfl⟩ := Option.map_eq_some_iff.mp ht
        exact hempty hr _
      · simp at ht
    · obtain ⟨runtime, hr, rfl⟩ := Option.map_eq_some_iff.mp ht
      dsimp only
      split_ifs
      · exact hplain hr _
      · exact hstep hr
    · obtain ⟨runtime, hr, rfl⟩ := Option.map_eq_some_iff.mp ht
      dsimp only
      split_ifs
      · exact hplain hr _
      · exact hstep hr
    · obtain ⟨runtime, hr, rfl⟩ := Option.map_eq_some_iff.mp ht
      exact hstep hr

/-! ## Tasks and `when_all` -/

variable [DecidableEq κ]

/-- A coroutine awaits a new task, whose home is the same. -/
theorem AtHome.awaitTask (h : AtHome home s) {c : σ ⊕ τ} {k task : κ} (hk : OnHome home c k)
    (htask : s.created task = false) : ∃ home', AtHome home' (s.awaitTask c k task) := by
  obtain ⟨i, rfl, hi⟩ := hk
  have hcreate := h.create htask i
  have hne : k ≠ task := by
    rintro rfl
    have := h.created k i hi
    simp [htask] at this
  have hself : Function.update home task (some i) task = some i := Function.update_self _ _ _
  have hother : Function.update home task (some i) k = some i := by
    rwa [Function.update_of_ne hne]
  have hcontinuation : AtHome (Function.update home task (some i))
      { s.create task with
        continuation := Function.update (s.create task).continuation task (some k) } := by
    refine { hcreate with continuation := fun k' p hp => ?_ }
    rcases eq_or_ne k' task with rfl | hne'
    · obtain rfl : k = p := by simpa using hp
      exact ⟨i, hself, hother⟩
    · exact hcreate.continuation k' p (by simpa [hne'] using hp)
  exact ⟨_, (hcontinuation.leave _).enter ⟨i, rfl, hself⟩⟩

omit [DecidableEq κ] in
/-- A task ends, and its continuation goes on. -/
theorem AtHome.finish (h : AtHome home s) {c : σ ⊕ τ} {k : κ} (hk : OnHome home c k) :
    AtHome home (s.finish c k) := by
  unfold Program.finish
  split
  · rename_i p hp
    obtain ⟨i, rfl, hi⟩ := hk
    obtain ⟨j, hj, hpj⟩ := h.continuation k p hp
    obtain rfl : i = j := Option.some.inj (hi.symm.trans hj)
    exact (h.leave _).enter ⟨i, rfl, hpj⟩
  · exact h.leave c

variable [DecidableEq ω]

omit [DecidableEq σ] [DecidableEq τ] [DecidableEq κ] in
/-- A counter changes, and what it resumes stays the same, or it is new. -/
theorem CounterAt.setCounter {counter counter' : ω} {i : σ} (h : s.CounterAt home counter' i)
    {whenAllCounter : WhenAllCounter κ}
    (hsame : ∀ previous, s.counters counter = some previous →
      whenAllCounter.continuation = previous.continuation) :
    CounterAt home
      { s with counters := Function.update s.counters counter (some whenAllCounter) }
      counter' i := by
  obtain ⟨previous, hprevious, hk⟩ := h
  rcases eq_or_ne counter' counter with rfl | hne
  · refine ⟨whenAllCounter, Function.update_self _ _ _, fun k hcontinuation => hk k ?_⟩
    rw [← hsame previous hprevious]
    exact hcontinuation
  · exact ⟨previous, (Function.update_of_ne hne _ _).trans hprevious, hk⟩

omit [DecidableEq σ] [DecidableEq τ] [DecidableEq κ] in
/-- A counter changes, and what it resumes stays the same, or it is new. -/
theorem AtHome.setCounter (h : AtHome home s) (counter : ω) (whenAllCounter : WhenAllCounter κ)
    (hsame : ∀ previous, s.counters counter = some previous →
      whenAllCounter.continuation = previous.continuation) :
    AtHome home
      { s with counters := Function.update s.counters counter (some whenAllCounter) } :=
  { h with
    starting := fun c counter' n hn => by
      obtain ⟨i, hc, hcounter⟩ := h.starting c counter' n hn
      exact ⟨i, hc, hcounter.setCounter hsame⟩
    helpers := fun k counter' hk => by
      obtain ⟨i, hi, hcounter⟩ := h.helpers k counter' hk
      exact ⟨i, hi, hcounter.setCounter hsame⟩ }

omit [DecidableEq κ] in
/-- A coroutine awaits `when_all`, with a new counter. -/
theorem AtHome.whenAll (h : AtHome home s) {c : σ ⊕ τ} {k : κ} (hk : OnHome home c k)
    {counter : ω} (hnew : s.counters counter = none) (n : ℕ) :
    AtHome home (s.whenAll c k counter n) := by
  obtain ⟨i, rfl, hi⟩ := hk
  have hcounter := h.setCounter counter ⟨n, some k⟩ (by simp [hnew])
  refine hcounter.setStack (fun k' hk' => ?_) fun counter' n' hn' => ?_
  · rcases List.mem_cons.mp hk' with heq | hk'
    · simp at heq
    · exact h.coroutines _ k' (List.mem_of_mem_tail hk')
  · rcases List.mem_cons.mp hn' with heq | hn'
    · obtain ⟨rfl, -⟩ := UserFrame.startTasks.inj heq
      refine ⟨i, rfl, _, Function.update_self _ _ _, fun k' hk' => ?_⟩
      exact Option.some.inj hk' ▸ hi
    · exact hcounter.starting _ counter' n' (List.mem_of_mem_tail hn')

omit [DecidableEq ω] in
/-- An iteration of `start_tasks`: the home of `run_task` and of its task is that of the counter. -/
theorem AtHome.runTask (h : AtHome home s) {c : σ ⊕ τ} {counter : ω} {n : ℕ}
    {frames : List (UserFrame κ ω)} (hstack : s.stack c = .startTasks counter (n + 1) :: frames)
    {helper task : κ} (hhelper : s.created helper = false) (htask : s.created task = false)
    (hne : helper ≠ task) : ∃ home', AtHome home' (s.runTask c counter n helper task) := by
  obtain ⟨i, rfl, hcounter⟩ := h.starting c counter (n + 1) (hstack ▸ List.mem_cons_self)
  -- The new coroutine is at home where it is created.
  set home' := Function.update home helper (some i) with hhome'
  have hself : home' helper = some i := Function.update_self _ _ _
  have hcreate : AtHome home' (s.create helper) := h.create hhelper i
  obtain ⟨j, hj, hcounter'⟩ :=
    hcreate.starting (.inl i) counter (n + 1) (hstack ▸ List.mem_cons_self)
  obtain rfl : i = j := Sum.inl.inj hj
  have hframes : AtHome home' ((s.create helper).setStack (.inl i)
      (.startTasks counter n :: (s.stack (.inl i)).tail)) := by
    refine hcreate.setStack (fun k hk => ?_) fun counter' n' hn' => ?_
    · rcases List.mem_cons.mp hk with heq | hk
      · simp at heq
      · exact hcreate.coroutines _ k (List.mem_of_mem_tail hk)
    · rcases List.mem_cons.mp hn' with heq | hn'
      · obtain ⟨rfl, -⟩ := UserFrame.startTasks.inj heq
        exact ⟨i, rfl, hcounter'⟩
      · exact hcreate.starting _ counter' n' (List.mem_of_mem_tail hn')
  have hcounterOf : AtHome home' { (s.create helper).setStack (.inl i)
      (.startTasks counter n :: (s.stack (.inl i)).tail) with
        counterOf := Function.update s.counterOf helper (some counter) } := by
    refine { hframes with helpers := fun k counter' hk => ?_ }
    rcases eq_or_ne k helper with rfl | hk'
    · obtain rfl : counter = counter' := by simpa using hk
      exact ⟨i, hself, hcounter'⟩
    · have hold : s.counterOf k = some counter' := by simpa [hk'] using hk
      exact hframes.helpers k counter' hold
  refine (hcounterOf.enter ⟨i, rfl, hself⟩).awaitTask ⟨i, rfl, hself⟩ ?_
  exact (Function.update_of_ne hne.symm _ _).trans htask

omit [DecidableEq σ] [DecidableEq τ] [DecidableEq ω] in
/-- The counter of a coroutine is forgotten. -/
theorem AtHome.forget (h : AtHome home s) (helper : κ) :
    AtHome home { s with counterOf := Function.update s.counterOf helper none } := by
  refine { h with helpers := fun k counter hk => ?_ }
  rcases eq_or_ne k helper with rfl | hne
  · simp at hk
  · exact h.helpers k counter (by simpa [hne] using hk)

/-- The end of `run_task`: the counter resumes its coroutine at home, whichever child is the
last. -/
theorem AtHome.notify (h : AtHome home s) {c : σ ⊕ τ} {helper : κ} (hhelper : OnHome home c helper)
    {counter : ω} (hcounter : s.counterOf helper = some counter)
    (ht : s.notify c helper counter = some t) : AtHome home t := by
  obtain ⟨i, rfl, hi⟩ := hhelper
  obtain ⟨j, hj, ⟨count, continuation⟩, hcounters, hcontinuation⟩ :=
    h.helpers helper counter hcounter
  obtain rfl : i = j := Option.some.inj (hi.symm.trans hj)
  unfold Program.notify at ht
  simp only [hcounters] at ht
  have hcount := h.setCounter counter ⟨count - 1, continuation⟩ (by simp [hcounters])
  have hleft := (hcount.forget helper).leave (.inl i)
  split_ifs at ht with hlast
  · cases continuation with
    | none => exact Option.some.inj ht ▸ hleft
    | some k => exact hleft.within (.worker i (.schedule k)) (hcontinuation k rfl) ht
  · exact Option.some.inj ht ▸ hleft

end

end Program

end Novaio
