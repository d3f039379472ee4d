import Mathlib.Algebra.Order.BigOperators.Group.Finset
import Novaio.WhenAll.Consistent

/-!
# `when_all` resumes the awaiting coroutine

A child whose task has returned ends its `run_task` with at most three more steps, none of which
waits for another child. Where no task throws, the loop of `start_tasks` therefore gets to every
task, and once all of them have returned the last `run_task` to decrement the counter resumes the
awaiting coroutine (`WhenAll.Resumes`).
-/

namespace Novaio

open Transition Tally

/-- How `notify` resumes the awaiting coroutine on a thread whose `Scheduler::current()` is
given. -/
def Wake.of {σ : Type*} : Option σ → Wake σ
  | some scheduler => .schedule scheduler
  | none => .resume

/-- The steps that a child has ahead of it, at least. -/
def ChildPc.left : ChildPc → ℕ
  | .created => 6
  | .suspended => 5
  | .running => 4
  | .finished => 3
  | .assigned => 2
  | .notified _ => 1
  | .done | .rethrown => 0

/-- The child has the control of its thread. -/
def ChildPc.Busy : ChildPc → Prop
  | .running | .finished | .assigned | .notified _ | .rethrown => True
  | .created | .suspended | .done => False

section Steps

variable {n : ℕ} {ν ε σ : Type*}

/-- A step of a `run_task` whose task has ended, or of the awaiting coroutine that is resumed. The
thread of each child has the given scheduler. -/
def WhenAllStep.Ends (current : Fin n → Option σ) : WhenAllStep n ν ε σ → Prop
  | .takeResult _ | .fetchSub _ | .resumeParent => True
  | .wake i c => c = current i
  | .await | .start _ | .suspend _ | .resume _ | .finish _ _ => False

/-- A step of the awaiting coroutine or of a child that does not suspend and returns the given
value. -/
def WhenAllStep.Goes (v : Fin n → Option ν) (current : Fin n → Option σ) :
    WhenAllStep n ν ε σ → Prop
  | .finish i outcome => outcome = .value (v i)
  | .wake i c => c = current i
  | .suspend _ => False
  | .await | .start _ | .resume _ | .takeResult _ | .fetchSub _ | .resumeParent => True

/-- The steps that end a `run_task` are steps of children that return. -/
theorem WhenAllStep.Ends.goes {current : Fin n → Option σ} {a : WhenAllStep n ν ε σ}
    (h : a.Ends current) (v : Fin n → Option ν) : a.Goes v current := by
  cases a with
  | await | start i | suspend i | resume i | finish i outcome => exact h.elim
  | wake i c => exact h
  | takeResult i | fetchSub i | resumeParent => trivial

end Steps

namespace WhenAll

variable {n : ℕ} {ν ε σ : Type*} {s t : WhenAll n ν ε σ}

/-- The awaiting coroutine is resumed. The child that has seen itself as the last one arranges it,
and no other (`arranges`). A `run_task` whose task has returned can go on whatever the others do
(`goes_on`), and when all of them have returned, this leads to one resumption (`joined`). The tasks
get to this point, unless one of them throws (`completes`). -/
structure Resumes (s : WhenAll n ν ε σ) : Prop where
  arranges (i : Fin n) (current : Option σ) (t : WhenAll n ν ε σ) :
    whenAllStep s (.wake i current) t → t.pc i = .done ∧
      t.wakes = s.wakes ++ if s.pc i = .notified true then [.of current] else []
  goes_on (current : Fin n → Option σ) (i : Fin n) (r : Option ν) : s.terminated = false →
    s.promises i = some (.value r) → s.pc i ≠ .done →
      ∃ a t, whenAllStep s a t ∧ a.Ends current ∧ (t.pc i).left + 1 = (s.pc i).left
  joined (current : Fin n → Option σ) : 0 < n → s.terminated = false →
    (∀ i, ∃ r, s.promises i = some (.value r)) →
      ∃ t, Reachable (fun s a t => whenAllStep s a t ∧ a.Ends current) s t ∧
        (∀ i, t.pc i = .done) ∧
        (∃ w, t.wakes = [w] ∧ (s.wakes = [] → ∃ i, w = .of (current i))) ∧
        ∃ results, t.returned = [results] ∧
          ∀ i r, s.promises i = some (.value r) → results i = .of r
  completes (v : Fin n → Option ν) (current : Fin n → Option σ) : s.terminated = false →
    (∀ i outcome, s.promises i = some outcome → outcome = .value (v i)) →
      ∃ t, Reachable (fun s a t => whenAllStep s a t ∧ a.Goes v current) s t ∧
        (∀ i, t.pc i = .done) ∧ (∀ i, t.promises i = some (.value (v i))) ∧
        t.returned = [fun i => .of (v i)]

/-- What holds of the loop of `start_tasks`: it waits for a child only while that has the control,
and it has not reached the tasks that are not started. A task that has ended has an outcome, and the
awaiting coroutine goes on when it has its results. -/
structure Looping (s : WhenAll n ν ε σ) : Prop where
  busy {i : Fin n} : s.starting = some i → (s.pc i).Busy
  started_le {i : Fin n} : s.pc i = .created → s.started ≤ i.val
  ended {i : Fin n} : s.pc i = .finished → s.promises i ≠ none
  resumed : s.parent = .resumed → s.returned ≠ []

/-- Nothing is started at the beginning. -/
theorem new_looping : (new : WhenAll n ν ε σ).Looping :=
  ⟨fun h => by simp [new] at h, fun _ => Nat.zero_le _, fun h => by simp [new] at h,
    fun h => by simp [new] at h⟩

namespace Looping

/-- A step of one child. -/
theorem of_child (hs : s.Looping) {i : Fin n} {pc : ChildPc}
    (hpc : t.pc = Function.update s.pc i pc) (hcreated : pc ≠ .created)
    (hstarting : ∀ j, t.starting = some j → s.starting = some j ∧ (j = i → pc.Busy))
    (hpromises : ∀ j, j ≠ i → t.promises j = s.promises j)
    (hended : pc = .finished → t.promises i ≠ none) (hstarted : t.started = s.started)
    (hparent : t.parent = s.parent) (hreturned : t.returned = s.returned) : t.Looping := by
  constructor
  case busy =>
    intro j hj
    obtain ⟨hold, hbusy⟩ := hstarting j hj
    rw [hpc]
    by_cases hji : j = i
    · subst hji
      rw [Function.update_self]
      exact hbusy rfl
    · rw [Function.update_of_ne hji]
      exact hs.busy hold
  case started_le =>
    intro j hj
    have hji : j ≠ i := by
      rintro rfl
      rw [hpc, Function.update_self] at hj
      exact hcreated hj
    rw [hpc, Function.update_of_ne hji] at hj
    exact hstarted ▸ hs.started_le hj
  case ended =>
    intro j hj
    by_cases hji : j = i
    · subst hji
      rw [hpc, Function.update_self] at hj
      exact hended hj
    · rw [hpc, Function.update_of_ne hji] at hj
      rw [hpromises j hji]
      exact hs.ended hj
  case resumed =>
    rw [hparent, hreturned]
    exact hs.resumed

/-- A child that leaves the loop. -/
theorem of_leave {i j : Fin n} (h : (s.leave i).starting = some j) :
    s.starting = some j ∧ j ≠ i := by
  unfold WhenAll.leave at h
  obtain ⟨hi, h⟩ := Option.ite_none_left_eq_some.mp h
  refine ⟨h, fun hji => hi ?_⟩
  rw [← hji]
  exact h

/-- Every step keeps this. -/
theorem step (hs : s.Looping) {a : WhenAllStep n ν ε σ} (hstep : whenAllStep s a t) :
    t.Looping := by
  cases (StepCase.of_step hstep).2 with
  | await hparent =>
    have hret : s.awaitResume.Looping :=
      ⟨hs.busy, hs.started_le, hs.ended, fun _ h => by simp [WhenAll.awaitResume] at h⟩
    unfold WhenAll.await awaitSuspend
    split_ifs
    · exact hret
    · exact hret
    · exact ⟨hs.busy, hs.started_le, hs.ended, fun h => by simp at h⟩
  | start i hparent hi =>
    constructor
    case busy =>
      intro j hj
      obtain rfl : i = j := by simpa [WhenAll.start] using hj
      simp [WhenAll.start, goto, ChildPc.Busy]
    case started_le =>
      intro j hj
      have hji : j ≠ i := by
        rintro rfl
        simp [WhenAll.start, goto] at hj
      have hle := hs.started_le (i := j) (by simpa [WhenAll.start, goto, hji] using hj)
      have hne : j.val ≠ i.val := fun h => hji (Fin.ext h)
      change s.started + 1 ≤ j.val
      omega
    case ended =>
      intro j hj
      by_cases hji : j = i
      · simp [WhenAll.start, goto, hji] at hj
      · exact hs.ended (by simpa [WhenAll.start, goto, hji] using hj)
    case resumed => exact hs.resumed
  | suspend i hi =>
    exact hs.of_child rfl (by simp)
      (fun j hj => ⟨(of_leave hj).1, fun h => absurd h (of_leave hj).2⟩) (fun _ _ => rfl)
      (fun h => by simp at h) rfl rfl rfl
  | resume i hi =>
    exact hs.of_child rfl (by simp) (fun j hj => ⟨hj, fun _ => trivial⟩) (fun _ _ => rfl)
      (fun h => by simp at h) rfl rfl rfl
  | finish i outcome hi =>
    exact hs.of_child rfl (by simp) (fun j hj => ⟨hj, fun _ => trivial⟩)
      (fun j hj => Function.update_of_ne hj _ _) (fun _ => by simp [WhenAll.finish]) rfl rfl rfl
  | takeResult i outcome hi houtcome =>
    cases outcome with
    | value r =>
      exact hs.of_child rfl (by simp) (fun j hj => ⟨hj, fun _ => trivial⟩) (fun _ _ => rfl)
        (fun h => by simp at h) rfl rfl rfl
    | exception e =>
      exact hs.of_child rfl (by simp) (fun j hj => ⟨hj, fun _ => trivial⟩) (fun _ _ => rfl)
        (fun h => by simp at h) rfl rfl rfl
  | fetchSub i hi =>
    exact hs.of_child rfl (by simp) (fun j hj => ⟨hj, fun _ => trivial⟩) (fun _ _ => rfl)
      (fun h => by simp at h) rfl rfl rfl
  | wake i last current hi =>
    obtain ⟨hpc, hparent, -, hstarted, hpromises, -, hreturned, -, -⟩ := s.wake_frame i last current
    refine hs.of_child hpc (by simp) (fun j hj => ?_) (fun _ _ => by rw [hpromises])
      (fun h => by simp at h) hstarted hparent hreturned
    have hleave : ((s.goto i .done).leave i).starting = some j := by
      rw [← hj]
      unfold WhenAll.wake
      dsimp only
      split_ifs
      · cases current <;> rfl
      · rfl
    exact ⟨(of_leave hleave).1, fun h => absurd h (of_leave hleave).2⟩
  | resumeParent hlt =>
    exact ⟨hs.busy, hs.started_le, hs.ended, fun _ h => by simp [WhenAll.awaitResume] at h⟩

end Looping

/-- What the end of a `run_task` adds to the wakes, once `continuation_` is set. -/
theorem wake_wakes (hset : s.continuation = true) (i : Fin n) (last : Bool) (current : Option σ) :
    (s.wake i last current).wakes = s.wakes ++ if last = true then [.of current] else [] := by
  have hleave : ((s.goto i .done).leave i).continuation = true := hset
  cases last with
  | false => simp [wake, goto, leave]
  | true => cases current <;> simp [wake, hleave, Wake.of] <;> rfl

/-- The step of `run_task` that is next, where its task has returned. -/
theorem exists_ends (hs : s.Consistent) (hrun : s.terminated = false) (current : Fin n → Option σ)
    {i : Fin n} {r : Option ν} (hr : s.promises i = some (.value r)) (hi : s.pc i ≠ .done) :
    ∃ a t pc, whenAllStep s a t ∧ a.Ends current ∧ t.pc = Function.update s.pc i pc ∧
      pc.left + 1 = (s.pc i).left ∧ t.parent = s.parent ∧ t.returned = s.returned := by
  have hunfinished : ¬ (s.pc i).Unfinished := fun h => by
    rw [hs.promise_none h] at hr
    cases hr
  cases hpc : s.pc i with
  | created | running | suspended => exact (hunfinished (by rw [hpc]; trivial)).elim
  | finished =>
    exact ⟨.takeResult i, s.takeResult i (.value r), .assigned,
      by simp [whenAllStep, step, hrun, next, hr, hpc], trivial, rfl, rfl, rfl, rfl⟩
  | assigned =>
    exact ⟨.fetchSub i, s.fetchSub i, .notified (s.count == 1),
      by simp [whenAllStep, step, hrun, next, hpc], trivial, rfl, rfl, rfl, rfl⟩
  | notified last =>
    obtain ⟨hupdate, hparent, -, -, -, -, hreturned, -, -⟩ := s.wake_frame i last (current i)
    exact ⟨.wake i (current i), s.wake i last (current i), .done,
      by simp [whenAllStep, step, hrun, next, hpc], rfl, hupdate, rfl, hparent, hreturned⟩
  | done => exact (hi hpc).elim
  | rethrown =>
    rw [(hs.rethrown hpc).1] at hrun
    cases hrun

/-- A bound on the steps that are left until the awaiting coroutine has its results. -/
def work (s : WhenAll n ν ε σ) : ℕ :=
  (if s.parent = .running then 1 else 0) + ∑ i, (s.pc i).left +
    if s.returned = [] then 1 else 0

/-- A step of a child. -/
theorem work_lt {i : Fin n} {pc : ChildPc} (hpc : t.pc = Function.update s.pc i pc)
    (hleft : pc.left < (s.pc i).left) (hparent : t.parent = s.parent)
    (hreturned : t.returned = s.returned) : t.work < s.work := by
  have hsum : ∑ j, (t.pc j).left + (s.pc i).left = ∑ j, (s.pc j).left + (t.pc i).left :=
    sum_of_eq_off (f := fun j => (t.pc j).left) (g := fun j => (s.pc j).left) fun j hj => by
      rw [hpc, Function.update_of_ne hj]
  have hi : t.pc i = pc := by rw [hpc, Function.update_self]
  rw [hi] at hsum
  simp only [work, hparent, hreturned]
  omega

/-- Once the awaiting coroutine goes on only the children have steps left. -/
theorem awaitResume_work (s : WhenAll n ν ε σ) : s.awaitResume.work = ∑ i, (s.pc i).left := by
  have hpc : s.awaitResume.pc = s.pc := rfl
  have hmore : s.awaitResume.returned ≠ [] := List.append_ne_nil_of_right_ne_nil _ (by simp)
  have hresumed : s.awaitResume.parent ≠ .running := by simp [awaitResume]
  rw [work, hpc, if_neg hmore, if_neg hresumed]
  omega

/-- The awaiting coroutine awaits. -/
theorem await_work (hparent : s.parent = .running) : s.await.work < s.work := by
  have hwork : ∑ i, (s.pc i).left < s.work := by
    rw [work, if_pos hparent]
    omega
  unfold await awaitSuspend
  split_ifs
  · rwa [awaitResume_work]
  · rwa [awaitResume_work]
  · simp [work, hparent]

/-- The awaiting coroutine gets its results. -/
theorem resume_work (hreturned : s.returned = []) : s.awaitResume.work < s.work := by
  rw [awaitResume_work, work, if_pos hreturned]
  omega

/-- What holds of a run from `s₀` in which the children return the given values on threads with the
given schedulers. -/
structure Returning (s : WhenAll n ν ε σ) (v : Fin n → Option ν) (current : Fin n → Option σ)
    (s₀ : WhenAll n ν ε σ) : Prop where
  consistent : s.Consistent
  looping : s.Looping
  running : s.terminated = false
  values : ∀ i outcome, s.promises i = some outcome → outcome = .value (v i)
  wakes : ∀ w ∈ s.wakes, w ∈ s₀.wakes ∨ ∃ i, w = .of (current i)

/-- The steps that end a `run_task` leave the outcomes of the tasks. -/
theorem promises_of_ends {a : WhenAllStep n ν ε σ} {current : Fin n → Option σ}
    (hstep : whenAllStep s a t) (ha : a.Ends current) : t.promises = s.promises := by
  cases (StepCase.of_step hstep).2 with
  | await hparent => exact ha.elim
  | start i hparent hi => exact ha.elim
  | suspend i hi => exact ha.elim
  | resume i hi => exact ha.elim
  | finish i outcome hi => exact ha.elim
  | takeResult i outcome hi houtcome => cases outcome <;> rfl
  | wake i last c hi =>
    obtain ⟨-, -, -, -, hpromises, -⟩ := s.wake_frame i last c
    exact hpromises
  | fetchSub i hi => rfl
  | resumeParent hlt => rfl

namespace Returning

variable {v : Fin n → Option ν} {current : Fin n → Option σ} {s₀ : WhenAll n ν ε σ}

/-- The steps of such a run keep this. -/
theorem step (hs : s.Returning v current s₀) {a : WhenAllStep n ν ε σ} (hstep : whenAllStep s a t)
    (ha : a.Goes v current) : t.Returning v current s₀ := by
  have hsame : t.terminated = s.terminated → t.promises = s.promises → t.wakes = s.wakes →
      t.Returning v current s₀ := fun hterminated hpromises hwakes =>
    ⟨hs.consistent.step hstep, hs.looping.step hstep, hterminated ▸ hs.running,
      hpromises ▸ hs.values, hwakes ▸ hs.wakes⟩
  cases (StepCase.of_step hstep).2 with
  | await hparent =>
    refine hsame ?_ ?_ ?_ <;> unfold WhenAll.await awaitSuspend <;> split_ifs <;> rfl
  | suspend i hi => exact ha.elim
  | finish i outcome hi =>
    refine ⟨hs.consistent.step hstep, hs.looping.step hstep, hs.running, ?_, hs.wakes⟩
    intro j o ho
    by_cases hji : j = i
    · subst hji
      obtain rfl : outcome = o := by simpa [WhenAll.finish] using ho
      exact ha
    · exact hs.values j o (by simpa [WhenAll.finish, goto, hji] using ho)
  | takeResult i outcome hi houtcome =>
    obtain rfl := hs.values i outcome houtcome
    exact hsame rfl rfl rfl
  | wake i last c hi =>
    obtain rfl : c = current i := ha
    obtain ⟨-, -, -, -, hpromises, -, -, hterminated, -⟩ := s.wake_frame i last (current i)
    refine ⟨hs.consistent.step hstep, hs.looping.step hstep, hterminated ▸ hs.running,
      hpromises ▸ hs.values, fun w hw => ?_⟩
    have hset := hs.consistent.continuation_of_started (i := i) (by simp [hi])
    rw [wake_wakes hset] at hw
    rcases List.mem_append.mp hw with hw | hw
    · exact hs.wakes w hw
    · cases last with
      | false => simp at hw
      | true => exact .inr ⟨i, by simpa using hw⟩
  | start i hparent hi => exact hsame rfl rfl rfl
  | resume i hi => exact hsame rfl rfl rfl
  | fetchSub i hi => exact hsame rfl rfl rfl
  | resumeParent hlt => exact hsame rfl rfl rfl

/-- A child that is started and not done has a step, which is one of its `run_task` if its task has
ended. -/
theorem exists_child (hs : s.Returning v current s₀) {i : Fin n} (hcreated : s.pc i ≠ .created)
    (hdone : s.pc i ≠ .done) :
    ∃ a t pc, whenAllStep s a t ∧ a.Goes v current ∧ (s.promises i ≠ none → a.Ends current) ∧
      t.pc = Function.update s.pc i pc ∧ pc.left < (s.pc i).left ∧ t.parent = s.parent ∧
      t.returned = s.returned := by
  cases hp : s.promises i with
  | none =>
    cases hpc : s.pc i with
    | running =>
      exact ⟨.finish i (.value (v i)), s.finish i (.value (v i)), .finished,
        by simp [whenAllStep, WhenAll.step, hs.running, next, hpc], rfl, by simp, rfl,
        by simp [ChildPc.left], rfl, rfl⟩
    | suspended =>
      exact ⟨.resume i, s.goto i .running, .running,
        by simp [whenAllStep, WhenAll.step, hs.running, next, hpc], trivial, by simp, rfl,
        by simp [ChildPc.left], rfl, rfl⟩
    | created => exact (hcreated hpc).elim
    | done => exact (hdone hpc).elim
    | finished => exact (hs.looping.ended hpc hp).elim
    | assigned | notified _ =>
      obtain ⟨r, hr, -⟩ := hs.consistent.promise_value (i := i) (by rw [hpc]; trivial)
      rw [hp] at hr
      cases hr
    | rethrown =>
      obtain ⟨-, e, he⟩ := hs.consistent.rethrown hpc
      rw [hp] at he
      cases he
  | some outcome =>
    obtain rfl := hs.values i outcome hp
    obtain ⟨a, t, pc, hstep, hends, hpc, hleft, hparent, hreturned⟩ :=
      exists_ends hs.consistent hs.running current hp hdone
    exact ⟨a, t, pc, hstep, hends.goes v, fun _ => hends, hpc, by omega, hparent, hreturned⟩

/-- While a task is not started, the awaiting coroutine has no results. -/
theorem returned_eq_nil (hs : s.Returning v current s₀) {i : Fin n} (hi : s.pc i = .created) :
    s.returned = [] := by
  by_contra hne
  obtain ⟨results, hmem⟩ := List.exists_mem_of_ne_nil _ hne
  obtain ⟨r, hr, -⟩ := hs.consistent.in_place results hmem i
  rw [hs.consistent.promise_none (by rw [hi]; trivial)] at hr
  cases hr

/-- The awaiting coroutine or the loop of `start_tasks` goes on, where nothing is returned. -/
theorem exists_parent (hs : s.Returning v current s₀) (hreturned : s.returned = [])
    (hidle : ∀ i, s.pc i = .created ∨ s.pc i = .done)
    (hcreated : n = 0 ∨ ∃ i, s.pc i = .created) :
    ∃ a t, whenAllStep s a t ∧ a.Goes v current ∧ t.work < s.work := by
  cases hparent : s.parent with
  | running =>
    exact ⟨.await, s.await, by simp [whenAllStep, WhenAll.step, hs.running, next, hparent], trivial,
      await_work hparent⟩
  | suspended =>
    obtain rfl | ⟨i, hi⟩ := hcreated
    · exact (hs.consistent.never_suspends rfl hparent).elim
    · -- The loop has the control, and has not reached the end.
      have hstarting : s.starting = none := by
        cases hj : s.starting with
        | none => rfl
        | some j =>
          have hbusy := hs.looping.busy hj
          rcases hidle j with h | h <;> rw [h] at hbusy <;> exact hbusy.elim
      have hlt : s.started < n := Nat.lt_of_le_of_lt (hs.looping.started_le hi) i.isLt
      refine ⟨.start ⟨s.started, hlt⟩, s.start ⟨s.started, hlt⟩,
        by simp [whenAllStep, WhenAll.step, hs.running, next, hparent, hstarting], trivial, ?_⟩
      refine work_lt (i := ⟨s.started, hlt⟩) rfl ?_ rfl rfl
      rw [hs.consistent.created_of_le (i := ⟨s.started, hlt⟩) (Nat.le_refl _)]
      simp [ChildPc.left]
  | resumed => exact (hs.looping.resumed hparent hreturned).elim

/-- Until the awaiting coroutine has its results and all children are done, there is a step that
leaves less to do. Once all tasks have ended, it is one that ends a `run_task` or resumes the
awaiting coroutine. -/
theorem exists_go (hs : s.Returning v current s₀)
    (hgoal : ¬ ((∀ i, s.pc i = .done) ∧ s.returned ≠ [])) :
    ∃ a t, whenAllStep s a t ∧ a.Goes v current ∧ t.work < s.work ∧
      (0 < n → (∀ i, s.promises i ≠ none) → a.Ends current) := by
  by_cases hidle : ∀ i, s.pc i = .created ∨ s.pc i = .done
  case neg =>
    obtain ⟨i, hi⟩ := not_forall.mp hidle
    rw [not_or] at hi
    obtain ⟨a, t, pc, hstep, hgoes, hends, hpc, hleft, hparent, hreturned⟩ :=
      hs.exists_child hi.1 hi.2
    exact ⟨a, t, hstep, hgoes, work_lt hpc hleft hparent hreturned, fun _ h => hends (h i)⟩
  by_cases hcreated : n = 0 ∨ ∃ i, s.pc i = .created
  · have hnil : s.returned = [] := by
      rcases hcreated with hn | ⟨i, hi⟩
      · by_contra hne
        exact hgoal ⟨fun i => absurd i.isLt (by omega), hne⟩
      · exact hs.returned_eq_nil hi
    obtain ⟨a, t, hstep, hgoes, hwork⟩ := hs.exists_parent hnil hidle hcreated
    refine ⟨a, t, hstep, hgoes, hwork, fun hn hall => ?_⟩
    rcases hcreated with hzero | ⟨i, hi⟩
    · omega
    · exact (hall i (hs.consistent.promise_none (by rw [hi]; trivial))).elim
  · -- All children are done, so that the awaiting coroutine is to be resumed.
    obtain ⟨hn, hnone⟩ := not_or.mp hcreated
    have hall : ∀ i, s.pc i = .done := fun i => (hidle i).resolve_left fun h => hnone ⟨i, h⟩
    have hnil : s.returned = [] := by
      by_contra hne
      exact hgoal ⟨hall, hne⟩
    have hlt : s.returned.length < s.wakes.length := by
      rw [hnil, hs.consistent.wakes_length (Nat.pos_of_ne_zero hn) hall]
      exact Nat.zero_lt_one
    exact ⟨.resumeParent, s.awaitResume,
      by simp [whenAllStep, WhenAll.step, hs.running, next, hlt], trivial, resume_work hnil,
      fun _ _ => trivial⟩

/-- What is returned are the values. -/
theorem returned_eq (hs : s.Returning v current s₀) (hall : ∀ i, s.pc i = .done)
    (hreturned : s.returned ≠ []) :
    (∀ i, s.promises i = some (.value (v i))) ∧ s.returned = [fun i => .of (v i)] := by
  have hpromises : ∀ i, s.promises i = some (.value (v i)) := fun i => by
    obtain ⟨r, hr, -⟩ := hs.consistent.promise_value (i := i) (by rw [hall i]; trivial)
    rw [hr, hs.values i _ hr]
  refine ⟨hpromises, ?_⟩
  have hlength : s.returned.length ≤ 1 := by
    have hwakes := hs.consistent.wakes_eq
    rcases hs.consistent.returned_le with hle | ⟨-, hle, -⟩
    · split_ifs at hwakes <;> omega
    · exact hle
  obtain ⟨results, hresults⟩ := List.exists_mem_of_ne_nil _ hreturned
  obtain hone : s.returned = [results] := by
    obtain ⟨x, hx⟩ := List.length_eq_one_iff.mp
      (Nat.le_antisymm hlength (List.length_pos_iff.mpr hreturned))
    rw [hx] at hresults ⊢
    rw [List.mem_singleton.mp hresults]
  rw [hone]
  congr 1
  funext i
  obtain ⟨r, hr, hri⟩ := hs.consistent.in_place results hresults i
  have hvalue := hs.values i _ hr
  rw [hri]
  injection hvalue with h
  rw [h]

/-- The run goes on until the awaiting coroutine has the values. -/
theorem completes (hs : s.Returning v current s₀) :
    ∃ t, Reachable (fun s a t => whenAllStep s a t ∧ a.Goes v current) s t ∧
      t.Returning v current s₀ ∧ (∀ i, t.pc i = .done) ∧ t.returned ≠ [] := by
  have hgo : ∀ s : WhenAll n ν ε σ, s.Returning v current s₀ →
      ¬ ((∀ i, s.pc i = .done) ∧ s.returned ≠ []) →
      ∃ t, Reachable (fun s a t => whenAllStep s a t ∧ a.Goes v current) s t ∧
        t.Returning v current s₀ ∧ t.work < s.work := by
    intro s hs hgoal
    obtain ⟨a, t, hstep, hgoes, hwork, -⟩ := hs.exists_go hgoal
    exact ⟨t, (Reachable.refl _ s).step ⟨hstep, hgoes⟩, hs.step hstep hgoes, hwork⟩
  exact Reachable.of_decreasing work hgo hs

/-- The same where all tasks have ended. It takes only the rest of the `run_task`s. -/
theorem joined (hs : s.Returning v current s₀) (hn : 0 < n) (hall : ∀ i, s.promises i ≠ none) :
    ∃ t, Reachable (fun s a t => whenAllStep s a t ∧ a.Ends current) s t ∧
      t.Returning v current s₀ ∧ (∀ i, t.pc i = .done) ∧ t.returned ≠ [] := by
  have hgo : ∀ s : WhenAll n ν ε σ, (s.Returning v current s₀ ∧ ∀ i, s.promises i ≠ none) →
      ¬ ((∀ i, s.pc i = .done) ∧ s.returned ≠ []) →
      ∃ t, Reachable (fun s a t => whenAllStep s a t ∧ a.Ends current) s t ∧
        (t.Returning v current s₀ ∧ ∀ i, t.promises i ≠ none) ∧ t.work < s.work := by
    rintro s ⟨hs, hall⟩ hgoal
    obtain ⟨a, t, hstep, hgoes, hwork, hends⟩ := hs.exists_go hgoal
    have ha := hends hn hall
    exact ⟨t, (Reachable.refl _ s).step ⟨hstep, ha⟩,
      ⟨hs.step hstep hgoes, promises_of_ends hstep ha ▸ hall⟩, hwork⟩
  obtain ⟨t, hreach, ht, hgoal⟩ := Reachable.of_decreasing work hgo ⟨hs, hall⟩
  exact ⟨t, hreach, ht.1, hgoal⟩

end Returning

/-- The awaiting coroutine is resumed. -/
theorem Consistent.resumes (hs : s.Consistent) (hloop : s.Looping) : s.Resumes := by
  constructor
  case arranges =>
    intro i current t hstep
    obtain ⟨-, hcase⟩ := StepCase.of_step hstep
    cases hcase with
    | wake i last current hi =>
      obtain ⟨hpc, -⟩ := s.wake_frame i last current
      have hset := hs.continuation_of_started (i := i) (by simp [hi])
      refine ⟨by rw [hpc, Function.update_self], ?_⟩
      rw [wake_wakes hset, hi]
      cases last <;> simp
  case goes_on =>
    intro current i r hrun hr hi
    obtain ⟨a, t, pc, hstep, hends, hpc, hleft, -⟩ := exists_ends hs hrun current hr hi
    refine ⟨a, t, hstep, hends, ?_⟩
    rw [hpc, Function.update_self]
    exact hleft
  case joined =>
    intro current hn hrun hall
    choose v hv using hall
    have hstart : s.Returning v current s :=
      ⟨hs, hloop, hrun, fun i outcome h => by simpa [hv i] using h.symm, fun w hw => .inl hw⟩
    obtain ⟨t, hreach, ht, hdone, hreturned⟩ := hstart.joined hn fun i => by simp [hv i]
    refine ⟨t, hreach, hdone, ?_, ?_⟩
    · obtain ⟨w, hw⟩ := List.length_eq_one_iff.mp (ht.consistent.wakes_length hn hdone)
      refine ⟨w, hw, fun hnil => ?_⟩
      rcases ht.wakes w (by simp [hw]) with h | h
      · simp [hnil] at h
      · exact h
    · obtain ⟨-, hresults⟩ := ht.returned_eq hdone hreturned
      refine ⟨_, hresults, fun i r hr => ?_⟩
      rw [hv i] at hr
      obtain rfl : v i = r := by simpa using hr
      rfl
  case completes =>
    intro v current hrun hvalues
    have hstart : s.Returning v current s := ⟨hs, hloop, hrun, hvalues, fun w hw => .inl hw⟩
    obtain ⟨t, hreach, ht, hdone, hreturned⟩ := hstart.completes
    obtain ⟨hpromises, hresults⟩ := ht.returned_eq hdone hreturned
    exact ⟨t, hreach, hdone, hpromises, hresults⟩

end WhenAll

end Novaio
