import Novaio.Lib.Tally
import Novaio.WhenAll.Basic

/-!
# The counter of `when_all`

`count_` is the number of children that have not decremented it, so that exactly one of them sees
itself as the last, and only when all the others are done with their results
(`WhenAll.Consistent`).
-/

namespace Novaio

open Transition Tally

/-- The child has not decremented the counter. -/
def ChildPc.Counted : ChildPc → Prop
  | .notified _ | .done => False
  | .created | .running | .suspended | .finished | .assigned | .rethrown => True

/-- Whether a child is counted can be computed. -/
instance : DecidablePred ChildPc.Counted := fun pc => by
  cases pc <;> simp only [ChildPc.Counted] <;> infer_instance

/-- The task of the child has not ended. -/
def ChildPc.Unfinished : ChildPc → Prop
  | .created | .running | .suspended => True
  | .finished | .assigned | .notified _ | .done | .rethrown => False

/-- The result of the child is in its place. -/
def ChildPc.HasResult : ChildPc → Prop
  | .assigned | .notified _ | .done => True
  | .created | .running | .suspended | .finished | .rethrown => False

/-- The child has seen itself as the last one, and has not resumed the awaiting coroutine yet. -/
abbrev ChildPc.Last (pc : ChildPc) : Prop := pc = .notified true

namespace WhenAll

variable {n : ℕ} {ν ε σ : Type*} {s t : WhenAll n ν ε σ}

/-- What holds between the counter, the children and the awaiting coroutine. -/
structure Consistent (s : WhenAll n ν ε σ) : Prop where
  /-- The counter counts the children that have not decremented it. -/
  count_eq : s.count = tally ChildPc.Counted s.pc
  /-- The last child to decrement it has resumed the awaiting coroutine, or will. -/
  wakes_eq : s.wakes.length + tally ChildPc.Last s.pc = if 0 < n ∧ s.count = 0 then 1 else 0
  /-- The tasks are started after `continuation_` is set. -/
  continuation_of_started {i : Fin n} : s.pc i ≠ .created → s.continuation
  /-- And so is the awaiting coroutine suspended. -/
  continuation_of_suspended : s.parent = .suspended → s.continuation
  /-- The tasks that the loop has not reached are not started. -/
  created_of_le {i : Fin n} : s.started ≤ i.val → s.pc i = .created
  /-- A task that has not ended has no outcome. -/
  promise_none {i : Fin n} : (s.pc i).Unfinished → s.promises i = none
  /-- A result in its place is that of the task. -/
  promise_value {i : Fin n} : (s.pc i).HasResult →
    ∃ r, s.promises i = some (.value r) ∧ s.results i = .of r
  /-- What an exception leaves is a program that has been terminated. -/
  rethrown {i : Fin n} : s.pc i = .rethrown → s.terminated ∧ ∃ e, s.promises i = some (.exception e)
  /-- The awaiting coroutine is resumed as often as it is woken, or was never suspended. -/
  returned_le : s.returned.length ≤ s.wakes.length ∨ n = 0 ∧ s.returned.length ≤ 1 ∧
    (s.parent = .running → s.returned = [])
  /-- What it got are the results. -/
  in_place : ∀ results ∈ s.returned, ∀ i, ∃ r, s.promises i = some (.value r) ∧
    results i = .of r
  /-- Without a task, it does not suspend. -/
  never_suspends : n = 0 → s.parent ≠ .suspended

/-- Nothing is started at the beginning. -/
theorem new_consistent : (new : WhenAll n ν ε σ).Consistent := by
  have hcount : tally ChildPc.Counted (new : WhenAll n ν ε σ).pc = n := by
    rw [tally_eq_card fun _ => trivial, Fintype.card_fin]
  have hlast : tally ChildPc.Last (new : WhenAll n ν ε σ).pc = 0 :=
    tally_eq_zero_iff.mpr fun _ => nofun
  refine ⟨hcount.symm, ?_, fun h => absurd rfl h, nofun, fun _ => rfl, fun _ => rfl,
    fun h => absurd h id, nofun, .inl (Nat.zero_le _), nofun, nofun⟩
  rw [hlast]
  show 0 + 0 = if 0 < n ∧ n = 0 then 1 else 0
  rw [if_neg (by omega)]

namespace Consistent

/-- A step of one child, after `continuation_` is set. -/
theorem of_child (hs : s.Consistent) {i : Fin n} {pc : ChildPc}
    (hpc : t.pc = Function.update s.pc i pc)
    (hparent : t.parent = s.parent) (hcontinuation : t.continuation = s.continuation)
    (hset : s.continuation) (hstarted : s.started ≤ t.started) (hi : i.val < t.started)
    (hpromises : ∀ j, j ≠ i → t.promises j = s.promises j)
    (hresults : ∀ j, j ≠ i → t.results j = s.results j) (hreturned : t.returned = s.returned)
    (hterminated : s.terminated → t.terminated) (hwakes : s.wakes.length ≤ t.wakes.length)
    (hcount : t.count = tally ChildPc.Counted t.pc)
    (hlast : t.wakes.length + tally ChildPc.Last t.pc = if 0 < n ∧ t.count = 0 then 1 else 0)
    (hunfinished : pc.Unfinished → t.promises i = none)
    (hvalue : pc.HasResult → ∃ r, t.promises i = some (.value r) ∧ t.results i = .of r)
    (hrethrown : pc = .rethrown → t.terminated ∧ ∃ e, t.promises i = some (.exception e))
    (hplace : ∀ results ∈ s.returned, ∃ r, t.promises i = some (.value r) ∧ results i = .of r) :
    t.Consistent := by
  have hself : t.pc i = pc := by rw [hpc, Function.update_self]
  -- The other children are where they were, with the same promises and results.
  have hother : ∀ j, j ≠ i → t.pc j = s.pc j := fun j hj => by rw [hpc, Function.update_of_ne hj]
  constructor
  case count_eq => exact hcount
  case wakes_eq => exact hlast
  case continuation_of_started =>
    intro j _
    rw [hcontinuation, hset]
  case continuation_of_suspended =>
    intro _
    rw [hcontinuation, hset]
  case created_of_le =>
    intro j hj
    have hji : j ≠ i := by
      rintro rfl
      omega
    rw [hother j hji]
    exact hs.created_of_le (by omega)
  case promise_none =>
    intro j hj
    by_cases hji : j = i
    · subst hji
      exact hunfinished (hself ▸ hj)
    · rw [hpromises j hji]
      exact hs.promise_none (hother j hji ▸ hj)
  case promise_value =>
    intro j hj
    by_cases hji : j = i
    · subst hji
      exact hvalue (hself ▸ hj)
    · rw [hpromises j hji, hresults j hji]
      exact hs.promise_value (hother j hji ▸ hj)
  case rethrown =>
    intro j hj
    by_cases hji : j = i
    · subst hji
      exact hrethrown (hself ▸ hj)
    · obtain ⟨hterm, he⟩ := hs.rethrown (hother j hji ▸ hj)
      rw [hpromises j hji]
      exact ⟨hterminated hterm, he⟩
  case returned_le =>
    rw [hreturned, hparent]
    rcases hs.returned_le with hle | hzero
    · exact .inl (Nat.le_trans hle hwakes)
    · exact .inr hzero
  case in_place =>
    intro results hmem j
    rw [hreturned] at hmem
    by_cases hji : j = i
    · subst hji
      exact hplace results hmem
    · rw [hpromises j hji]
      exact hs.in_place results hmem j
  case never_suspends =>
    rw [hparent]
    exact hs.never_suspends

/-- Of a child that is not created, the loop of `start_tasks` has passed the start. -/
theorem lt_started (hs : s.Consistent) {i : Fin n} (hi : s.pc i ≠ .created) :
    i.val < s.started := by
  by_contra hle
  exact hi (hs.created_of_le (Nat.not_lt.mp hle))

/-- The tallies after a child has moved without touching the counter. -/
theorem tallies_of_iff (hs : s.Consistent) {i : Fin n} (pc : ChildPc)
    (hcounted : pc.Counted ↔ (s.pc i).Counted) (hlast : pc.Last ↔ (s.pc i).Last) :
    s.count = tally ChildPc.Counted (Function.update s.pc i pc) ∧
      s.wakes.length + tally ChildPc.Last (Function.update s.pc i pc) =
        if 0 < n ∧ s.count = 0 then 1 else 0 := by
  rw [tally_update_of_iff hcounted, tally_update_of_iff (p := ChildPc.Last) hlast]
  exact ⟨hs.count_eq, hs.wakes_eq⟩

/-- What was returned has the value of a task that has ended. -/
theorem place_of_promise (hs : s.Consistent) {i : Fin n} :
    ∀ results ∈ s.returned, ∃ r, s.promises i = some (.value r) ∧ results i = .of r :=
  fun results hmem => hs.in_place results hmem i

/-- A child moves between places before its task has ended. -/
theorem goto (hs : s.Consistent) {i : Fin n} (pc : ChildPc) (hpc : pc.Unfinished)
    (hold : (s.pc i).Unfinished) (hnew : s.pc i ≠ .created) :
    (s.goto i pc).Consistent := by
  have hcounted : pc.Counted ↔ (s.pc i).Counted := by
    cases pc <;> cases hi : s.pc i <;> simp_all [ChildPc.Unfinished, ChildPc.Counted]
  have hlast : pc.Last ↔ (s.pc i).Last := by
    cases pc <;> cases hi : s.pc i <;> simp_all [ChildPc.Unfinished, ChildPc.Last]
  obtain ⟨h1, h2⟩ := hs.tallies_of_iff pc hcounted hlast
  refine hs.of_child rfl rfl rfl (hs.continuation_of_started hnew) (Nat.le_refl _)
    (hs.lt_started hnew) (fun _ _ => rfl) (fun _ _ => rfl) rfl id (Nat.le_refl _) h1 h2
    (fun _ => hs.promise_none hold) ?_ ?_ hs.place_of_promise
  · intro hres
    cases pc <;> simp_all [ChildPc.Unfinished, ChildPc.HasResult]
  · rintro rfl
    exact absurd hpc id

/-- Only the place in the loop of `start_tasks` changes. -/
theorem leave (hs : s.Consistent) (i : Fin n) : (s.leave i).Consistent :=
  ⟨hs.count_eq, hs.wakes_eq, hs.continuation_of_started, hs.continuation_of_suspended,
    hs.created_of_le, hs.promise_none, hs.promise_value, hs.rethrown, hs.returned_le, hs.in_place,
    hs.never_suspends⟩

/-- The awaiting coroutine awaits. -/
theorem await (hs : s.Consistent) (hp : s.parent = .running) : s.await.Consistent := by
  by_cases hn : n = 0
  · have hawait : s.await = s.awaitResume := by simp [WhenAll.await, awaitReady, hn]
    rw [hawait]
    subst hn
    refine ⟨hs.count_eq, hs.wakes_eq, fun {i} => i.elim0, nofun, fun {i} => i.elim0,
      fun {i} => i.elim0, fun {i} => i.elim0, fun {i} => i.elim0, ?_, fun _ _ i => i.elim0, nofun⟩
    have hnil : s.returned = [] := by
      rcases hs.returned_le with hle | ⟨-, -, hnil⟩
      · have hwakes := hs.wakes_eq
        rw [if_neg (by omega)] at hwakes
        exact List.length_eq_zero_iff.mp (by omega)
      · exact hnil hp
    exact .inr ⟨rfl, by simp [awaitResume, hnil], nofun⟩
  · have hawait : s.await = { s with parent := .suspended, continuation := true } := by
      simp [WhenAll.await, awaitReady, awaitSuspend, hn]
    rw [hawait]
    refine ⟨hs.count_eq, hs.wakes_eq, fun _ => rfl, fun _ => rfl, hs.created_of_le, hs.promise_none,
      hs.promise_value, hs.rethrown, ?_, hs.in_place, fun h => absurd h hn⟩
    rcases hs.returned_le with hle | ⟨hzero, -⟩
    · exact .inl hle
    · exact absurd hzero hn

/-- The loop of `start_tasks` starts the next task. -/
theorem start (hs : s.Consistent) {i : Fin n} (hp : s.parent = .suspended)
    (hi : i.val = s.started) : (s.start i).Consistent := by
  have hcreated := hs.created_of_le (Nat.le_of_eq hi.symm)
  obtain ⟨h1, h2⟩ := hs.tallies_of_iff .running (by rw [hcreated]; rfl) (by
    rw [hcreated]
    exact ⟨nofun, nofun⟩)
  refine hs.of_child rfl rfl rfl (hs.continuation_of_suspended hp) (Nat.le_succ _)
    (hi ▸ Nat.lt_succ_self _) (fun _ _ => rfl) (fun _ _ => rfl) rfl id (Nat.le_refl _) h1 h2
    (fun _ => hs.promise_none (by rw [hcreated]; trivial)) nofun nofun hs.place_of_promise

/-- A task ends. -/
theorem finish (hs : s.Consistent) {i : Fin n} (hi : s.pc i = .running)
    (o : Outcome (Option ν) ε) : (s.finish i o).Consistent := by
  have hnew : s.pc i ≠ .created := by rw [hi]; nofun
  obtain ⟨h1, h2⟩ := hs.tallies_of_iff .finished (by rw [hi]; rfl) (by
    rw [hi]
    exact ⟨nofun, nofun⟩)
  refine hs.of_child rfl rfl rfl (hs.continuation_of_started hnew) (Nat.le_refl _)
    (hs.lt_started hnew) (fun j hj => Function.update_of_ne hj _ _) (fun _ _ => rfl) rfl id
    (Nat.le_refl _) h1 h2 nofun nofun nofun ?_
  -- Nothing has been returned while the task was running.
  intro results hmem
  obtain ⟨r, hr, -⟩ := hs.in_place results hmem i
  rw [hs.promise_none (by rw [hi]; trivial)] at hr
  cases hr

/-- `run_task` takes the outcome of its task. -/
theorem takeResult (hs : s.Consistent) {i : Fin n} (hi : s.pc i = .finished)
    {o : Outcome (Option ν) ε} (ho : s.promises i = some o) : (s.takeResult i o).Consistent := by
  have hnew : s.pc i ≠ .created := by rw [hi]; nofun
  cases o with
  | value r =>
    obtain ⟨h1, h2⟩ := hs.tallies_of_iff .assigned (by rw [hi]; rfl) (by
      rw [hi]
      exact ⟨nofun, nofun⟩)
    exact hs.of_child rfl rfl rfl (hs.continuation_of_started hnew) (Nat.le_refl _)
      (hs.lt_started hnew) (fun _ _ => rfl) (fun j hj => Function.update_of_ne hj _ _) rfl id
      (Nat.le_refl _) h1 h2 nofun (fun _ => ⟨r, ho, Function.update_self ..⟩) nofun
      hs.place_of_promise
  | exception e =>
    obtain ⟨h1, h2⟩ := hs.tallies_of_iff .rethrown (by rw [hi]; rfl) (by
      rw [hi]
      exact ⟨nofun, nofun⟩)
    exact hs.of_child rfl rfl rfl (hs.continuation_of_started hnew) (Nat.le_refl _)
      (hs.lt_started hnew) (fun _ _ => rfl) (fun _ _ => rfl) rfl (fun _ => rfl)
      (Nat.le_refl _) h1 h2 nofun nofun (fun _ => ⟨rfl, e, ho⟩) hs.place_of_promise

/-- A child decrements the counter. It is the last one exactly when the counter was one. -/
theorem fetchSub (hs : s.Consistent) {i : Fin n} (hi : s.pc i = .assigned) :
    (s.fetchSub i).Consistent := by
  have hnew : s.pc i ≠ .created := by rw [hi]; nofun
  have hpos : 0 < n := Nat.lt_of_le_of_lt (Nat.zero_le _) i.isLt
  have hcounted : tally ChildPc.Counted (Function.update s.pc i (.notified (s.count == 1))) + 1 =
      tally ChildPc.Counted s.pc := tally_update_of_leave (by rw [hi]; trivial) id
  have hnotlast : ¬ (s.pc i).Last := by rw [hi]; nofun
  have hcount := hs.count_eq
  have hwakes := hs.wakes_eq
  refine hs.of_child rfl rfl rfl (hs.continuation_of_started hnew) (Nat.le_refl _)
    (hs.lt_started hnew) (fun _ _ => rfl) (fun _ _ => rfl) rfl id (Nat.le_refl _) ?_ ?_ nofun
    (fun _ => hs.promise_value (by rw [hi]; trivial)) nofun hs.place_of_promise
  · show s.count - 1 = tally _ (Function.update s.pc i (.notified (s.count == 1)))
    omega
  · show s.wakes.length + tally ChildPc.Last (Function.update s.pc i (.notified (s.count == 1))) =
      if 0 < n ∧ s.count - 1 = 0 then 1 else 0
    have hne : ¬ (0 < n ∧ s.count = 0) := by omega
    rw [if_neg hne] at hwakes
    by_cases hone : s.count = 1
    · rw [tally_update_of_join (p := ChildPc.Last) hnotlast (by simp [ChildPc.Last, hone]),
        if_pos ⟨hpos, by omega⟩]
      omega
    · rw [tally_update_of_iff (p := ChildPc.Last) (by simp [ChildPc.Last, hone, hi]),
        if_neg (by omega)]
      omega

/-- The last child resumes the awaiting coroutine, and `run_task` ends. -/
theorem wake (hs : s.Consistent) {i : Fin n} {last : Bool} (hi : s.pc i = .notified last)
    (current : Option σ) : (s.wake i last current).Consistent := by
  have hnew : s.pc i ≠ .created := by rw [hi]; nofun
  have hset := hs.continuation_of_started hnew
  have hcounted : tally ChildPc.Counted (Function.update s.pc i .done) =
      tally ChildPc.Counted s.pc := tally_update_of_iff (by rw [hi]; rfl)
  have hlast : tally ChildPc.Last (Function.update s.pc i .done) + (if last = true then 1 else 0) =
      tally ChildPc.Last s.pc := by
    cases last with
    | false =>
      exact tally_update_of_iff (p := ChildPc.Last) (f := s.pc) (by simp [ChildPc.Last, hi])
    | true => exact tally_update_of_leave (p := ChildPc.Last) hi nofun
  have hcount := hs.count_eq
  have hwakes := hs.wakes_eq
  -- The list of the wakes is longer by one where the child was the last.
  have hlength : (s.wake i last current).wakes.length =
      s.wakes.length + if last = true then 1 else 0 := by
    unfold WhenAll.wake
    have hcontinuation : ((s.goto i .done).leave i).continuation = true := hset
    cases last with
    | false => simp [WhenAll.goto, WhenAll.leave]
    | true => cases current <;> simp [hcontinuation] <;> rfl
  obtain ⟨hpc, hparent, hcont, hstarted, hpromises, hresults, hreturned, hterm, hcnt⟩ :=
    s.wake_frame i last current
  refine hs.of_child hpc hparent hcont hset (by omega) (hstarted ▸ hs.lt_started hnew)
    (fun _ _ => by rw [hpromises]) (fun _ _ => by rw [hresults]) hreturned (fun h => hterm ▸ h)
    (by omega) ?_ ?_ nofun ?_ nofun ?_
  · rw [hcnt, hpc]
    omega
  · rw [hcnt, hpc, hlength]
    omega
  · intro _
    rw [hpromises, hresults]
    exact hs.promise_value (by rw [hi]; trivial)
  · rw [hpromises]
    exact hs.place_of_promise

/-- Once it is woken, every result is in its place. -/
theorem all_in_place (hs : s.Consistent) (hw : s.wakes ≠ []) (i : Fin n) :
    ∃ r, s.promises i = some (.value r) ∧ s.results i = .of r := by
  have hpos := List.length_pos_iff.mpr hw
  have hwakes := hs.wakes_eq
  have hzero : s.count = 0 := by
    by_contra hne
    rw [if_neg (fun h => hne h.2)] at hwakes
    omega
  rw [hs.count_eq, tally_eq_zero_iff] at hzero
  refine hs.promise_value ?_
  have hnot := hzero i
  cases hi : s.pc i <;> simp_all [ChildPc.Counted, ChildPc.HasResult]

/-- The awaiting coroutine is resumed. -/
theorem awaitResume (hs : s.Consistent) (hlt : s.returned.length < s.wakes.length) :
    s.awaitResume.Consistent := by
  have hw : s.wakes ≠ [] := by
    rintro hnil
    rw [hnil] at hlt
    exact absurd hlt (Nat.not_lt_zero _)
  refine ⟨hs.count_eq, hs.wakes_eq, hs.continuation_of_started, nofun, hs.created_of_le,
    hs.promise_none, hs.promise_value, hs.rethrown, ?_, ?_, fun _ => nofun⟩
  · left
    show (s.returned ++ [s.results]).length ≤ s.wakes.length
    rw [List.length_append, List.length_singleton]
    omega
  · intro results hmem i
    rcases List.mem_append.mp hmem with hmem | hmem
    · exact hs.in_place results hmem i
    · obtain rfl := List.mem_singleton.mp hmem
      exact hs.all_in_place hw i

/-- Every step keeps this. -/
theorem step (hs : s.Consistent) {a : WhenAllStep n ν ε σ} (hstep : whenAllStep s a t) :
    t.Consistent := by
  cases (StepCase.of_step hstep).2 with
  | await hparent => exact hs.await hparent
  | start i hparent hi => exact hs.start hparent hi
  | suspend i hi =>
    exact (hs.goto .suspended trivial (by rw [hi]; trivial) (by rw [hi]; nofun)).leave i
  | resume i hi => exact hs.goto .running trivial (by rw [hi]; trivial) (by rw [hi]; nofun)
  | finish i outcome hi => exact hs.finish hi outcome
  | takeResult i outcome hi houtcome => exact hs.takeResult hi houtcome
  | fetchSub i hi => exact hs.fetchSub hi
  | wake i last current hi => exact hs.wake hi current
  | resumeParent hlt => exact hs.awaitResume hlt

/-- When all children are done, the resumption of the awaiting coroutine is arranged. -/
theorem wakes_length (hs : s.Consistent) (hn : 0 < n) (hall : ∀ i, s.pc i = .done) :
    s.wakes.length = 1 := by
  have hwakes := hs.wakes_eq
  have hcount : s.count = 0 := by
    rw [hs.count_eq, tally_eq_zero_iff]
    intro i
    rw [hall i]
    exact id
  have hlast : tally ChildPc.Last s.pc = 0 := by
    rw [tally_eq_zero_iff]
    intro i hi
    rw [hall i] at hi
    cases hi
  rw [if_pos ⟨hn, hcount⟩] at hwakes
  omega

end Consistent

end WhenAll

end Novaio
