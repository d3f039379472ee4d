import Novaio.WhenAll.Join

/-!
# `when_all` and exceptions

The exception of a task is rethrown in the `run_task` that awaits it, and the helper coroutine of
`run_task` lets none through: its `unhandled_exception` is `std::terminate`. So a task that throws
ends the program, as soon as its `run_task` takes the outcome, and `when_all` never hands an
exception to the awaiting coroutine (`when_all_joins_or_terminates`).
-/

namespace Novaio

open Transition

namespace WhenAll

variable {n : ℕ} {ν ε σ : Type*} {s t : WhenAll n ν ε σ}

/-- Some task has thrown. -/
def Threw (s : WhenAll n ν ε σ) : Prop := ∃ i e, s.promises i = some (.exception e)

/-- `when_all` resumes the awaiting coroutine, once all tasks have returned, or a task has thrown
and the program ends. -/
structure JoinsOrTerminates (s : WhenAll n ν ε σ) : Prop where
  /-- The awaiting coroutine is resumed at most once, not before all tasks have returned. -/
  wakes_le : s.wakes.length ≤ 1
  not_early : s.wakes ≠ [] → ∀ i, ∃ r, s.promises i = some (.value r)
  /-- It is resumed when they are done. -/
  not_missed : 0 < n → (∀ i, s.pc i = .done) → s.wakes.length = 1
  /-- It is not resumed where a task has thrown. -/
  not_resumed : 0 < n → s.Threw → s.wakes = [] ∧ s.returned = []
  /-- The program ends only because a task has thrown. -/
  threw_of_terminated : s.terminated → s.Threw
  /-- While the program runs, a task that has thrown ends it with the next step of its
  `run_task`. -/
  terminates (i : Fin n) (e : ε) : s.promises i = some (.exception e) → s.terminated = false →
    s.pc i = .finished ∧ ∃ t, whenAllStep s (.takeResult i) t ∧ t.terminated
  /-- When it has ended, nothing is done any more. -/
  ended (a : WhenAllStep n ν ε σ) (t : WhenAll n ν ε σ) : s.terminated → ¬ whenAllStep s a t
  /-- Where all tasks return, the awaiting coroutine is resumed, with their values. -/
  resumes : s.Resumes

/-- The program ends in the step in which an exception leaves `run_task`. -/
theorem exists_rethrown {a : WhenAllStep n ν ε σ} (hstep : whenAllStep s a t)
    (ht : t.terminated = true) : ∃ i, t.pc i = .rethrown := by
  obtain ⟨hs, hcase⟩ := StepCase.of_step hstep
  -- A step that leaves `terminated` alone cannot be the one.
  have hkeep : t.terminated ≠ s.terminated := fun heq => by
    rw [heq, hs] at ht
    cases ht
  cases hcase with
  | await _ =>
    unfold WhenAll.await awaitSuspend at hkeep
    split_ifs at hkeep <;> exact (hkeep rfl).elim
  | takeResult i outcome _ _ =>
    cases outcome with
    | value r => exact (hkeep rfl).elim
    | exception e => exact ⟨i, Function.update_self ..⟩
  | wake i last current _ =>
    obtain ⟨-, -, -, -, -, -, -, hterminated, -⟩ := s.wake_frame i last current
    exact (hkeep hterminated).elim
  | _ => exact (hkeep rfl).elim

/-- Where the children are consistent, and an exception has left a `run_task` if the program has
ended. -/
theorem Consistent.joinsOrTerminates (hs : s.Consistent) (hloop : s.Looping)
    (hend : s.terminated → ∃ i, s.pc i = .rethrown) : s.JoinsOrTerminates := by
  have hjoins := hs.joins hloop
  -- The `run_task` of a task that has thrown has not taken the outcome, or has ended the program.
  have hplace : ∀ i e, s.promises i = some (.exception e) → s.pc i = .finished ∨
      s.pc i = .rethrown := by
    intro i e he
    have hnone := hs.promise_none (i := i)
    have hvalue := hs.promise_value (i := i)
    cases hi : s.pc i <;> simp_all [ChildPc.Unfinished, ChildPc.HasResult]
  refine ⟨hjoins.wakes_le, hjoins.not_early, hjoins.not_missed, ?_, ?_, ?_, ?_, hjoins.resumes⟩
  · rintro - ⟨i, e, he⟩
    have hvalue : ∀ r, s.promises i ≠ some (.value r) := by
      intro r hr
      rw [he] at hr
      cases hr
    constructor
    · by_contra hw
      obtain ⟨r, hr⟩ := hjoins.not_early hw i
      exact hvalue r hr
    · by_contra hret
      obtain ⟨results, hmem⟩ := List.exists_mem_of_ne_nil _ hret
      obtain ⟨r, hr, -⟩ := hjoins.in_place results hmem i
      exact hvalue r hr
  · intro hterm
    obtain ⟨i, hi⟩ := hend hterm
    exact ⟨i, (hs.rethrown hi).2⟩
  · intro i e he hrun
    have hfinished : s.pc i = .finished := by
      rcases hplace i e he with hi | hi
      · exact hi
      · rw [(hs.rethrown hi).1] at hrun
        cases hrun
    refine ⟨hfinished, s.takeResult i (.exception e), ?_, rfl⟩
    simp [whenAllStep, WhenAll.step, hrun, next, he, hfinished]
  · intro a t hterm hstep
    simp [whenAllStep, WhenAll.step, hterm] at hstep

end WhenAll

/-- In every run of `when_all`, whatever the outcomes of the tasks and the order in which they end:
the awaiting coroutine is resumed exactly once when all tasks return, after they have, and a task
that throws ends the program. -/
theorem when_all_joins_or_terminates {n : ℕ} {ν ε σ : Type*}
    (l : List (WhenAllStep n ν ε σ × WhenAll n ν ε σ)) (hl : Path whenAllStep WhenAll.new l) :
    ∀ x ∈ l, x.2.JoinsOrTerminates := by
  have hall := (hl.invariant
    (I := fun s => s.Consistent ∧ s.Looping ∧ (s.terminated → ∃ i, s.pc i = .rethrown))
    (fun _ _ _ h hstep => ⟨h.1.step hstep, h.2.1.step hstep, WhenAll.exists_rethrown hstep⟩)
    ⟨WhenAll.new_consistent, WhenAll.new_looping, nofun⟩).1
  exact fun x hx => (hall x hx).1.joinsOrTerminates (hall x hx).2.1 (hall x hx).2.2

/-- Two tasks, of which one throws after the other has ended. -/
theorem when_all_joins_or_terminates_two :
    ∃ l : List (WhenAllStep 2 ℕ ℕ Bool × WhenAll 2 ℕ ℕ Bool),
      l.map Prod.fst = [.await, .start 0, .suspend 0, .start 1, .finish 1 (.value (some 7)),
        .takeResult 1, .fetchSub 1, .wake 1 (some false), .resume 0, .finish 0 (.exception 5),
        .takeResult 0] ∧
      Path whenAllStep WhenAll.new l ∧ (last WhenAll.new l).terminated = true ∧
      ∀ x ∈ l, x.2.JoinsOrTerminates := by
  obtain ⟨l, hsteps, hl, hend⟩ := exists_path WhenAll.step WhenAll.new
    [.await, .start 0, .suspend 0, .start 1, .finish 1 (.value (some 7)), .takeResult 1,
      .fetchSub 1, .wake 1 (some false), .resume 0, .finish 0 (.exception 5), .takeResult 0]
    (fun s : WhenAll 2 ℕ ℕ Bool => s.terminated) (b := true) rfl
  exact ⟨l, hsteps, hl, hend, when_all_joins_or_terminates l hl⟩

/-- A single task that throws: the program is terminated. -/
theorem when_all_terminates :
    ∃ l : List (WhenAllStep 1 ℕ ℕ Bool × WhenAll 1 ℕ ℕ Bool),
      l.map Prod.fst = [.await, .start 0, .finish 0 (.exception 5), .takeResult 0] ∧
      Path whenAllStep WhenAll.new l ∧ ¬ ∀ x ∈ l, x.2.terminated = false := by
  obtain ⟨l, hsteps, hl, hend⟩ := exists_path WhenAll.step WhenAll.new
    [.await, .start 0, .finish 0 (.exception 5), .takeResult 0]
    (fun s : WhenAll 1 ℕ ℕ Bool => s.terminated) (b := true) rfl
  refine ⟨l, hsteps, hl, fun h => ?_⟩
  rcases last_mem WhenAll.new l with hlast | ⟨x, hx, hlast⟩
  · rw [hlast] at hend
    cases hend
  · rw [← hlast, h x hx] at hend
    cases hend

end Novaio
