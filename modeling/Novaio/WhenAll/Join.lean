import Novaio.WhenAll.Progress

/-!
# `when_all` joins its tasks

The one child that sees itself as the last arranges the resumption of the awaiting coroutine, which
is therefore resumed once, when every task has ended and every result is in its place
(`when_all_joins`).
-/

namespace Novaio

open Transition

namespace WhenAll

variable {n : ℕ} {ν ε σ : Type*} {s t : WhenAll n ν ε σ}

/-- `when_all` joins its tasks: the awaiting coroutine is resumed at most once, not before every
task has returned, once all of them are done, and gets the value of each task in its place. With no
task it does not suspend. How it is resumed, and that it can be, is `resumes`. -/
structure Joins (s : WhenAll n ν ε σ) : Prop where
  wakes_le : s.wakes.length ≤ 1
  returned_le : s.returned.length ≤ 1
  not_early : s.wakes ≠ [] → ∀ i, ∃ r, s.promises i = some (.value r)
  not_missed : 0 < n → (∀ i, s.pc i = .done) → s.wakes.length = 1
  in_place : ∀ results ∈ s.returned, ∀ i, ∃ r, s.promises i = some (.value r) ∧
    results i = .of r
  never_suspends : n = 0 → s.parent ≠ .suspended
  resumes : s.Resumes

/-- What this says about the awaiting coroutine. -/
theorem Consistent.joins (hs : s.Consistent) (hloop : s.Looping) : s.Joins := by
  have hwakes := hs.wakes_eq
  have hle : s.wakes.length ≤ 1 := by split_ifs at hwakes <;> omega
  refine ⟨hle, ?_, ?_, hs.wakes_length, hs.in_place, hs.never_suspends, hs.resumes hloop⟩
  · rcases hs.returned_le with hret | ⟨-, hret, -⟩ <;> omega
  · intro hw i
    obtain ⟨r, hr, -⟩ := hs.all_in_place hw i
    exact ⟨r, hr⟩

end WhenAll

/-- In every run of `when_all` of `n` tasks, whichever of them end while `start_tasks` still starts
the others, and in whatever order and on whatever threads the others do: the awaiting coroutine is
resumed once, after all tasks have ended, and gets their values in their places. -/
theorem when_all_joins {n : ℕ} {ν ε σ : Type*}
    (l : List (WhenAllStep n ν ε σ × WhenAll n ν ε σ)) (hl : Path whenAllStep WhenAll.new l) :
    ∀ x ∈ l, x.2.Joins := by
  have hall := (hl.invariant (I := fun s => s.Consistent ∧ s.Looping)
    (fun _ _ _ h hstep => ⟨h.1.step hstep, h.2.step hstep⟩)
    ⟨WhenAll.new_consistent, WhenAll.new_looping⟩).1
  exact fun x hx => (hall x hx).1.joins (hall x hx).2

/-- Two tasks, of which the second is void and ends in the loop of `start_tasks`, before the
first. -/
theorem when_all_joins_two :
    ∃ l : List (WhenAllStep 2 ℕ ℕ Bool × WhenAll 2 ℕ ℕ Bool),
      l.map Prod.fst = [.await, .start 0, .suspend 0, .start 1, .finish 1 (.value none),
        .takeResult 1, .fetchSub 1, .wake 1 (some false), .resume 0, .finish 0 (.value (some 7)),
        .takeResult 0, .fetchSub 0, .wake 0 (some true), .resumeParent] ∧
      Path whenAllStep WhenAll.new l ∧
      (last WhenAll.new l).wakes = [.schedule true] ∧
      (last WhenAll.new l).returned.map List.ofFn = [[.value 7, .zero]] ∧
      ∀ x ∈ l, x.2.Joins := by
  obtain ⟨l, hsteps, hl, hend⟩ := exists_path WhenAll.step WhenAll.new
    [.await, .start 0, .suspend 0, .start 1, .finish 1 (.value none), .takeResult 1, .fetchSub 1,
      .wake 1 (some false), .resume 0, .finish 0 (.value (some 7)), .takeResult 0, .fetchSub 0,
      .wake 0 (some true), .resumeParent]
    (fun s : WhenAll 2 ℕ ℕ Bool => (s.wakes, s.returned.map List.ofFn))
    (b := ([.schedule true], [[.value 7, .zero]])) rfl
  exact ⟨l, hsteps, hl, congrArg Prod.fst hend, congrArg Prod.snd hend, when_all_joins l hl⟩

end Novaio
