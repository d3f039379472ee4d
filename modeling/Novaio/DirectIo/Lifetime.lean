import Novaio.DirectIo.Consistent

/-!
# The lifetime of the contexts

A context belongs to the pending completion and to the awaiter together, and `cancelled_` is what
the awaiter leaves to `poll` when it goes first. In every run, no step accesses a context that has
been deleted, so that none is deleted twice (`accessesLive_run`).

The flag says nothing to anyone once the completion has been handled. An awaiter that is destroyed
between `poll` and the resumption of its coroutine therefore leaks the context, and this is the only
way to leak one (`contexts_lifetime_iff`).
-/

namespace Novaio

open Transition

namespace DirectIo

variable {κ : Type*} {s t : DirectIo κ}

/-- No access is to a context that was deleted before. -/
def AccessesLive (s : DirectIo κ) : Prop :=
  s.accesses.Pairwise fun a b => ∀ c, a = .delete c → b.ctx ≠ c

/-- The context of an operation that has completed is deleted once its awaiter does not exist. -/
def NoLeak (s : DirectIo κ) : Prop :=
  ∀ c cqe, s.completions c = some cqe → (∀ p, ¬ s.Owns p c) → s.Deleted c

/-- The lifetime of the contexts is as it should be. -/
structure LifetimeOk (s : DirectIo κ) : Prop where
  accesses_live : s.AccessesLive
  no_leak : s.NoLeak

/-- A step that destroys the awaiter of an operation takes place before its completion is
handled. -/
def DestroyedInTime (s : DirectIo κ) : DirectStep κ → Prop
  | .destroy p => ∀ c, s.Owns p c → s.completions c = none
  | _ => True

/-- Further accesses to one context that has not been deleted. -/
theorem AccessesLive.append (h : s.AccessesLive) {c : ℕ} (hc : ¬ s.Deleted c) {l : List Access}
    (hctx : ∀ a ∈ l, a.ctx = c) (hl : l.Pairwise fun a b => ∀ d, a = .delete d → b.ctx ≠ d)
    (ht : t.accesses = s.accesses ++ l) : t.AccessesLive := by
  unfold AccessesLive
  rw [ht, List.pairwise_append]
  refine ⟨h, hl, ?_⟩
  rintro a ha b hb d rfl
  rw [hctx b hb]
  rintro rfl
  exact hc ha

/-- Nothing is leaked at the start. -/
theorem new_lifetimeOk : (new : DirectIo κ).LifetimeOk :=
  ⟨List.Pairwise.nil, fun _ _ h => by cases h⟩

variable [DecidableEq κ]

/-- What a resumption accesses. -/
theorem accesses_resume (s : DirectIo κ) (p c : ℕ) (k : κ) :
    (s.resume p c k).accesses = s.accesses ++ [.read c, .delete c] := by
  simp [resume, awaitResume, read, delete, setAwaiter]

/-- No step accesses a context that has been deleted. -/
theorem AccessesLive.step (h : s.AccessesLive) (hs : s.Consistent) {a : DirectStep κ}
    (hstep : directStep s a t) : t.AccessesLive := by
  cases StepCase.of_step hstep with
  | issue hfree => exact h
  | move hp hfree => exact h
  | @await p c k howns hrun hcoro =>
    exact h.append (hs.not_deleted_of_owns howns) (l := [.write c]) (by simp [Access.ctx])
      (by simp) rfl
  | @poll c cqe hflight =>
    have hc := hs.not_deleted_of_inFlight hflight
    rcases poll_cases s c cqe with ⟨-, -, hacc, -⟩ | ⟨-, -, hacc, -⟩
    · exact h.append hc (by simp [Access.ctx]) (by simp) hacc
    · exact h.append hc (by simp [Access.ctx]) (by simp) hacc
  | @resume p c d k hsusp howns hready =>
    exact h.append (hs.not_deleted_of_owns howns) (by simp [Access.ctx]) (by simp)
      (accesses_resume s p c k)
  | @destroy p c hp =>
    cases c with
    | none => exact h
    | some c =>
      exact h.append (hs.not_deleted_of_owns hp) (l := [.write c]) (by simp [Access.ctx])
        (by simp) rfl

/-- In every run, no step accesses a context that has been deleted. -/
theorem accessesLive_run {l : List (DirectStep κ × DirectIo κ)} (hl : Path directStep s l)
    (hs : s.Consistent) (h : s.AccessesLive) : ∀ x ∈ l, x.2.AccessesLive := by
  have hboth := (hl.invariant (I := fun s => s.Consistent ∧ s.AccessesLive)
    (fun _ _ _ h hstep => ⟨h.1.step hstep, h.2.step h.1 hstep⟩) ⟨hs, h⟩).1
  exact fun x hx => (hboth x hx).2

/-- What is deleted stays so. -/
theorem Deleted.step {a : DirectStep κ} (hstep : directStep s a t) {c : ℕ} (h : s.Deleted c) :
    t.Deleted c := by
  cases StepCase.of_step hstep with
  | issue hfree => exact h
  | move hp hfree => exact h
  | await howns hrun hcoro => exact List.mem_append_left _ h
  | @poll d cqe hflight =>
    unfold Deleted
    rcases poll_cases s d cqe with ⟨-, -, hacc, -⟩ | ⟨-, -, hacc, -⟩ <;>
      exact hacc ▸ List.mem_append_left _ h
  | @resume p d e k hsusp howns hready =>
    unfold Deleted
    exact accesses_resume s p d k ▸ List.mem_append_left _ h
  | @destroy p d hp =>
    cases d with
    | none => exact h
    | some d => exact List.mem_append_left _ h

/-- The only steps that leave an operation without an awaiter are the resumption of the coroutine
that awaits it, and the destruction of its awaiter. -/
theorem owner_step {a : DirectStep κ} (hstep : directStep s a t) {c p : ℕ} (howns : s.Owns p c) :
    (∃ q, t.Owns q c) ∨ (∃ k, t = s.resume p c k) ∨ a = .destroy p := by
  cases StepCase.of_step hstep with
  | @issue op q hfree =>
    have hpq : p ≠ q := fun e => by simp [Owns, e, hfree] at howns
    exact .inl ⟨p, owns_issue.mpr (by rwa [if_neg hpq])⟩
  | @move q r d hq hfree =>
    -- The new object takes over.
    left
    by_cases hpq : p = q
    · subst hpq
      exact ⟨r, (owns_move hq).mpr (by rwa [if_pos rfl])⟩
    · have hpr : p ≠ r := fun e => by simp [Owns, e, hfree] at howns
      exact ⟨p, (owns_move hq).mpr (by rw [if_neg hpr]; exact ⟨hpq, howns⟩)⟩
  | await _ _ _ => exact .inl ⟨p, howns⟩
  | @poll d e hflight =>
    obtain ⟨-, hawaiters, -⟩ := poll_frame s d e
    exact .inl ⟨p, by unfold Owns; rw [hawaiters]; exact howns⟩
  | @resume q d e k hsusp howns' hready =>
    by_cases hpq : p = q
    · subst hpq
      have heq := howns.symm.trans howns'
      simp only [Option.some.injEq, SafeIoAwaiter.mk.injEq] at heq
      subst heq
      exact .inr (.inl ⟨k, rfl⟩)
    · exact .inl ⟨p, (Function.update_of_ne hpq _ _).trans howns⟩
  | @destroy q d hq =>
    by_cases hpq : p = q
    · subst hpq
      exact .inr (.inr rfl)
    · exact .inl ⟨p, owns_destroy.mpr ⟨hpq, howns⟩⟩

/-- What has completed after a step had completed before, or its completion is handled by it. -/
theorem completions_step {a : DirectStep κ} (hstep : directStep s a t) {c : ℕ} {cqe : IoResult}
    (hc : t.completions c = some cqe) :
    s.completions c = some cqe ∨ a = .poll c cqe ∧ s.InFlight c ∧ t = s.poll c cqe := by
  cases StepCase.of_step hstep with
  | issue hfree => exact .inl hc
  | move hp hfree => exact .inl hc
  | await howns hrun hcoro => exact .inl hc
  | @poll d e hflight =>
    obtain ⟨-, -, -, hcompletions, -⟩ := poll_frame s d e
    rw [hcompletions, Function.update_apply] at hc
    split_ifs at hc with hcd
    · subst hcd
      obtain rfl := Option.some.inj hc
      exact .inr ⟨rfl, hflight, rfl⟩
    · exact .inl hc
  | resume hsusp howns hready => exact .inl hc
  | @destroy p d hp => cases d <;> exact .inl hc

/-- Without a destruction that comes too late, a step leaks nothing. -/
theorem NoLeak.step (h : s.NoLeak) (hs : s.Consistent) {a : DirectStep κ}
    (hstep : directStep s a t) (htime : s.DestroyedInTime a) : t.NoLeak := by
  intro c cqe hc hnone
  by_cases howner : ∃ p, s.Owns p c
  · obtain ⟨p, howns⟩ := howner
    rcases owner_step hstep howns with ⟨q, hq⟩ | ⟨k, rfl⟩ | rfl
    · exact absurd hq (hnone q)
    · unfold Deleted
      rw [accesses_resume]
      simp
    · -- The completion has not been handled, neither before this step nor by it.
      rcases completions_step hstep hc with hold | ⟨heq, -⟩
      · rw [htime c howns] at hold
        cases hold
      · cases heq
  · have hno : ∀ p, ¬ s.Owns p c := fun p hp => howner ⟨p, hp⟩
    rcases completions_step hstep hc with hold | ⟨-, hflight, rfl⟩
    · exact (h c cqe hold hno).step hstep
    · -- Nothing awaits it, so that it is cancelled, and `poll` deletes it.
      unfold Deleted
      rcases poll_cases s c cqe with ⟨-, -, hacc, -⟩ | ⟨hcan, -⟩
      · rw [hacc]
        simp
      · exact absurd (hs.owned_of_not_cancelled hflight hcan) howner

/-- A destruction that comes too late leaks the context. -/
theorem destroyedInTime_of_noLeak (hs : s.Consistent) {a : DirectStep κ}
    (hstep : directStep s a t) (h : t.NoLeak) : s.DestroyedInTime a := by
  cases StepCase.of_step hstep with
  | @destroy p d hp =>
    intro c howns
    by_contra hc
    obtain ⟨cqe, hcqe⟩ := Option.ne_none_iff_exists'.mp hc
    have heq := hp.symm.trans howns
    simp only [Option.some.injEq, SafeIoAwaiter.mk.injEq] at heq
    subst heq
    have hdel := h c cqe hcqe fun q hq => by
      obtain ⟨hqp, hq⟩ := owns_destroy.mp hq
      exact hqp (hs.owner_unique hq howns)
    rcases List.mem_append.mp hdel with hdel | hdel
    · exact hs.not_deleted_of_owns howns hdel
    · simp at hdel
  | _ => trivial

end DirectIo

/-- In every run of the direct operations, whatever the order of their completions, awaits, moves,
resumptions and destructions: the contexts live as they should in every state exactly when no
awaiter is destroyed between the completion of its operation and the resumption of its coroutine. -/
theorem contexts_lifetime_iff {κ : Type*} [DecidableEq κ]
    (l : List (DirectStep κ × DirectIo κ)) (hl : Path directStep DirectIo.new l) :
    (∀ x ∈ l, x.2.LifetimeOk) ↔ Meets DirectIo.DestroyedInTime DirectIo.new l := by
  refine hl.always_iff_meets (I := DirectIo.Consistent) (fun _ _ _ h hstep => h.step hstep) ?_
    DirectIo.new_consistent DirectIo.new_lifetimeOk
  intro s a t hs h hstep
  constructor
  · intro ht
    exact DirectIo.destroyedInTime_of_noLeak hs hstep ht.no_leak
  · intro htime
    exact ⟨h.accesses_live.step hs hstep, h.no_leak.step hs hstep htime⟩

/-- An operation that is awaited, completes, is resumed, and whose awaiter is destroyed last. -/
theorem contexts_lifetime_one :
    ∃ l : List (DirectStep Unit × DirectIo Unit),
      l.map Prod.fst = [.issue .recv 0, .move 0 1, .await 1 (), .poll 0 ⟨5, 1⟩, .resume (),
        .destroy 1] ∧
      Path directStep DirectIo.new l ∧
      (last DirectIo.new l).accesses = [.write 0, .read 0, .write 0, .read 0, .read 0, .delete 0] ∧
      ∀ x ∈ l, x.2.LifetimeOk := by
  obtain ⟨l, hops, hlast, hl, htime⟩ : ∃ l : List (DirectStep Unit × DirectIo Unit),
      l.map Prod.fst = [.issue .recv 0, .move 0 1, .await 1 (), .poll 0 ⟨5, 1⟩, .resume (),
        .destroy 1] ∧
      (last DirectIo.new l).accesses = [.write 0, .read 0, .write 0, .read 0, .read 0, .delete 0] ∧
      Path directStep DirectIo.new l ∧ Meets DirectIo.DestroyedInTime DirectIo.new l := by
    refine ⟨[(_, _), (_, _), (_, _), (_, _), (_, _), (_, _)], rfl, ?_,
      ⟨rfl, rfl, rfl, rfl, rfl, rfl, trivial⟩, ?_⟩
    · rfl
    · refine ⟨trivial, trivial, trivial, trivial, trivial, ?_, trivial⟩
      intro c howns
      cases howns
  exact ⟨l, hops, hl, hlast, (contexts_lifetime_iff l hl).mpr htime⟩

/-- An awaiter that is destroyed after the completion of its operation, and before its coroutine is
resumed: the context is never deleted. -/
theorem context_leaked :
    ∃ l : List (DirectStep Unit × DirectIo Unit),
      l.map Prod.fst = [.issue .recv 0, .await 0 (), .poll 0 ⟨5, 1⟩, .destroy 0] ∧
      Path directStep DirectIo.new l ∧ ¬ ∀ x ∈ l, x.2.LifetimeOk := by
  refine ⟨[(_, _), (_, _), (_, _), (_, _)], rfl, ⟨rfl, rfl, rfl, rfl, trivial⟩, ?_⟩
  intro h
  have hs := ((DirectIo.new_consistent.step (a := .issue .recv 0) rfl).step
    (a := .await 0 ()) rfl).step (a := .poll 0 ⟨5, 1⟩) rfl
  have htime := DirectIo.destroyedInTime_of_noLeak hs (a := .destroy 0) rfl
    (h _ (List.mem_of_mem_getLast? rfl)).no_leak 0 rfl
  cases htime

end Novaio
