import Novaio.DirectIo.Completion

/-!
# What completions hand over

A successful `recv` completion hands over a provided buffer, and a successful `accept` completion a
direct descriptor. The coroutine that gets the result returns the buffer and closes the descriptor.
`poll` gives back neither: for an operation that is cancelled, it deletes the context and drops what
the completion carries.

No resource is dropped in a run exactly when the operations whose awaiters are destroyed complete
without one, and what an operation has got is awaited in time (`resources_kept_iff`).
-/

namespace Novaio

open Transition

namespace DirectIo

variable {κ : Type*} {s t : DirectIo κ}

/-- The completion of an operation has handed over a resource. -/
def Carries (s : DirectIo κ) (ctx : ℕ) (r : Resource) : Prop :=
  ∃ op cqe, s.issued[ctx]? = some op ∧ s.completions ctx = some cqe ∧ op.resource cqe = some r

/-- `await_resume` has returned the completion of an operation to a coroutine. -/
def Delivered (s : DirectIo κ) (ctx : ℕ) : Prop :=
  ∃ cqe, s.completions ctx = some cqe ∧ (ctx, cqe) ∈ s.results

/-- An operation has an awaiter, and the coroutine that awaits it, if there is one yet, has been
scheduled. -/
def Deliverable (s : DirectIo κ) (ctx : ℕ) : Prop :=
  (∃ p, s.Owns p ctx) ∧ ∀ k, (s.contexts ctx).coro = some k → (ctx, k) ∈ s.scheduled

/-- What a completion has handed over is delivered, released by the engine, or still to be
delivered. -/
def ResourcesKept (s : DirectIo κ) : Prop :=
  ∀ c r, s.Carries c r → s.Delivered c ∨ (c, r) ∈ s.released ∨ s.Deliverable c

/-- A step drops no resource: the completion of an operation whose awaiter is gone carries none, and
neither does an operation that is awaited after its completion, or whose awaiter is destroyed
then. -/
def DropsNothing (s : DirectIo κ) : DirectStep κ → Prop
  | .poll c cqe => ∀ op r, s.issued[c]? = some op → op.resource cqe = some r → ∃ p, s.Owns p c
  | .await p _ | .destroy p => ∀ c r, s.Owns p c → ¬ s.Carries c r
  | .issue _ _ | .move _ _ | .resume _ => True

/-- Nothing is handed over at the start. -/
theorem new_resourcesKept : (new : DirectIo κ).ResourcesKept := by
  rintro c r ⟨op, cqe, hop, -⟩
  simp [new] at hop

/-- An operation that has an awaiter is not delivered yet. -/
theorem not_delivered_of_owns (hs : s.Consistent) (hh : s.History) {p c : ℕ} (howns : s.Owns p c) :
    ∀ cqe, (c, cqe) ∉ s.results :=
  fun _ hmem => hs.not_deleted_of_owns howns (hh.of_result hmem).2

variable [DecidableEq κ]

/-- The operations that have been issued stay so. -/
theorem issued_step {a : DirectStep κ} (hstep : directStep s a t) {c : ℕ}
    (hlt : c < s.issued.length) :
    t.issued[c]? = s.issued[c]? := by
  cases StepCase.of_step hstep with
  | issue hfree => exact List.getElem?_append_left hlt
  | @poll d e hflight => rw [(poll_frame s d e).1]
  | @destroy p d hp => cases d <;> rfl
  | _ => rfl

/-- What has been handed over after a step was so before, or is by the completion that the step
handles. -/
theorem Carries.of_step (hs : s.Consistent) {a : DirectStep κ} (hstep : directStep s a t) {c : ℕ}
    {r : Resource} (h : t.Carries c r) :
    s.Carries c r ∨ ∃ op cqe, a = .poll c cqe ∧ s.InFlight c ∧ s.issued[c]? = some op ∧
      op.resource cqe = some r ∧ t = s.poll c cqe := by
  obtain ⟨op, cqe, hop, hc, hr⟩ := h
  rcases completions_step hstep hc with hold | ⟨rfl, hflight, heq⟩
  · rw [issued_step hstep (hs.completed_lt hold)] at hop
    exact .inl ⟨op, cqe, hop, hold, hr⟩
  · rw [issued_step hstep hflight.1] at hop
    exact .inr ⟨op, cqe, rfl, hflight, hop, hr, heq⟩

/-- What has been handed over stays so. -/
theorem Carries.step (hs : s.Consistent) {a : DirectStep κ} (hstep : directStep s a t) {c : ℕ}
    {r : Resource} (h : s.Carries c r) : t.Carries c r := by
  obtain ⟨op, cqe, hop, hc, hr⟩ := h
  exact ⟨op, cqe, (issued_step hstep (hs.completed_lt hc)).trans hop, completions_kept hstep hc, hr⟩

/-- A result that has been returned stays so. -/
theorem mem_results_step (hs : s.Consistent) {a : DirectStep κ} (hstep : directStep s a t)
    {x : ℕ × IoResult} (hx : x ∈ s.results) : x ∈ t.results := by
  rcases results_step hs hstep with heq | ⟨c, ret, -, -, heq⟩ <;> rw [heq]
  · exact hx
  · exact List.mem_append_left _ hx

/-- An operation that can be delivered is delivered by its resumption, and stays so over every other
step that drops nothing. -/
theorem Deliverable.step {c : ℕ} (h : s.Deliverable c) (hs : s.Consistent) {a : DirectStep κ}
    {r : Resource} (hstep : directStep s a t) (hcarries : s.Carries c r)
    (hdrops : s.DropsNothing a) : t.Delivered c ∨ t.Deliverable c := by
  obtain ⟨⟨p, howns⟩, hsched⟩ := h
  rcases owner_step hstep howns with howner | ⟨k, rfl⟩ | rfl
  · refine .inr ⟨howner, fun k hk => ?_⟩
    rcases coro_step hstep hk with hk | ⟨q, rfl, hq, -⟩
    · exact mem_scheduled_step hstep (hsched k hk)
    · exact absurd hcarries (hdrops c r hq)
  · obtain ⟨op, cqe, -, hc, -⟩ := hcarries
    refine .inl ⟨cqe, hc, ?_⟩
    show (c, cqe) ∈ s.results ++ [(c, ⟨(s.contexts c).res, (s.contexts c).flags⟩)]
    rw [hs.stored howns hc]
    simp
  · exact absurd hcarries (hdrops c r howns)

/-- A step that drops nothing keeps the resources. -/
theorem ResourcesKept.step (h : s.ResourcesKept) (hs : s.Consistent) {a : DirectStep κ}
    (hstep : directStep s a t) (hdrops : s.DropsNothing a) : t.ResourcesKept := by
  intro c r hcarries
  rcases hcarries.of_step hs hstep with hcarries | ⟨op, cqe, rfl, hflight, hop, hr, rfl⟩
  · rcases h c r hcarries with ⟨cqe, hc, hmem⟩ | hrel | hdel
    · exact .inl ⟨cqe, completions_kept hstep hc, mem_results_step hs hstep hmem⟩
    · exact .inr (.inl (by rwa [released_step hstep]))
    · rcases hdel.step hs hstep hcarries hdrops with hdel | hdel
      · exact .inl hdel
      · exact .inr (.inr hdel)
  · -- The completion is handled in this step: the operation has an awaiter, and `poll` schedules
    -- its coroutine.
    obtain ⟨p, howns⟩ := hdrops op r hop hr
    have howner : (s.poll c cqe).Owns p c := by
      unfold Owns
      rw [(poll_frame s c cqe).2.1]
      exact howns
    refine .inr (.inr ⟨⟨p, howner⟩, fun k hk => ?_⟩)
    rcases poll_cases s c cqe with ⟨hcan, -⟩ | ⟨-, hctx, -, -, hsched⟩
    · rw [hs.not_cancelled howns] at hcan
      cases hcan
    · rw [hctx, Function.update_self] at hk
      rw [hsched, hk]
      simp

/-- A step that keeps the resources drops nothing. -/
theorem dropsNothing_of_kept (hs : s.Consistent) (hh : s.History) {a : DirectStep κ}
    (hstep : directStep s a t) (h : t.ResourcesKept) : s.DropsNothing a := by
  have hrel : t.released = [] := (released_step hstep).trans hh.released_nil
  cases StepCase.of_step hstep with
  | @await p d k howns hrun hcoro =>
    intro c r hc hcarries
    have heq := howns.symm.trans hc
    simp only [Option.some.injEq, SafeIoAwaiter.mk.injEq] at heq
    subst heq
    rcases h d r (hcarries.step hs hstep) with ⟨cqe, -, hmem⟩ | hmem | ⟨-, hsched⟩
    · exact not_delivered_of_owns hs hh howns cqe hmem
    · simp [hrel] at hmem
    · -- The coroutine was not stored when the completion was handled.
      have hmem := hsched k (by simp [awaitSuspend, write])
      rw [(hh.of_scheduled hmem).1] at hcoro
      cases hcoro
  | @poll c cqe hflight =>
    intro op r hop hr
    have hframe := poll_frame s c cqe
    have hcarries : (s.poll c cqe).Carries c r :=
      ⟨op, cqe, by rw [hframe.1, hop], by rw [hframe.2.2.2.1]; simp, hr⟩
    rcases h c r hcarries with ⟨ret, -, hmem⟩ | hmem | ⟨⟨p, howns⟩, -⟩
    · rw [hframe.2.2.2.2.1] at hmem
      exact absurd (hh.of_result hmem).1 (by simp [hflight.2])
    · simp [hrel] at hmem
    · unfold Owns at howns
      rw [hframe.2.1] at howns
      exact ⟨p, howns⟩
  | @destroy p d hp =>
    intro c r howns hcarries
    rcases h c r (hcarries.step hs hstep) with ⟨cqe, -, hmem⟩ | hmem | ⟨⟨q, hq⟩, -⟩
    · have hresults : (s.destroy p d).results = s.results := by cases d <;> rfl
      exact not_delivered_of_owns hs hh howns cqe (hresults ▸ hmem)
    · simp [hrel] at hmem
    · -- The awaiter that is destroyed was the only owner.
      obtain ⟨hqp, hq⟩ := owns_destroy.mp hq
      exact hqp (hs.owner_unique hq howns)
  | _ => trivial

end DirectIo

/-- In every run of the direct operations, whatever the order of their completions, awaits,
resumptions and destructions: every resource that a completion has handed over is delivered by
`await_resume`, released by the engine, or still to be delivered, in every state exactly when each
step drops nothing. -/
theorem resources_kept_iff {κ : Type*} [DecidableEq κ]
    (l : List (DirectStep κ × DirectIo κ)) (hl : Path directStep DirectIo.new l) :
    (∀ x ∈ l, x.2.ResourcesKept) ↔ Meets DirectIo.DropsNothing DirectIo.new l := by
  refine hl.always_iff_meets (I := fun s => s.Consistent ∧ s.History)
    (fun _ _ _ h hstep => ⟨h.1.step hstep, h.2.step h.1 hstep⟩) ?_
    ⟨DirectIo.new_consistent, DirectIo.new_history⟩ DirectIo.new_resourcesKept
  intro s a t hs h hstep
  constructor
  · intro ht
    exact DirectIo.dropsNothing_of_kept hs.1 hs.2 hstep ht
  · intro hdrops
    exact h.step hs.1 hstep hdrops

/-- An operation that is delivered, and one that is cancelled and then fails. -/
theorem resources_kept_two :
    ∃ l : List (DirectStep Unit × DirectIo Unit),
      l.map Prod.fst = [.issue .accept 0, .issue .recv 1, .await 0 (), .destroy 1,
        .poll 1 ⟨-125, 0⟩, .poll 0 ⟨3, 0⟩, .resume ()] ∧
      Path directStep DirectIo.new l ∧ (last DirectIo.new l).results = [(0, ⟨3, 0⟩)] ∧
      ∀ x ∈ l, x.2.ResourcesKept := by
  obtain ⟨l, hops, hresults, hl, hdrops⟩ : ∃ l : List (DirectStep Unit × DirectIo Unit),
      l.map Prod.fst = [.issue .accept 0, .issue .recv 1, .await 0 (), .destroy 1,
        .poll 1 ⟨-125, 0⟩, .poll 0 ⟨3, 0⟩, .resume ()] ∧
      (last DirectIo.new l).results = [(0, ⟨3, 0⟩)] ∧
      Path directStep DirectIo.new l ∧ Meets DirectIo.DropsNothing DirectIo.new l := by
    refine ⟨[(_, _), (_, _), (_, _), (_, _), (_, _), (_, _), (_, _)], rfl, ?_,
      ⟨rfl, rfl, rfl, rfl, rfl, rfl, rfl, trivial⟩, ?_⟩
    · rfl
    · refine ⟨trivial, trivial, ?_, ?_, ?_, ?_, trivial, trivial⟩
      · rintro c r - ⟨op, cqe, -, hc, -⟩
        cases hc
      · rintro c r - ⟨op, cqe, -, hc, -⟩
        cases hc
      · rintro op r hop hr
        obtain rfl := Option.some.inj hop
        cases hr
      · exact fun _ _ _ _ => ⟨0, rfl⟩
  exact ⟨l, hops, hl, hresults, (resources_kept_iff l hl).mpr hdrops⟩

/-- A `recv` that is cancelled and then completes with a buffer: nothing returns the buffer. -/
theorem resource_dropped :
    ∃ l : List (DirectStep Unit × DirectIo Unit),
      l.map Prod.fst = [.issue .recv 0, .destroy 0, .poll 0 ⟨5, 1⟩] ∧
      Path directStep DirectIo.new l ∧ ¬ ∀ x ∈ l, x.2.ResourcesKept := by
  refine ⟨[(_, _), (_, _), (_, _)], rfl, ⟨rfl, rfl, rfl, trivial⟩, ?_⟩
  intro h
  have hs0 := (DirectIo.new_consistent (κ := Unit)).step (a := .issue .recv 0) rfl
  have hs := hs0.step (a := .destroy 0) rfl
  have hh := (DirectIo.new_history.step DirectIo.new_consistent (a := .issue .recv 0) rfl).step
    hs0 (a := .destroy 0) rfl
  obtain ⟨p, hp⟩ := DirectIo.dropsNothing_of_kept hs hh (a := .poll 0 ⟨5, 1⟩) rfl
    (h _ (List.mem_of_mem_getLast? rfl)) .recv (.buffer 0) rfl rfl
  obtain ⟨hp0, hp⟩ := DirectIo.owns_destroy.mp hp
  have hfree := DirectIo.owns_issue.mp hp
  rw [if_neg hp0] at hfree
  cases hfree

end Novaio
