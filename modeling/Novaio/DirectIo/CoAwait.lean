import Novaio.DirectIo.Lifetime
import Novaio.DirectIo.Resources

/-!
# Operations awaited in place

`co_await engine.recv_direct(fd)` issues an operation and awaits it in one expression. The awaiter
is a temporary: nothing comes between its construction and the await, and it is destroyed after
`await_resume`, when it has no context any more.

Coroutines that use the engine like this alone meet all the conditions under which completions are
delivered, resources are kept and contexts live as they should (`Sound.coAwait`,
`Sound.awaitResult`, `Sound.poll`).
-/

namespace Novaio

open Transition

namespace DirectIo

variable {κ : Type*} {s t : DirectIo κ}

/-- A coroutine is suspended for an operation in its awaiter. -/
def Waits (s : DirectIo κ) (k : κ) (ctx : ℕ) : Prop :=
  ∃ p, s.suspension k = .suspended (some p) ctx ∧ s.Owns p ctx

variable [DecidableEq κ]

/-- `co_await` of an operation, up to the suspension. -/
def coAwait (op : DirectOp) (s : DirectIo κ) (place : ℕ) (h : κ) : Option (DirectIo κ) :=
  (s.step (.issue op place)).bind fun s => s.step (.await place h)

/-- `co_await` of an operation, from the resumption: the result, and the end of the awaiter. -/
def awaitResult (s : DirectIo κ) (h : κ) : Option (IoResult × DirectIo κ) :=
  match s.suspension h with
  | .suspended (some place) _ =>
    (s.step (.resume h)).bind fun s => (s.step (.destroy place)).bind fun s =>
      s.results.getLast?.map fun x => (x.2, s)
  | _ => none

/-- All is as it should be, and nothing is cancelled. -/
structure Sound (s : DirectIo κ) : Prop where
  consistent : s.Consistent
  history : s.History
  lifetime : s.LifetimeOk
  delivered : s.CompletionsDelivered
  kept : s.ResourcesKept
  not_cancelled : ∀ c, (s.contexts c).cancelled = false

/-- The start. -/
theorem new_sound : (new : DirectIo κ).Sound :=
  ⟨new_consistent, new_history, new_lifetimeOk, new_completionsDelivered, new_resourcesKept,
    fun _ => rfl⟩

/-- A step meets the conditions, and destroys no awaiter that has a context. -/
structure Timely (s : DirectIo κ) (a : DirectStep κ) : Prop where
  awaited : s.AwaitedInTime a
  destroyed : ∀ p, a = .destroy p → ∀ c, ¬ s.Owns p c
  drops : s.DropsNothing a

/-- A timely step. -/
theorem Sound.step (h : s.Sound) {a : DirectStep κ} (hstep : directStep s a t)
    (htimely : s.Timely a) : t.Sound := by
  have hdestroyed : s.DestroyedInTime a := by
    cases a with
    | destroy p => exact fun c howns => (htimely.destroyed p rfl c howns).elim
    | _ => trivial
  refine ⟨h.consistent.step hstep, h.history.step h.consistent hstep,
    ⟨h.lifetime.accesses_live.step h.consistent hstep,
      h.lifetime.no_leak.step h.consistent hstep hdestroyed⟩,
    h.delivered.step h.consistent h.history hstep htimely.awaited,
    h.kept.step h.consistent hstep htimely.drops, fun c => ?_⟩
  cases StepCase.of_step hstep with
  | @issue op p hfree =>
    by_cases hc : c = s.issued.length
    · simp [DirectIo.issue, hc]
    · simpa [DirectIo.issue, hc] using h.not_cancelled c
  | move hp hfree => exact h.not_cancelled c
  | @await p d k howns hrun hcoro =>
    by_cases hc : c = d
    · simpa [awaitSuspend, write, hc] using h.not_cancelled d
    · simpa [awaitSuspend, write, hc] using h.not_cancelled c
  | @poll d cqe hflight =>
    rcases poll_cases s d cqe with ⟨-, hctx, -⟩ | ⟨-, hctx, -⟩ <;> rw [hctx]
    · exact h.not_cancelled c
    · by_cases hc : c = d
      · simpa [hc] using h.not_cancelled d
      · simpa [hc] using h.not_cancelled c
  | resume hsusp howns hready => exact h.not_cancelled c
  | @destroy p d hp =>
    cases d with
    | none => exact h.not_cancelled c
    | some d => exact (htimely.destroyed p rfl d hp).elim

/-- A coroutine awaits an operation that it issues in place. -/
theorem Sound.coAwait (h : s.Sound) {op : DirectOp} {p : ℕ} {k : κ}
    (ht : s.coAwait op p k = some t) :
    t.Sound ∧ s.suspension k = .running ∧ t.issued = s.issued ++ [op] ∧
      t.completions = s.completions ∧ t.Waits k s.issued.length ∧
      ∀ k', k' ≠ k → t.suspension k' = s.suspension k' ∧ ∀ c, s.Waits k' c → t.Waits k' c := by
  obtain ⟨u, hu, ht⟩ := Option.bind_eq_some_iff.mp ht
  have hissue : directStep s (.issue op p) u := hu
  have hawait : directStep u (.await p k) t := ht
  have hsound := h.step hissue ⟨trivial, nofun, trivial⟩
  cases StepCase.of_step hissue with
  | issue hfree =>
    cases StepCase.of_step hawait with
    | @await _ c _ howns hrun hcoro =>
      -- The awaiter is for the operation that has just been issued, which has not completed.
      have hc : c = s.issued.length := by
        have howns := owns_issue.mp howns
        rwa [if_pos rfl] at howns
      subst hc
      have hnone : s.completions s.issued.length = none := by
        by_contra hsome
        obtain ⟨cqe, hcqe⟩ := Option.ne_none_iff_exists'.mp hsome
        exact Nat.lt_irrefl _ (h.consistent.completed_lt hcqe)
      have howned : ∀ d, (issue op s p).Owns p d → d = s.issued.length := fun d hd => by
        have hd := owns_issue.mp hd
        rwa [if_pos rfl] at hd
      have htimely : (issue op s p).Timely (.await p k) := by
        refine ⟨fun d hd => ?_, nofun, fun d r hd hcarries => ?_⟩
        · rw [howned d hd]
          exact hnone
        · obtain ⟨op', cqe, -, hcqe, -⟩ := hcarries
          rw [howned d hd] at hcqe
          cases hnone.symm.trans hcqe
      refine ⟨hsound.step hawait htimely, hrun, rfl, rfl, ⟨p, Function.update_self .., howns⟩,
        fun k' hne => ⟨Function.update_of_ne hne _ _, fun d hd => ?_⟩⟩
      obtain ⟨q, hq, hqowns⟩ := hd
      refine ⟨q, (Function.update_of_ne hne _ _).trans hq, ?_⟩
      have hqp : q ≠ p := by
        rintro rfl
        simp [Owns, hfree] at hqowns
      have howns' : (issue op s p).Owns q d := by rwa [owns_issue, if_neg hqp]
      exact howns'

/-- A coroutine gets the result of the operation that it waits for. -/
theorem Sound.awaitResult (h : s.Sound) {k : κ} {c : ℕ} {ret : IoResult} (hk : s.Waits k c)
    (ht : s.awaitResult k = some (ret, t)) :
    t.Sound ∧ s.completions c = some ret ∧ t.results = s.results ++ [(c, ret)] ∧
      t.issued = s.issued ∧ t.completions = s.completions ∧ t.suspension k = .running ∧
      ∀ k', k' ≠ k → (s.suspension k' = .running → t.suspension k' = .running) ∧
        ∀ d, s.Waits k' d → t.Waits k' d := by
  obtain ⟨p, hsusp, howns⟩ := hk
  simp only [DirectIo.awaitResult, hsusp] at ht
  obtain ⟨u, hu, ht⟩ := Option.bind_eq_some_iff.mp ht
  obtain ⟨v, hv, ht⟩ := Option.bind_eq_some_iff.mp ht
  obtain ⟨x, hx, heq⟩ := Option.map_eq_some_iff.mp ht
  obtain ⟨rfl, rfl⟩ := Prod.mk.inj heq
  have hresume : directStep s (.resume k) u := hu
  have hdestroy : directStep u (.destroy p) v := hv
  have hsound := h.step hresume ⟨trivial, nofun, trivial⟩
  cases StepCase.of_step hresume with
  | @resume p' c' d _ hsusp' howns' hready =>
    obtain ⟨rfl, rfl⟩ : p' = p ∧ d = c := by
      rw [hsusp] at hsusp'
      cases hsusp'
      exact ⟨rfl, rfl⟩
    obtain ⟨rfl, cqe, hcqe⟩ := h.consistent.resumed hsusp howns' hready
    -- The awaiter has no context when it is destroyed.
    have hnone : (s.resume p' c' k).awaiters p' = some ⟨none⟩ := Function.update_self ..
    cases StepCase.of_step hdestroy with
    | @destroy _ e he =>
      obtain rfl : e = none := by
        rw [hnone] at he
        cases he
        rfl
      have hret : x = (c', ⟨(s.contexts c').res, (s.contexts c').flags⟩) := by
        have hlast : ((s.resume p' c' k).destroy p' none).results.getLast? =
            some (c', ⟨(s.contexts c').res, (s.contexts c').flags⟩) := by
          show (s.results ++ [(c', _)]).getLast? = _
          rw [List.getLast?_concat]
        exact (Option.some.inj (hlast.symm.trans hx)).symm
      subst hret
      have hfree : ∀ d, ¬ (s.resume p' c' k).Owns p' d := fun d hd => by
        cases hnone.symm.trans hd
      have htimely : (s.resume p' c' k).Timely (.destroy p') := by
        refine ⟨trivial, fun q hq => ?_, fun d r hd => (hfree d hd).elim⟩
        cases hq
        exact hfree
      refine ⟨hsound.step hdestroy htimely, ?_, rfl, rfl, rfl, ?_, fun k' hne => ⟨fun hrun => ?_,
        fun d hd => ?_⟩⟩
      · rw [h.consistent.stored howns hcqe]
        exact hcqe
      · show (Function.update s.suspension k .running k).leave p' = .running
        rw [Function.update_self]
        rfl
      · show (Function.update s.suspension k .running k').leave p' = .running
        rw [Function.update_of_ne hne, hrun]
        rfl
      · -- Another coroutine waits in another awaiter.
        obtain ⟨q, hq, hqowns⟩ := hd
        have hqp : q ≠ p' := by
          rintro rfl
          obtain rfl := h.consistent.suspended_in hq howns
          have hcoro := (h.consistent.suspended_for hq).1
          rw [(h.consistent.suspended_for hsusp).1] at hcoro
          exact hne (Option.some.inj hcoro).symm
        refine ⟨q, ?_, ?_⟩
        · show (Function.update s.suspension k .running k').leave p' = _
          rw [Function.update_of_ne hne, hq, Suspension.leave, if_neg hqp]
        · exact owns_destroy.mpr ⟨hqp, (Function.update_of_ne hqp _ _).trans hqowns⟩

/-- The completion of an operation is handled. -/
theorem Sound.poll (h : s.Sound) {c : ℕ} {cqe : IoResult} (ht : s.step (.poll c cqe) = some t) :
    t.Sound ∧ s.completions c = none ∧ t.issued = s.issued ∧
      t.completions = Function.update s.completions c (some cqe) ∧
      t.suspension = s.suspension ∧ ∀ k d, s.Waits k d → t.Waits k d := by
  have hstep : directStep s (.poll c cqe) t := ht
  cases StepCase.of_step hstep with
  | poll hflight =>
    obtain ⟨hissued, hawaiters, hsuspension, hcompletions, -⟩ := poll_frame s c cqe
    -- Nothing is cancelled, so that the operation has an awaiter.
    have hdrops : s.DropsNothing (.poll c cqe) := fun _ _ _ _ =>
      h.consistent.owned_of_not_cancelled hflight (h.not_cancelled c)
    refine ⟨h.step hstep ⟨trivial, nofun, hdrops⟩, hflight.2, hissued, hcompletions, hsuspension,
      fun k d hk => ?_⟩
    obtain ⟨p, hp, howns⟩ := hk
    refine ⟨p, by rw [hsuspension, hp], ?_⟩
    rw [Owns, hawaiters]
    exact howns

end DirectIo

end Novaio
