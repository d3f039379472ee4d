import Mathlib.Data.List.Nodup
import Novaio.DirectIo.Lifetime

/-!
# Completions and awaits

An operation completes by itself, whenever the kernel is done with it, and it is awaited whenever
the coroutine gets to it. `poll` schedules the coroutine that the context names at that time. When
there is none, it only stores the result, and as `await_ready` is always false, an await that comes
later suspends a coroutine that nothing schedules.

An operation that is awaited before its completion is handled has its coroutine scheduled exactly
once, and `await_resume` returns the result of its own completion (`completions_delivered_iff`).
-/

namespace Novaio

open Transition

namespace DirectIo

variable {κ : Type*} {s t : DirectIo κ}

/-- What has been scheduled, returned and released, against the contexts and the completions. -/
structure History (s : DirectIo κ) : Prop where
  /-- A coroutine is scheduled at most once for an operation. -/
  scheduled_nodup : s.scheduled.Nodup
  /-- It is scheduled for an operation that it awaits and that has completed. -/
  of_scheduled {c : ℕ} {k : κ} : (c, k) ∈ s.scheduled →
    (s.contexts c).coro = some k ∧ s.completions c ≠ none
  /-- What is returned is the result of the completion, and its context is deleted. -/
  of_result {c : ℕ} {ret : IoResult} : (c, ret) ∈ s.results →
    s.completions c = some ret ∧ s.Deleted c
  /-- `poll` releases no resource. -/
  released_nil : s.released = []

/-- Nothing has happened at the start. -/
theorem new_history : (new : DirectIo κ).History := by constructor <;> simp [new]

/-- An operation that is awaited and has completed has had its coroutine scheduled exactly once,
unless it is cancelled, and each result that was returned is that of the operation's own
completion. What `poll` handles is recorded, and a coroutine that is resumed is returned the result
of the operation that it awaits. -/
structure CompletionsDelivered [DecidableEq κ] (s : DirectIo κ) : Prop where
  scheduled_once (c : ℕ) (k : κ) : (s.contexts c).coro = some k →
    s.completions c ≠ none → (s.contexts c).cancelled = false → s.scheduled.count (c, k) = 1
  own_result (c : ℕ) (ret : IoResult) : (c, ret) ∈ s.results → s.completions c = some ret
  poll_records (c : ℕ) (cqe : IoResult) (t : DirectIo κ) : directStep s (.poll c cqe) t →
    t.completions c = some cqe
  resume_own (k : κ) (t : DirectIo κ) : directStep s (.resume k) t →
    ∃ p c ret, s.suspension k = .suspended (some p) c ∧ (s.contexts c).coro = some k ∧
      s.completions c = some ret ∧ t.results = s.results ++ [(c, ret)]

/-- A step that awaits an operation takes place before its completion is handled. -/
def AwaitedInTime (s : DirectIo κ) : DirectStep κ → Prop
  | .await p _ => ∀ c, s.Owns p c → s.completions c = none
  | _ => True

variable [DecidableEq κ]

/-- What `poll` handles is recorded. -/
theorem completions_poll {c : ℕ} {cqe : IoResult} (hstep : directStep s (.poll c cqe) t) :
    t.completions c = some cqe := by
  cases StepCase.of_step hstep with
  | poll hflight =>
    rw [(poll_frame s c cqe).2.2.2.1]
    exact Function.update_self ..

/-- A coroutine that is resumed is returned the result of the operation that it awaits. -/
theorem results_resume (hs : s.Consistent) {k : κ} (hstep : directStep s (.resume k) t) :
    ∃ p c ret, s.suspension k = .suspended (some p) c ∧ (s.contexts c).coro = some k ∧
      s.completions c = some ret ∧ t.results = s.results ++ [(c, ret)] := by
  cases StepCase.of_step hstep with
  | @resume p c d k hsusp howns hready =>
    obtain ⟨rfl, cqe, hcqe⟩ := hs.resumed hsusp howns hready
    refine ⟨p, c, cqe, hsusp, (hs.suspended_for hsusp).1, hcqe, ?_⟩
    show s.results ++ [(c, ⟨(s.contexts c).res, (s.contexts c).flags⟩)] = _
    rw [hs.stored howns hcqe]

/-- Nothing is awaited at the start. -/
theorem new_completionsDelivered : (new : DirectIo κ).CompletionsDelivered :=
  ⟨by simp [new], by simp [new], fun _ _ _ => completions_poll,
    fun _ _ => results_resume new_consistent⟩

/-- What has completed stays so. -/
theorem completions_kept {a : DirectStep κ} (hstep : directStep s a t) {c : ℕ} {cqe : IoResult}
    (hc : s.completions c = some cqe) : t.completions c = some cqe := by
  cases StepCase.of_step hstep with
  | issue hfree => exact hc
  | move hp hfree => exact hc
  | await howns hrun hcoro => exact hc
  | @poll d e hflight =>
    obtain ⟨-, -, -, hcompletions, -⟩ := poll_frame s d e
    have hcd : c ≠ d := fun heq => by rw [heq, hflight.2] at hc; cases hc
    rw [hcompletions, Function.update_of_ne hcd, hc]
  | resume hsusp howns hready => exact hc
  | @destroy p d hp => cases d <;> exact hc

/-- What a step leaves of a context: a new one, one with the coroutine that awaits the operation,
with the result of its completion, or with the mark of its awaiter's end, or what it was. -/
inductive ContextCase (s : DirectIo κ) : DirectStep κ → ℕ → IoContext κ → Prop
  | issued (op : DirectOp) (p : ℕ) : ContextCase s (.issue op p) s.issued.length {}
  | awaited {p c : ℕ} (k : κ) (howns : s.Owns p c) (hcoro : (s.contexts c).coro = none) :
      ContextCase s (.await p k) c { s.contexts c with coro := some k }
  | completed (c : ℕ) (cqe : IoResult) :
      ContextCase s (.poll c cqe) c { s.contexts c with res := cqe.res, flags := cqe.flags }
  | marked (p c : ℕ) : ContextCase s (.destroy p) c { s.contexts c with cancelled := true }
  | kept (a : DirectStep κ) (c : ℕ) : ContextCase s a c (s.contexts c)

omit [DecidableEq κ] in
/-- A step that writes to one context keeps the others. -/
theorem ContextCase.of_update {a : DirectStep κ} {d : ℕ} {context : IoContext κ}
    (h : ContextCase s a d context) (c : ℕ) :
    ContextCase s a c (Function.update s.contexts d context c) := by
  rcases eq_or_ne c d with rfl | hne
  · rwa [Function.update_self]
  · rw [Function.update_of_ne hne]
    exact .kept a c

/-- A step writes to one context at most. -/
theorem ContextCase.of_step {a : DirectStep κ} (hstep : directStep s a t) (c : ℕ) :
    ContextCase s a c (t.contexts c) := by
  cases StepCase.of_step hstep with
  | @issue op p hfree => exact (ContextCase.issued op p).of_update c
  | move hp hfree => exact .kept _ c
  | @await p d k howns hrun hcoro => exact (ContextCase.awaited k howns hcoro).of_update c
  | @poll d cqe hflight =>
    rcases poll_cases s d cqe with ⟨-, hctx, -⟩ | ⟨-, hctx, -⟩ <;> rw [hctx]
    · exact .kept _ c
    · exact (ContextCase.completed d cqe).of_update c
  | resume hsusp howns hready => exact .kept _ c
  | @destroy p d hp =>
    cases d with
    | none => exact .kept _ c
    | some d => exact (ContextCase.marked p d).of_update c

/-- The coroutine of an operation is stored by the step that awaits it. -/
theorem coro_step {a : DirectStep κ} (hstep : directStep s a t) {c : ℕ} {k : κ}
    (hk : (t.contexts c).coro = some k) :
    (s.contexts c).coro = some k ∨
      ∃ p, a = .await p k ∧ s.Owns p c ∧ (s.contexts c).coro = none := by
  have hcase := ContextCase.of_step hstep c
  generalize t.contexts c = context at hcase hk
  cases hcase with
  | issued op p => cases hk
  | awaited k' howns hcoro =>
    obtain rfl := Option.some.inj hk
    exact .inr ⟨_, rfl, howns, hcoro⟩
  | completed | marked | kept => exact .inl hk

/-- The coroutine of an operation that has been issued stays stored. -/
theorem coro_kept {a : DirectStep κ} (hstep : directStep s a t) {c : ℕ} {k : κ}
    (hlt : c < s.issued.length) (hk : (s.contexts c).coro = some k) :
    (t.contexts c).coro = some k := by
  have hcase := ContextCase.of_step hstep c
  generalize t.contexts c = context at hcase ⊢
  cases hcase with
  | issued op p => exact (Nat.lt_irrefl _ hlt).elim
  | awaited k' howns hcoro =>
    rw [hcoro] at hk
    cases hk
  | completed | marked | kept => exact hk

/-- What a step schedules: the coroutine of the operation whose completion it handles. -/
theorem scheduled_step {a : DirectStep κ} (hstep : directStep s a t) :
    t.scheduled = s.scheduled ∨ ∃ c cqe k, a = .poll c cqe ∧ s.InFlight c ∧
      (s.contexts c).coro = some k ∧ t.scheduled = s.scheduled ++ [(c, k)] := by
  cases StepCase.of_step hstep with
  | @poll c cqe hflight =>
    rcases poll_cases s c cqe with ⟨-, -, -, -, hsched⟩ | ⟨-, -, -, -, hsched⟩
    · exact .inl hsched
    · cases hk : (s.contexts c).coro with
      | none => exact .inl (by rw [hsched, hk]; simp)
      | some k => exact .inr ⟨c, cqe, k, rfl, hflight, hk, by rw [hsched, hk]; rfl⟩
  | @destroy p d hp => cases d <;> exact .inl rfl
  | _ => exact .inl rfl

/-- What a step returns: the result of an operation that has completed, whose context it deletes. -/
theorem results_step (hs : s.Consistent) {a : DirectStep κ} (hstep : directStep s a t) :
    t.results = s.results ∨ ∃ c ret, s.completions c = some ret ∧ t.Deleted c ∧
      t.results = s.results ++ [(c, ret)] := by
  cases StepCase.of_step hstep with
  | @poll c cqe hflight => exact .inl (poll_frame s c cqe).2.2.2.2.1
  | @resume p c d k hsusp howns hready =>
    obtain ⟨-, cqe, hcqe⟩ := hs.resumed hsusp howns hready
    refine .inr ⟨c, cqe, hcqe, ?_, ?_⟩
    · unfold Deleted
      rw [accesses_resume]
      simp
    · show s.results ++ [(c, ⟨(s.contexts c).res, (s.contexts c).flags⟩)] = _
      rw [hs.stored howns hcqe]
  | @destroy p d hp => cases d <;> exact .inl rfl
  | _ => exact .inl rfl

/-- No step releases a resource. -/
theorem released_step {a : DirectStep κ} (hstep : directStep s a t) : t.released = s.released := by
  cases StepCase.of_step hstep with
  | @poll c cqe hflight => exact (poll_frame s c cqe).2.2.2.2.2
  | @destroy p d hp => cases d <;> rfl
  | _ => rfl

/-- Every step keeps the history. -/
theorem History.step (h : s.History) (hs : s.Consistent) {a : DirectStep κ}
    (hstep : directStep s a t) : t.History := by
  -- What a completion has scheduled stays so.
  have hkept : ∀ {c k}, (s.contexts c).coro = some k → s.completions c ≠ none →
      (t.contexts c).coro = some k ∧ t.completions c ≠ none := by
    intro c k hk hc
    obtain ⟨cqe, hcqe⟩ := Option.ne_none_iff_exists'.mp hc
    have hlt := hs.completed_lt hcqe
    exact ⟨coro_kept hstep hlt hk, by simp [completions_kept hstep hcqe]⟩
  refine ⟨?_, ?_, ?_, (released_step hstep).trans h.released_nil⟩
  · rcases scheduled_step hstep with heq | ⟨c, cqe, k, -, hflight, -, heq⟩ <;> rw [heq]
    · exact h.scheduled_nodup
    · rw [List.nodup_append]
      refine ⟨h.scheduled_nodup, by simp, ?_⟩
      rintro x hx y hy rfl
      rw [List.mem_singleton.mp hy] at hx
      exact (h.of_scheduled hx).2 hflight.2
  · intro c k hmem
    rcases scheduled_step hstep with heq | ⟨d, cqe, k', rfl, hflight, hk, heq⟩ <;>
      rw [heq] at hmem
    · obtain ⟨hk, hc⟩ := h.of_scheduled hmem
      exact hkept hk hc
    · rcases List.mem_append.mp hmem with hmem | hmem
      · obtain ⟨hk, hc⟩ := h.of_scheduled hmem
        exact hkept hk hc
      · obtain ⟨rfl, rfl⟩ := Prod.mk.inj (List.mem_singleton.mp hmem)
        refine ⟨coro_kept hstep hflight.1 hk, ?_⟩
        cases StepCase.of_step hstep with
        | poll _ =>
          rw [(poll_frame s c cqe).2.2.2.1]
          simp
  · intro c ret hmem
    rcases results_step hs hstep with heq | ⟨d, ret', hc, hdel, heq⟩ <;> rw [heq] at hmem
    · obtain ⟨hc, hdel⟩ := h.of_result hmem
      exact ⟨completions_kept hstep hc, hdel.step hstep⟩
    · rcases List.mem_append.mp hmem with hmem | hmem
      · obtain ⟨hc, hdel⟩ := h.of_result hmem
        exact ⟨completions_kept hstep hc, hdel.step hstep⟩
      · obtain ⟨rfl, rfl⟩ := Prod.mk.inj (List.mem_singleton.mp hmem)
        exact ⟨completions_kept hstep hc, hdel⟩

/-- What is scheduled stays so. -/
theorem mem_scheduled_step {a : DirectStep κ} (hstep : directStep s a t) {x : ℕ × κ}
    (hx : x ∈ s.scheduled) : x ∈ t.scheduled := by
  rcases scheduled_step hstep with heq | ⟨c, cqe, k, -, -, -, heq⟩ <;> rw [heq]
  · exact hx
  · exact List.mem_append_left _ hx

/-- An operation that is cancelled stays so. -/
theorem cancelled_kept {a : DirectStep κ} (hstep : directStep s a t) {c : ℕ}
    (hlt : c < s.issued.length) (hcan : (t.contexts c).cancelled = false) :
    (s.contexts c).cancelled = false := by
  have hcase := ContextCase.of_step hstep c
  generalize t.contexts c = context at hcase hcan
  cases hcase with
  | issued op p => exact (Nat.lt_irrefl _ hlt).elim
  | marked p c => cases hcan
  | awaited | completed | kept => exact hcan

/-- Without an await that comes too late, a step delivers the completions. -/
theorem CompletionsDelivered.step (h : s.CompletionsDelivered) (hs : s.Consistent) (hh : s.History)
    {a : DirectStep κ} (hstep : directStep s a t) (htime : s.AwaitedInTime a) :
    t.CompletionsDelivered := by
  refine ⟨?_, fun c ret hmem => ((hh.step hs hstep).of_result hmem).1,
    fun _ _ _ => completions_poll, fun _ _ => results_resume (hs.step hstep)⟩
  intro c k hk hc hcan
  obtain ⟨cqe, hcqe⟩ := Option.ne_none_iff_exists'.mp hc
  apply List.count_eq_one_of_mem (hh.step hs hstep).scheduled_nodup
  rcases coro_step hstep hk with hks | ⟨p, rfl, howns, -⟩
  · rcases completions_step hstep hcqe with hold | ⟨rfl, hflight, rfl⟩
    · -- It was scheduled before.
      have hcan := cancelled_kept hstep (hs.completed_lt hold) hcan
      have hone := h.scheduled_once c k hks (by simp [hold]) hcan
      exact mem_scheduled_step hstep (List.count_pos_iff.mp (by omega))
    · -- It completes in this step.
      rcases poll_cases s c cqe with ⟨htrue, hctx, -⟩ | ⟨-, -, -, -, hsched⟩
      · rw [hctx, htrue] at hcan
        cases hcan
      · rw [hsched, hks]
        simp
  · -- It is awaited in this step, so that it has not completed.
    have hnone := htime c howns
    rcases completions_step hstep hcqe with hold | ⟨heq, -⟩
    · rw [hnone] at hold
      cases hold
    · cases heq

/-- An await that comes too late is not followed by a resumption. -/
theorem awaitedInTime_of_delivered (hs : s.Consistent) (hh : s.History) {a : DirectStep κ}
    (hstep : directStep s a t) (h : t.CompletionsDelivered) : s.AwaitedInTime a := by
  cases StepCase.of_step hstep with
  | @await p c k howns hrun hcoro =>
    intro d hd
    have heq := howns.symm.trans hd
    simp only [Option.some.injEq, SafeIoAwaiter.mk.injEq] at heq
    subst heq
    by_contra hc
    have hone := h.scheduled_once c k (by simp [awaitSuspend, write]) hc (by
      simpa [awaitSuspend, write] using hs.not_cancelled howns)
    have hmem : (c, k) ∈ s.scheduled :=
      List.count_pos_iff.mp (Nat.lt_of_lt_of_eq Nat.zero_lt_one hone.symm)
    rw [(hh.of_scheduled hmem).1] at hcoro
    cases hcoro
  | _ => trivial

end DirectIo

/-- In every run of the direct operations, whatever the order of their completions and awaits: every
operation that is awaited and has completed has its coroutine scheduled exactly once, and
`await_resume` returns the result of its own completion, in every state exactly when no operation is
awaited after its completion has been handled. -/
theorem completions_delivered_iff {κ : Type*} [DecidableEq κ]
    (l : List (DirectStep κ × DirectIo κ)) (hl : Path directStep DirectIo.new l) :
    (∀ x ∈ l, x.2.CompletionsDelivered) ↔ Meets DirectIo.AwaitedInTime DirectIo.new l := by
  refine hl.always_iff_meets (I := fun s => s.Consistent ∧ s.History)
    (fun _ _ _ h hstep => ⟨h.1.step hstep, h.2.step h.1 hstep⟩) ?_
    ⟨DirectIo.new_consistent, DirectIo.new_history⟩ DirectIo.new_completionsDelivered
  intro s a t hs h hstep
  constructor
  · intro ht
    exact DirectIo.awaitedInTime_of_delivered hs.1 hs.2 hstep ht
  · intro htime
    exact h.step hs.1 hs.2 hstep htime

/-- Two operations that are both awaited before they complete, and complete in the other order. -/
theorem completions_delivered_two :
    ∃ l : List (DirectStep Bool × DirectIo Bool),
      l.map Prod.fst = [.issue .recv 0, .issue .send 1, .await 0 false, .await 1 true,
        .poll 1 ⟨7, 0⟩, .poll 0 ⟨5, 1⟩, .resume true, .resume false] ∧
      Path directStep DirectIo.new l ∧
      (last DirectIo.new l).scheduled = [(1, true), (0, false)] ∧
      (last DirectIo.new l).results = [(1, ⟨7, 0⟩), (0, ⟨5, 1⟩)] ∧
      ∀ x ∈ l, x.2.CompletionsDelivered := by
  obtain ⟨l, hops, hsched, hresults, hl, htime⟩ : ∃ l : List (DirectStep Bool × DirectIo Bool),
      l.map Prod.fst = [.issue .recv 0, .issue .send 1, .await 0 false, .await 1 true,
        .poll 1 ⟨7, 0⟩, .poll 0 ⟨5, 1⟩, .resume true, .resume false] ∧
      (last DirectIo.new l).scheduled = [(1, true), (0, false)] ∧
      (last DirectIo.new l).results = [(1, ⟨7, 0⟩), (0, ⟨5, 1⟩)] ∧
      Path directStep DirectIo.new l ∧ Meets DirectIo.AwaitedInTime DirectIo.new l := by
    refine ⟨[(_, _), (_, _), (_, _), (_, _), (_, _), (_, _), (_, _), (_, _)], rfl, ?_, ?_,
      ⟨rfl, rfl, rfl, rfl, rfl, rfl, rfl, rfl, trivial⟩, ?_⟩
    · rfl
    · rfl
    · exact ⟨trivial, trivial, fun _ _ => rfl, fun _ _ => rfl, trivial, trivial, trivial, trivial,
        trivial⟩
  exact ⟨l, hops, hl, hsched, hresults, (completions_delivered_iff l hl).mpr htime⟩

/-- An operation that completes before it is awaited: its coroutine is suspended, and nothing
schedules it. -/
theorem completion_lost :
    ∃ l : List (DirectStep Unit × DirectIo Unit),
      l.map Prod.fst = [.issue .recv 0, .poll 0 ⟨5, 1⟩, .await 0 ()] ∧
      Path directStep DirectIo.new l ∧ ¬ ∀ x ∈ l, x.2.CompletionsDelivered := by
  refine ⟨[(_, _), (_, _), (_, _)], rfl, ⟨rfl, rfl, rfl, trivial⟩, ?_⟩
  intro h
  have hone := (h _ (List.mem_of_mem_getLast? rfl)).scheduled_once 0 () rfl nofun rfl
  revert hone
  decide

end Novaio
