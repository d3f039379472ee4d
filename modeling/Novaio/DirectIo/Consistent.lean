import Novaio.DirectIo.Basic

/-!
# What holds of the contexts in every run

A context has at most one awaiter. Until its completion is handled it exists, and `cancelled_` says
whether its awaiter does not; afterwards it exists as long as its awaiter does, or longer
(`DirectIo.Consistent`). A coroutine that waits for an operation is suspended for no other one, and
is scheduled only for an operation that has completed. Every step keeps this, whatever the order of
the completions, the awaits, the moves and the destructions (`Consistent.step`).
-/

namespace Novaio

open Transition

namespace DirectIo

variable {κ : Type*} {s t : DirectIo κ}

/-- The steps, one by one: where each is possible, and what it leads to. -/
inductive StepCase [DecidableEq κ] (s : DirectIo κ) : DirectStep κ → DirectIo κ → Prop where
  | issue {op : DirectOp} {p : ℕ} (hfree : s.awaiters p = none) :
    StepCase s (.issue op p) (issue op s p)
  | move {p q : ℕ} {c : Option ℕ} (hp : s.awaiters p = some ⟨c⟩) (hfree : s.awaiters q = none) :
    StepCase s (.move p q) (s.move p q c)
  | await {p c : ℕ} {h : κ} (howns : s.Owns p c) (hrun : s.suspension h = .running)
    (hcoro : (s.contexts c).coro = none) : StepCase s (.await p h) (s.awaitSuspend p c h)
  | poll {c : ℕ} {cqe : IoResult} (hflight : s.InFlight c) : StepCase s (.poll c cqe) (s.poll c cqe)
  | resume {p c d : ℕ} {h : κ} (hsusp : s.suspension h = .suspended (some p) d)
    (howns : s.Owns p c) (hready : h ∈ s.ready) : StepCase s (.resume h) (s.resume p c h)
  | destroy {p : ℕ} {c : Option ℕ} (hp : s.awaiters p = some ⟨c⟩) :
    StepCase s (.destroy p) (s.destroy p c)

/-- A step is one of these. -/
theorem StepCase.of_step [DecidableEq κ] {a : DirectStep κ} (h : directStep s a t) :
    StepCase s a t := by
  unfold directStep at h
  cases a with
  | issue op p =>
    simp only [step, Option.ite_none_right_eq_some, Option.some.injEq] at h
    obtain ⟨hfree, rfl⟩ := h
    have hcall : call op s p = DirectIo.issue op s p := by cases op <;> rfl
    exact hcall ▸ .issue hfree
  | move p q =>
    simp only [step] at h
    split at h
    · rename_i obj hp hfree
      obtain rfl := Option.some.inj h
      exact .move hp hfree
    · cases h
  | await p k =>
    simp only [step] at h
    split at h
    · rename_i c hp
      simp only [Option.ite_none_right_eq_some, Option.some.injEq] at h
      obtain ⟨⟨hrun, hcoro⟩, rfl⟩ := h
      exact .await hp hrun hcoro
    · cases h
  | poll c cqe =>
    simp only [step, Option.ite_none_right_eq_some, Option.some.injEq] at h
    obtain ⟨hflight, rfl⟩ := h
    exact .poll hflight
  | resume k =>
    simp only [step] at h
    split at h
    · rename_i p d hsusp
      split at h
      · rename_i c hp
        simp only [Option.ite_none_right_eq_some, Option.some.injEq] at h
        obtain ⟨hready, rfl⟩ := h
        exact .resume hsusp hp hready
      · cases h
    · cases h
  | destroy p =>
    simp only [step] at h
    split at h
    · rename_i obj hp
      obtain rfl := Option.some.inj h
      exact .destroy hp
    · cases h

/-- What holds between the contexts, the awaiters, the coroutines and the completions. -/
structure Consistent (s : DirectIo κ) : Prop where
  /-- An awaiter is for an operation that has been issued. -/
  owned_lt {p c : ℕ} : s.Owns p c → c < s.issued.length
  /-- An operation has one awaiter. -/
  owner_unique {p q c : ℕ} : s.Owns p c → s.Owns q c → p = q
  /-- The context of an awaiter exists. -/
  not_deleted_of_owns {p c : ℕ} : s.Owns p c → ¬ s.Deleted c
  /-- The context of an operation exists until its completion is handled. -/
  not_deleted_of_inFlight {c : ℕ} : s.InFlight c → ¬ s.Deleted c
  /-- While an operation is in flight, it is cancelled or has an awaiter. -/
  owned_of_not_cancelled {c : ℕ} : s.InFlight c → (s.contexts c).cancelled = false →
    ∃ p, s.Owns p c
  /-- An operation that has an awaiter is not cancelled. -/
  not_cancelled {p c : ℕ} : s.Owns p c → (s.contexts c).cancelled = false
  /-- What has completed was issued. -/
  completed_lt {c : ℕ} {cqe : IoResult} : s.completions c = some cqe → c < s.issued.length
  /-- What is accessed was issued. -/
  accessed_lt {a : Access} : a ∈ s.accesses → a.ctx < s.issued.length
  /-- The context of an awaiter holds the result of its own completion. -/
  stored {p c : ℕ} {cqe : IoResult} : s.Owns p c → s.completions c = some cqe →
    (⟨(s.contexts c).res, (s.contexts c).flags⟩ : IoResult) = cqe
  /-- A coroutine is suspended for an operation that has stored it, in its awaiter or in one that
  was moved from. -/
  suspended_for {k : κ} {p : Option ℕ} {c : ℕ} : s.suspension k = .suspended p c →
    (s.contexts c).coro = some k ∧ c < s.issued.length
  /-- The awaiter in which a coroutine is suspended is for that operation, unless it has been moved
  from. -/
  suspended_in {k : κ} {p c d : ℕ} : s.suspension k = .suspended (some p) c → s.Owns p d → d = c
  /-- The place of an awaiter in which a coroutine is suspended is not free. -/
  suspended_at {k : κ} {p c : ℕ} : s.suspension k = .suspended (some p) c → s.awaiters p ≠ none
  /-- The coroutine of an operation in flight is suspended for it. -/
  awaited {k : κ} {c : ℕ} : s.InFlight c → (s.contexts c).coro = some k →
    ∃ p, s.suspension k = .suspended p c
  /-- A coroutine that is scheduled is suspended for an operation that has completed. -/
  ready_suspended {k : κ} : k ∈ s.ready → ∃ p c, s.suspension k = .suspended p c ∧
    s.completions c ≠ none
  /-- A coroutine is scheduled once at a time. -/
  ready_nodup : s.ready.Nodup

/-- Nothing is issued at the start. -/
theorem new_consistent : (new : DirectIo κ).Consistent := by
  constructor <;> simp [new, Owns, InFlight, Deleted]

/-! ## What the steps do to the awaiters and the contexts -/

/-- After a construction, a change or a destruction at a place. -/
theorem owns_setAwaiter {p x c : ℕ} {obj : Option SafeIoAwaiter} :
    (s.setAwaiter p obj).Owns x c ↔ if x = p then obj = some ⟨some c⟩ else s.Owns x c := by
  unfold Owns setAwaiter
  by_cases h : x = p
  · subst h
    simp
  · simp [h]

/-- After a new operation. -/
theorem owns_issue {op : DirectOp} {p x c : ℕ} :
    (issue op s p).Owns x c ↔ if x = p then c = s.issued.length else s.Owns x c := by
  unfold Owns issue
  by_cases h : x = p
  · subst h
    simp [eq_comm]
  · simp [h]

/-- After a move, the new awaiter has what the old one had. -/
theorem owns_move {p q x d : ℕ} {c : Option ℕ} (hp : s.awaiters p = some ⟨c⟩) :
    (s.move p q c).Owns x d ↔ if x = q then s.Owns p d else x ≠ p ∧ s.Owns x d := by
  unfold move
  rw [owns_setAwaiter, owns_setAwaiter]
  split_ifs with hq hx
  · simp [Owns, hp]
  · simp [hx]
  · simp [hx]

/-- After a destruction. -/
theorem owns_destroy {p x d : ℕ} {c : Option ℕ} :
    (s.destroy p c).Owns x d ↔ x ≠ p ∧ s.Owns x d := by
  unfold Owns destroy setAwaiter
  by_cases h : x = p
  · subst h
    simp
  · cases c <;> simp [h, write]

/-- What is in flight after a new operation. -/
theorem inFlight_issue {op : DirectOp} {p c : ℕ} (hflight : (issue op s p).InFlight c) :
    c = s.issued.length ∨ s.InFlight c := by
  obtain ⟨hc, hnone⟩ := hflight
  simp only [issue, List.length_append, List.length_singleton] at hc
  rcases Nat.lt_succ_iff_lt_or_eq.mp hc with hc | hc
  · exact .inr ⟨hc, hnone⟩
  · exact .inl hc

/-- A coroutine that is still suspended in an awaiter was so before another one was destroyed. -/
theorem leave_eq_suspended {u : Suspension} {p c : ℕ} {q : Option ℕ}
    (h : u.leave p = .suspended q c) :
    ∃ q', u = .suspended q' c ∧ ∀ x, q = some x → q' = some x ∧ x ≠ p := by
  cases u with
  | running => cases h
  | suspended a d =>
    cases a with
    | none =>
      simp only [Suspension.leave, Suspension.suspended.injEq] at h
      obtain ⟨rfl, rfl⟩ := h
      exact ⟨none, rfl, nofun⟩
    | some y =>
      simp only [Suspension.leave] at h
      split_ifs at h with hy
      · simp only [Suspension.suspended.injEq] at h
        obtain ⟨rfl, rfl⟩ := h
        exact ⟨some y, rfl, nofun⟩
      · simp only [Suspension.suspended.injEq] at h
        obtain ⟨rfl, rfl⟩ := h
        refine ⟨some y, rfl, ?_⟩
        rintro x hx
        obtain rfl := Option.some.inj hx
        exact ⟨rfl, hy⟩

/-- What is suspended for an operation stays so. -/
theorem leave_suspended (p : ℕ) (q : Option ℕ) (c : ℕ) :
    ∃ q', (Suspension.suspended q c).leave p = .suspended q' c := by
  cases q with
  | none => exact ⟨none, rfl⟩
  | some x =>
    simp only [Suspension.leave]
    split_ifs
    · exact ⟨none, rfl⟩
    · exact ⟨some x, rfl⟩

/-- The context of a completion that is handled, after the step. -/
theorem poll_cases (s : DirectIo κ) (c : ℕ) (cqe : IoResult) :
    (s.contexts c).cancelled = true ∧ (s.poll c cqe).contexts = s.contexts ∧
        (s.poll c cqe).accesses = s.accesses ++ [.read c, .delete c] ∧
        (s.poll c cqe).ready = s.ready ∧ (s.poll c cqe).scheduled = s.scheduled ∨
      (s.contexts c).cancelled = false ∧
        (s.poll c cqe).contexts = Function.update s.contexts c
          { s.contexts c with res := cqe.res, flags := cqe.flags } ∧
        (s.poll c cqe).accesses = s.accesses ++ [.read c, .write c, .read c] ∧
        (s.poll c cqe).ready = s.ready ++ (s.contexts c).coro.toList ∧
        (s.poll c cqe).scheduled = s.scheduled ++ (s.contexts c).coro.toList.map (c, ·) := by
  unfold poll
  cases hcan : (s.contexts c).cancelled with
  | true =>
    left
    simp [read, delete, hcan]
  | false =>
    right
    cases hcoro : (s.contexts c).coro <;>
      simp [read, write, schedule, hcan, hcoro]

/-- What a completion accesses. -/
theorem ctx_of_mem_poll {c : ℕ} {cqe : IoResult} {a : Access}
    (ha : a ∈ (s.poll c cqe).accesses) : a ∈ s.accesses ∨ a.ctx = c := by
  rcases poll_cases s c cqe with ⟨-, -, hacc, -⟩ | ⟨-, -, hacc, -⟩
  · rw [hacc] at ha
    simp only [List.mem_append, List.mem_cons, List.not_mem_nil, or_false] at ha
    rcases ha with ha | rfl | rfl
    · exact .inl ha
    · exact .inr rfl
    · exact .inr rfl
  · rw [hacc] at ha
    simp only [List.mem_append, List.mem_cons, List.not_mem_nil, or_false] at ha
    rcases ha with ha | rfl | rfl | rfl
    · exact .inl ha
    · exact .inr rfl
    · exact .inr rfl
    · exact .inr rfl

/-- What a completion leaves as it is. -/
theorem poll_frame (s : DirectIo κ) (c : ℕ) (cqe : IoResult) :
    (s.poll c cqe).issued = s.issued ∧ (s.poll c cqe).awaiters = s.awaiters ∧
      (s.poll c cqe).suspension = s.suspension ∧
      (s.poll c cqe).completions = Function.update s.completions c (some cqe) ∧
      (s.poll c cqe).results = s.results ∧ (s.poll c cqe).released = s.released := by
  unfold poll
  cases hcan : (s.contexts c).cancelled with
  | true => simp [read, delete, hcan]
  | false => cases hcoro : (s.contexts c).coro <;> simp [read, write, schedule, hcan, hcoro]

/-- A coroutine is suspended for one operation. -/
theorem suspended_ctx {k : κ} {x y : Option ℕ} {c d : ℕ}
    (hx : s.suspension k = .suspended x c) (hy : s.suspension k = .suspended y d) : c = d := by
  rw [hx] at hy
  exact (Suspension.suspended.inj hy).2

namespace Consistent

/-- A new operation. -/
theorem issue (h : s.Consistent) {op : DirectOp} {p : ℕ} (hfree : s.awaiters p = none) :
    (issue op s p).Consistent := by
  -- The new object owns the new context, and the others own what they did.
  have howns : ∀ {x c}, (DirectIo.issue op s p).Owns x c →
      x = p ∧ c = s.issued.length ∨ s.Owns x c ∧ c < s.issued.length := by
    intro x c hx
    rw [owns_issue] at hx
    split_ifs at hx with hxp
    · exact .inl ⟨hxp, hx⟩
    · exact .inr ⟨hx, h.owned_lt hx⟩
  have hlen : (DirectIo.issue op s p).issued.length = s.issued.length + 1 := by
    simp [DirectIo.issue]
  have hold : ∀ {c}, c < s.issued.length →
      (DirectIo.issue op s p).contexts c = s.contexts c := by
    intro c hc
    exact Function.update_of_ne (by omega) _ _
  have hnew : (DirectIo.issue op s p).contexts s.issued.length = {} := Function.update_self ..
  -- The new context is at an address that nothing has accessed.
  have hfresh : ¬ s.Deleted s.issued.length := fun hd => Nat.lt_irrefl _ (h.accessed_lt hd)
  have hplace : ∀ {x c k}, s.suspension k = .suspended (some x) c → x ≠ p := by
    rintro x c k hk rfl
    exact h.suspended_at hk hfree
  constructor
  case owned_lt =>
    intro x c hx
    rcases howns hx with ⟨-, rfl⟩ | ⟨-, hc⟩ <;> omega
  case owner_unique =>
    intro x y c hx hy
    rcases howns hx with ⟨rfl, rfl⟩ | ⟨hx, hc⟩ <;> rcases howns hy with ⟨rfl, hc'⟩ | ⟨hy, hc'⟩
    · rfl
    · omega
    · omega
    · exact h.owner_unique hx hy
  case not_deleted_of_owns =>
    intro x c hx
    rcases howns hx with ⟨-, rfl⟩ | ⟨hx, -⟩
    · exact hfresh
    · exact h.not_deleted_of_owns hx
  case not_deleted_of_inFlight =>
    intro c hc
    rcases inFlight_issue hc with rfl | hc
    · exact hfresh
    · exact h.not_deleted_of_inFlight hc
  case owned_of_not_cancelled =>
    intro c hc hcan
    rcases inFlight_issue hc with rfl | hc
    · exact ⟨p, owns_issue.mpr (by simp)⟩
    · rw [hold hc.1] at hcan
      obtain ⟨x, hx⟩ := h.owned_of_not_cancelled hc hcan
      have hxp : x ≠ p := fun e => by simp [Owns, e, hfree] at hx
      exact ⟨x, owns_issue.mpr (by rwa [if_neg hxp])⟩
  case not_cancelled =>
    intro x c hx
    rcases howns hx with ⟨-, rfl⟩ | ⟨hx, hc⟩
    · rw [hnew]
    · rw [hold hc]
      exact h.not_cancelled hx
  case completed_lt =>
    intro c cqe hc
    have hlt := h.completed_lt hc
    omega
  case accessed_lt =>
    intro a ha
    have hlt := h.accessed_lt ha
    omega
  case stored =>
    intro x c cqe hx hc
    have hlt := h.completed_lt hc
    rcases howns hx with ⟨-, rfl⟩ | ⟨hx, -⟩
    · exact absurd hlt (Nat.lt_irrefl _)
    · rw [hold hlt]
      exact h.stored hx hc
  case suspended_for =>
    intro k x c hk
    obtain ⟨hcoro, hlt⟩ := h.suspended_for hk
    exact ⟨by rw [hold hlt, hcoro], by omega⟩
  case suspended_in =>
    intro k x c d hk hx
    rw [owns_issue, if_neg (hplace hk)] at hx
    exact h.suspended_in hk hx
  case suspended_at =>
    intro k x c hk
    show Function.update s.awaiters p _ x ≠ none
    rw [Function.update_of_ne (hplace hk)]
    exact h.suspended_at hk
  case awaited =>
    intro k c hc hcoro
    rcases inFlight_issue hc with rfl | hc
    · rw [hnew] at hcoro
      cases hcoro
    · rw [hold hc.1] at hcoro
      exact h.awaited hc hcoro
  case ready_suspended => exact h.ready_suspended
  case ready_nodup => exact h.ready_nodup

/-- A move. -/
theorem move (h : s.Consistent) {p q : ℕ} {c : Option ℕ} (hp : s.awaiters p = some ⟨c⟩)
    (hfree : s.awaiters q = none) : (s.move p q c).Consistent := by
  -- The new object owns what the old one did.
  have howns : ∀ {x d}, (s.move p q c).Owns x d →
      x = q ∧ s.Owns p d ∨ x ≠ q ∧ x ≠ p ∧ s.Owns x d := by
    intro x d hx
    rw [owns_move hp] at hx
    split_ifs at hx with hxq
    · exact .inl ⟨hxq, hx⟩
    · exact .inr ⟨hxq, hx⟩
  have howner : ∀ {x d}, (s.move p q c).Owns x d → ∃ y, s.Owns y d := by
    intro x d hx
    rcases howns hx with ⟨-, hx⟩ | ⟨-, -, hx⟩ <;> exact ⟨_, hx⟩
  have hplace : ∀ {x d k}, s.suspension k = .suspended (some x) d → x ≠ q := by
    rintro x d k hk rfl
    exact h.suspended_at hk hfree
  constructor
  case owned_lt =>
    intro x d hx
    obtain ⟨y, hy⟩ := howner hx
    exact h.owned_lt hy
  case owner_unique =>
    intro x y d hx hy
    rcases howns hx with ⟨hxq, hxd⟩ | ⟨-, hxp, hxd⟩ <;>
      rcases howns hy with ⟨hyq, hyd⟩ | ⟨-, hyp, hyd⟩
    · rw [hxq, hyq]
    · exact absurd (h.owner_unique hyd hxd) hyp
    · exact absurd (h.owner_unique hxd hyd) hxp
    · exact h.owner_unique hxd hyd
  case not_deleted_of_owns =>
    intro x d hx
    obtain ⟨y, hy⟩ := howner hx
    exact h.not_deleted_of_owns hy
  case not_deleted_of_inFlight => exact h.not_deleted_of_inFlight
  case owned_of_not_cancelled =>
    intro d hd hcan
    obtain ⟨x, hx⟩ := h.owned_of_not_cancelled hd hcan
    by_cases hxp : x = p
    · subst hxp
      exact ⟨q, (owns_move hp).mpr (by rwa [if_pos rfl])⟩
    · have hxq : x ≠ q := fun e => by simp [Owns, e, hfree] at hx
      exact ⟨x, (owns_move hp).mpr (by rw [if_neg hxq]; exact ⟨hxp, hx⟩)⟩
  case not_cancelled =>
    intro x d hx
    obtain ⟨y, hy⟩ := howner hx
    exact h.not_cancelled hy
  case completed_lt => exact h.completed_lt
  case accessed_lt => exact h.accessed_lt
  case stored =>
    intro x d cqe hx hd
    obtain ⟨y, hy⟩ := howner hx
    exact h.stored hy hd
  case suspended_for => exact h.suspended_for
  case suspended_in =>
    intro k x d e hk hx
    rcases howns hx with ⟨rfl, -⟩ | ⟨-, -, hx⟩
    · exact absurd rfl (hplace hk)
    · exact h.suspended_in hk hx
  case suspended_at =>
    intro k x d hk
    show Function.update (Function.update s.awaiters p _) q _ x ≠ none
    rw [Function.update_of_ne (hplace hk), Function.update_apply]
    split_ifs
    · simp
    · exact h.suspended_at hk
  case awaited => exact h.awaited
  case ready_suspended => exact h.ready_suspended
  case ready_nodup => exact h.ready_nodup

/-- A completion. -/
theorem poll (h : s.Consistent) {c : ℕ} {cqe : IoResult} (hflight : s.InFlight c) :
    (s.poll c cqe).Consistent := by
  obtain ⟨hissued, hawaiters, hsuspension, hcompletions, -, -⟩ := poll_frame s c cqe
  have howns : ∀ {x d}, (s.poll c cqe).Owns x d ↔ s.Owns x d := by
    intro x d
    unfold Owns
    rw [hawaiters]
  have hdone : ∀ {d}, (s.poll c cqe).InFlight d ↔ s.InFlight d ∧ d ≠ c := by
    intro d
    unfold InFlight
    rw [hissued, hcompletions, Function.update_apply]
    split_ifs with hd <;> simp [hd]
  have hcompleted : ∀ {d e}, s.completions d = some e → (s.poll c cqe).completions d = some e := by
    intro d e hd
    have hdc : d ≠ c := fun heq => by rw [heq, hflight.2] at hd; cases hd
    rw [hcompletions, Function.update_of_ne hdc, hd]
  have hcontext : ∀ d, ((s.poll c cqe).contexts d).coro = (s.contexts d).coro ∧
      ((s.poll c cqe).contexts d).cancelled = (s.contexts d).cancelled ∧
      (d ≠ c → (s.poll c cqe).contexts d = s.contexts d) := by
    intro d
    rcases poll_cases s c cqe with ⟨-, hctx, -⟩ | ⟨-, hctx, -⟩
    · simp [hctx]
    · rw [hctx, Function.update_apply]
      split_ifs with hd <;> simp [hd]
  have hdeleted : ∀ {d}, (s.poll c cqe).Deleted d → s.Deleted d ∨
      d = c ∧ (s.contexts c).cancelled = true := by
    intro d hd
    unfold Deleted at hd ⊢
    rcases poll_cases s c cqe with ⟨hcan, -, hacc, -⟩ | ⟨-, -, hacc, -⟩
    · rw [hacc] at hd
      simpa [hcan] using hd
    · rw [hacc] at hd
      left
      simpa using hd
  constructor
  case owned_lt =>
    intro x d hx
    rw [hissued]
    exact h.owned_lt (howns.mp hx)
  case owner_unique =>
    intro x y d hx hy
    exact h.owner_unique (howns.mp hx) (howns.mp hy)
  case not_deleted_of_owns =>
    intro x d hx hd
    rcases hdeleted hd with hd | ⟨rfl, hcan⟩
    · exact h.not_deleted_of_owns (howns.mp hx) hd
    · rw [h.not_cancelled (howns.mp hx)] at hcan
      cases hcan
  case not_deleted_of_inFlight =>
    intro d hd hdel
    obtain ⟨hd, hdc⟩ := hdone.mp hd
    rcases hdeleted hdel with hdel | ⟨rfl, -⟩
    · exact h.not_deleted_of_inFlight hd hdel
    · exact hdc rfl
  case owned_of_not_cancelled =>
    intro d hd hcan
    rw [(hcontext d).2.1] at hcan
    obtain ⟨x, hx⟩ := h.owned_of_not_cancelled (hdone.mp hd).1 hcan
    exact ⟨x, howns.mpr hx⟩
  case not_cancelled =>
    intro x d hx
    rw [(hcontext d).2.1]
    exact h.not_cancelled (howns.mp hx)
  case completed_lt =>
    intro d e hd
    rw [hissued]
    rw [hcompletions, Function.update_apply] at hd
    split_ifs at hd with hdc
    · exact hdc ▸ hflight.1
    · exact h.completed_lt hd
  case accessed_lt =>
    intro a ha
    rw [hissued]
    rcases ctx_of_mem_poll ha with ha | rfl
    · exact h.accessed_lt ha
    · exact hflight.1
  case stored =>
    intro x d e hx hd
    by_cases hdc : d = c
    · subst hdc
      rw [hcompletions, Function.update_self, Option.some.injEq] at hd
      subst hd
      rcases poll_cases s d cqe with ⟨hcan, -⟩ | ⟨-, hctx, -⟩
      · rw [h.not_cancelled (howns.mp hx)] at hcan
        cases hcan
      · rw [hctx, Function.update_self]
    · rw [hcompletions, Function.update_of_ne hdc] at hd
      rw [(hcontext d).2.2 hdc]
      exact h.stored (howns.mp hx) hd
  case suspended_for =>
    intro k x d hk
    rw [hsuspension] at hk
    rw [(hcontext d).1, hissued]
    exact h.suspended_for hk
  case suspended_in =>
    intro k x d e hk hx
    rw [hsuspension] at hk
    exact h.suspended_in hk (howns.mp hx)
  case suspended_at =>
    intro k x d hk
    rw [hsuspension] at hk
    rw [hawaiters]
    exact h.suspended_at hk
  case awaited =>
    intro k d hd hcoro
    rw [(hcontext d).1] at hcoro
    rw [hsuspension]
    exact h.awaited (hdone.mp hd).1 hcoro
  case ready_suspended =>
    intro k hk
    rw [hsuspension]
    have hold : k ∈ s.ready → ∃ x d, s.suspension k = .suspended x d ∧
        (s.poll c cqe).completions d ≠ none := by
      intro hk
      obtain ⟨x, d, hx, hd⟩ := h.ready_suspended hk
      obtain ⟨e, he⟩ := Option.ne_none_iff_exists'.mp hd
      exact ⟨x, d, hx, by simp [hcompleted he]⟩
    rcases poll_cases s c cqe with ⟨-, -, -, hready, -⟩ | ⟨-, -, -, hready, -⟩ <;> rw [hready] at hk
    · exact hold hk
    · rcases List.mem_append.mp hk with hk | hk
      · exact hold hk
      · obtain ⟨x, hx⟩ := h.awaited hflight (Option.mem_toList.mp hk)
        exact ⟨x, c, hx, by simp [hcompletions]⟩
  case ready_nodup =>
    rcases poll_cases s c cqe with ⟨-, -, -, hready, -⟩ | ⟨-, -, -, hready, -⟩ <;> rw [hready]
    · exact h.ready_nodup
    · cases hcoro : (s.contexts c).coro with
      | none => simpa using h.ready_nodup
      | some k =>
        -- Were the coroutine scheduled already, the operation it waits for would have completed.
        have hnot : k ∉ s.ready := by
          intro hk
          obtain ⟨x, hx⟩ := h.awaited hflight hcoro
          obtain ⟨y, d, hy, hd⟩ := h.ready_suspended hk
          obtain rfl := suspended_ctx hx hy
          exact hd hflight.2
        rw [Option.toList_some, List.nodup_append]
        refine ⟨h.ready_nodup, by simp, ?_⟩
        rintro a ha b hb rfl
        rw [List.mem_singleton.mp hb] at ha
        exact hnot ha

/-- A destruction. -/
theorem destroy (h : s.Consistent) {p : ℕ} {c : Option ℕ} (hp : s.awaiters p = some ⟨c⟩) :
    (s.destroy p c).Consistent := by
  -- The context of the object is marked, if it has one.
  have hcontext : ∀ d, (s.destroy p c).contexts d =
      if c = some d then { s.contexts d with cancelled := true } else s.contexts d := by
    intro d
    cases c with
    | none => rfl
    | some e =>
      simp only [DirectIo.destroy, write, setAwaiter, Function.update_apply, Option.some.injEq]
      by_cases hde : d = e
      · subst hde
        simp
      · simp [hde, Ne.symm hde]
  have hcoro : ∀ d, ((s.destroy p c).contexts d).coro = (s.contexts d).coro := by
    intro d
    rw [hcontext]
    split_ifs <;> rfl
  have hframe : (s.destroy p c).issued = s.issued ∧ (s.destroy p c).ready = s.ready ∧
      (s.destroy p c).completions = s.completions := by
    cases c <;> exact ⟨rfl, rfl, rfl⟩
  obtain ⟨hissued, hready, hcompletions⟩ := hframe
  have hflight : ∀ {d}, (s.destroy p c).InFlight d ↔ s.InFlight d := by
    intro d
    unfold InFlight
    rw [hissued, hcompletions]
  have hsusp : ∀ k, (s.destroy p c).suspension k = (s.suspension k).leave p := by
    intro k
    cases c <;> rfl
  -- The only access is the write of the mark.
  have haccess : ∀ a, a ∈ (s.destroy p c).accesses → a ∈ s.accesses ∨
      ∃ d, c = some d ∧ a = .write d := by
    intro a ha
    cases c with
    | none => exact .inl ha
    | some d =>
      rcases List.mem_append.mp ha with ha | ha
      · exact .inl ha
      · exact .inr ⟨d, rfl, List.mem_singleton.mp ha⟩
  have hdeleted : ∀ {d}, (s.destroy p c).Deleted d → s.Deleted d := by
    intro d hd
    rcases haccess _ hd with hd | ⟨e, -, he⟩
    · exact hd
    · cases he
  constructor
  case owned_lt =>
    intro x d hx
    rw [hissued]
    exact h.owned_lt (owns_destroy.mp hx).2
  case owner_unique =>
    intro x y d hx hy
    exact h.owner_unique (owns_destroy.mp hx).2 (owns_destroy.mp hy).2
  case not_deleted_of_owns =>
    intro x d hx hd
    exact h.not_deleted_of_owns (owns_destroy.mp hx).2 (hdeleted hd)
  case not_deleted_of_inFlight =>
    intro d hd hdel
    exact h.not_deleted_of_inFlight (hflight.mp hd) (hdeleted hdel)
  case owned_of_not_cancelled =>
    intro d hd hcan
    rw [hcontext] at hcan
    split_ifs at hcan with hcd
    obtain ⟨x, hx⟩ := h.owned_of_not_cancelled (hflight.mp hd) hcan
    refine ⟨x, owns_destroy.mpr ⟨?_, hx⟩⟩
    rintro rfl
    have heq := hp.symm.trans hx
    simp only [Option.some.injEq, SafeIoAwaiter.mk.injEq] at heq
    exact hcd heq
  case not_cancelled =>
    intro x d hx
    obtain ⟨hxp, hxd⟩ := owns_destroy.mp hx
    rw [hcontext, if_neg ?_]
    · exact h.not_cancelled hxd
    · rintro rfl
      exact hxp (h.owner_unique hxd hp)
  case completed_lt =>
    intro d e hd
    rw [hissued]
    exact h.completed_lt (hcompletions ▸ hd)
  case accessed_lt =>
    intro a ha
    rw [hissued]
    rcases haccess a ha with ha | ⟨d, rfl, rfl⟩
    · exact h.accessed_lt ha
    · exact h.owned_lt hp
  case stored =>
    intro x d e hx hd
    have hold := h.stored (owns_destroy.mp hx).2 (hcompletions ▸ hd)
    rw [hcontext]
    split_ifs <;> exact hold
  case suspended_for =>
    intro k x d hk
    rw [hsusp] at hk
    obtain ⟨y, hy, -⟩ := leave_eq_suspended hk
    rw [hcoro, hissued]
    exact h.suspended_for hy
  case suspended_in =>
    intro k x d e hk hx
    rw [hsusp] at hk
    obtain ⟨y, hy, hyx⟩ := leave_eq_suspended hk
    obtain ⟨rfl, -⟩ := hyx x rfl
    exact h.suspended_in hy (owns_destroy.mp hx).2
  case suspended_at =>
    intro k x d hk
    rw [hsusp] at hk
    obtain ⟨y, hy, hyx⟩ := leave_eq_suspended hk
    obtain ⟨rfl, hne⟩ := hyx x rfl
    have hat := h.suspended_at hy
    cases c <;> simpa [DirectIo.destroy, setAwaiter, write, hne] using hat
  case awaited =>
    intro k d hd hk
    rw [hcoro] at hk
    obtain ⟨x, hx⟩ := h.awaited (hflight.mp hd) hk
    rw [hsusp, hx]
    exact leave_suspended p x d
  case ready_suspended =>
    intro k hk
    rw [hready] at hk
    obtain ⟨x, d, hx, hd⟩ := h.ready_suspended hk
    obtain ⟨y, hy⟩ := leave_suspended p x d
    exact ⟨y, d, by rw [hsusp, hx, hy], hcompletions ▸ hd⟩
  case ready_nodup =>
    rw [hready]
    exact h.ready_nodup

/-- A resumption resumes from the operation for which the coroutine is suspended, which has
completed. -/
theorem resumed (h : s.Consistent) {p c d : ℕ} {k : κ}
    (hsusp : s.suspension k = .suspended (some p) d) (howns : s.Owns p c) (hready : k ∈ s.ready) :
    c = d ∧ ∃ cqe, s.completions c = some cqe := by
  obtain rfl := h.suspended_in hsusp howns
  obtain ⟨y, d, hy, hd⟩ := h.ready_suspended hready
  obtain rfl := suspended_ctx hsusp hy
  exact ⟨rfl, Option.ne_none_iff_exists'.mp hd⟩

variable [DecidableEq κ]

/-- An await. -/
theorem await (h : s.Consistent) {p c : ℕ} {k : κ} (howns : s.Owns p c)
    (hrun : s.suspension k = .running) (hcoro : (s.contexts c).coro = none) :
    (s.awaitSuspend p c k).Consistent := by
  have hdel : ∀ {d}, (s.awaitSuspend p c k).Deleted d ↔ s.Deleted d := by
    simp [Deleted, awaitSuspend, write]
  have hcan : ∀ d, ((s.awaitSuspend p c k).contexts d).cancelled = (s.contexts d).cancelled := by
    intro d
    simp only [awaitSuspend, write, Function.update_apply]
    split_ifs with hd
    · rw [hd]
    · rfl
  -- The coroutine that awaits has not been suspended before.
  have hself : ∀ {k' x d}, s.suspension k' = .suspended x d →
      (s.awaitSuspend p c k).suspension k' = .suspended x d := by
    intro k' x d hk
    have hne : k' ≠ k := fun e => by rw [e, hrun] at hk; cases hk
    exact (Function.update_of_ne hne _ _).trans hk
  have hsusp : ∀ {k' x d}, (s.awaitSuspend p c k).suspension k' = .suspended x d →
      k' = k ∧ x = some p ∧ d = c ∨ s.suspension k' = .suspended x d := by
    intro k' x d hk
    by_cases hne : k' = k
    · subst hne
      simp only [awaitSuspend, Function.update_self, Suspension.suspended.injEq] at hk
      exact .inl ⟨rfl, hk.1.symm, hk.2.symm⟩
    · exact .inr ((Function.update_of_ne hne _ _).symm.trans hk)
  constructor
  case owned_lt => exact h.owned_lt
  case owner_unique => exact h.owner_unique
  case not_deleted_of_owns =>
    intro x d hx
    rw [hdel]
    exact h.not_deleted_of_owns hx
  case not_deleted_of_inFlight =>
    intro d hd
    rw [hdel]
    exact h.not_deleted_of_inFlight hd
  case owned_of_not_cancelled =>
    intro d hd hc
    rw [hcan] at hc
    exact h.owned_of_not_cancelled hd hc
  case not_cancelled =>
    intro x d hx
    rw [hcan]
    exact h.not_cancelled hx
  case completed_lt => exact h.completed_lt
  case accessed_lt =>
    intro a ha
    rcases List.mem_append.mp ha with ha | ha
    · exact h.accessed_lt ha
    · obtain rfl := List.mem_singleton.mp ha
      exact h.owned_lt howns
  case stored =>
    intro x d cqe hx hd
    have hold := h.stored hx hd
    simp only [awaitSuspend, write, Function.update_apply]
    split_ifs with hdc
    · subst hdc
      exact hold
    · exact hold
  case suspended_for =>
    intro k' x d hk
    rcases hsusp hk with ⟨rfl, -, rfl⟩ | hk
    · exact ⟨by simp [awaitSuspend, write], h.owned_lt howns⟩
    · obtain ⟨hd, hlt⟩ := h.suspended_for hk
      -- The context of another operation that is awaited has a coroutine already.
      have hdc : d ≠ c := fun e => by rw [e, hcoro] at hd; cases hd
      exact ⟨by simp only [awaitSuspend, write, Function.update_of_ne hdc]; exact hd, hlt⟩
  case suspended_in =>
    intro k' x d e hk hx
    rcases hsusp hk with ⟨-, hxp, rfl⟩ | hk
    · obtain rfl := Option.some.inj hxp
      have heq := hx.symm.trans howns
      simpa using heq
    · exact h.suspended_in hk hx
  case suspended_at =>
    intro k' x d hk
    rcases hsusp hk with ⟨-, hxp, -⟩ | hk
    · obtain rfl := Option.some.inj hxp
      show s.awaiters x ≠ none
      rw [howns]
      simp
    · exact h.suspended_at hk
  case awaited =>
    intro k' d hd hcoro'
    by_cases hdc : d = c
    · subst hdc
      simp only [awaitSuspend, write, Function.update_self, Option.some.injEq] at hcoro'
      subst hcoro'
      exact ⟨some p, Function.update_self ..⟩
    · simp only [awaitSuspend, write, Function.update_of_ne hdc] at hcoro'
      obtain ⟨x, hx⟩ := h.awaited hd hcoro'
      exact ⟨x, hself hx⟩
  case ready_suspended =>
    intro k' hk
    obtain ⟨x, d, hx, hd⟩ := h.ready_suspended hk
    exact ⟨x, d, hself hx, hd⟩
  case ready_nodup => exact h.ready_nodup

/-- A resumption. -/
theorem resume (h : s.Consistent) {p c d : ℕ} {k : κ}
    (hsusp : s.suspension k = .suspended (some p) d) (howns : s.Owns p c) (hready : k ∈ s.ready) :
    (s.resume p c k).Consistent := by
  -- What is resumed has completed, and its context is deleted.
  obtain ⟨rfl, cqe, hcqe⟩ := h.resumed hsusp howns hready
  have howns' : ∀ {x d}, (s.resume p c k).Owns x d → x ≠ p ∧ s.Owns x d := by
    intro x d hx
    have hx := owns_setAwaiter.mp (hx : (s.setAwaiter p (some ⟨none⟩)).Owns x d)
    split_ifs at hx with hxp
    · simp at hx
    · exact ⟨hxp, hx⟩
  have hacc : (s.resume p c k).accesses = s.accesses ++ [.read c, .delete c] := by
    simp [DirectIo.resume, awaitResume, read, delete, setAwaiter]
  have hdeleted : ∀ {d}, (s.resume p c k).Deleted d → s.Deleted d ∨ d = c := by
    intro d hd
    unfold Deleted at hd ⊢
    rw [hacc] at hd
    simpa using hd
  have hsusp' : ∀ {k' x d}, (s.resume p c k).suspension k' = .suspended x d →
      k' ≠ k ∧ s.suspension k' = .suspended x d := by
    intro k' x d hk
    by_cases hne : k' = k
    · subst hne
      simp [DirectIo.resume, awaitResume] at hk
    · exact ⟨hne, (Function.update_of_ne hne _ _).symm.trans hk⟩
  constructor
  case owned_lt =>
    intro x d hx
    exact h.owned_lt (howns' hx).2
  case owner_unique =>
    intro x y d hx hy
    exact h.owner_unique (howns' hx).2 (howns' hy).2
  case not_deleted_of_owns =>
    intro x d hx hd
    obtain ⟨hxp, hxd⟩ := howns' hx
    rcases hdeleted hd with hd | rfl
    · exact h.not_deleted_of_owns hxd hd
    · exact hxp (h.owner_unique hxd howns)
  case not_deleted_of_inFlight =>
    intro d hd hdel
    rcases hdeleted hdel with hdel | rfl
    · exact h.not_deleted_of_inFlight hd hdel
    · exact absurd (hd.2.symm.trans hcqe) (by simp)
  case owned_of_not_cancelled =>
    intro d hd hcan
    obtain ⟨x, hx⟩ := h.owned_of_not_cancelled hd hcan
    -- The object owns its own operation alone, which is not in flight.
    have hxp : x ≠ p := by
      rintro rfl
      have heq := hx.symm.trans howns
      simp only [Option.some.injEq, SafeIoAwaiter.mk.injEq] at heq
      subst heq
      exact absurd (hd.2.symm.trans hcqe) (by simp)
    exact ⟨x, (Function.update_of_ne hxp _ _).trans hx⟩
  case not_cancelled =>
    intro x d hx
    exact h.not_cancelled (howns' hx).2
  case completed_lt => exact h.completed_lt
  case accessed_lt =>
    intro a ha
    rw [hacc] at ha
    simp only [List.mem_append, List.mem_cons, List.not_mem_nil, or_false] at ha
    rcases ha with ha | rfl | rfl
    · exact h.accessed_lt ha
    · exact h.owned_lt howns
    · exact h.owned_lt howns
  case stored =>
    intro x d e hx hd
    exact h.stored (howns' hx).2 hd
  case suspended_for =>
    intro k' x d hk
    exact h.suspended_for (hsusp' hk).2
  case suspended_in =>
    intro k' x d e hk hx
    exact h.suspended_in (hsusp' hk).2 (howns' hx).2
  case suspended_at =>
    intro k' x d hk
    show Function.update s.awaiters p _ x ≠ none
    rw [Function.update_apply]
    split_ifs
    · simp
    · exact h.suspended_at (hsusp' hk).2
  case awaited =>
    intro k' d hd hcoro
    obtain ⟨x, hx⟩ := h.awaited hd hcoro
    have hne : k' ≠ k := by
      rintro rfl
      obtain rfl := suspended_ctx hsusp hx
      exact absurd (hd.2.symm.trans hcqe) (by simp)
    exact ⟨x, (Function.update_of_ne hne _ _).trans hx⟩
  case ready_suspended =>
    intro k' hk
    obtain ⟨hne, hk⟩ := (h.ready_nodup.mem_erase_iff).mp hk
    obtain ⟨x, d, hx, hd⟩ := h.ready_suspended hk
    exact ⟨x, d, (Function.update_of_ne hne _ _).trans hx, hd⟩
  case ready_nodup => exact h.ready_nodup.erase _

/-- Every step keeps a consistent state. -/
theorem step (h : s.Consistent) {a : DirectStep κ} (hstep : directStep s a t) : t.Consistent := by
  cases StepCase.of_step hstep with
  | issue hfree => exact h.issue hfree
  | move hp hfree => exact h.move hp hfree
  | await howns hrun hcoro => exact h.await howns hrun hcoro
  | poll hflight => exact h.poll hflight
  | resume hsusp howns hready => exact h.resume hsusp howns hready
  | destroy hp => exact h.destroy hp

end Consistent

end DirectIo

end Novaio
