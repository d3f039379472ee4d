import Novaio.TimeWheel.Calls
import Novaio.TimeWheel.Timeout

/-!
# The timer that the scheduler wakes up for

`next_timeout` answers with the distance to the expiry of a timer of `tv1_`. The loop of `tick`
stops before the iteration whose current tick is the time, so a `tick` at the expiry does not fire
the timer. The next answer is then 0, and a `tick` at the same time does nothing: the loop of the
scheduler spins until the clock moves on.
-/

namespace Novaio

open Transition

namespace TimeWheel

variable {ν η : Type*} [DecidableEq ν] {w w' : TimeWheel ν η} {lists : Slot → List ν}
  {pending : List ν} {m : ν}

omit [DecidableEq ν] in
/-- What `next_timeout` answers at the current tick leads to the expiry of the timer that it
finds. -/
theorem Timed.add_nextTimeout (h : Timed w lists pending) (ha : w.activeTimers ≠ 0)
    (hm : (List.range 256).findSome? w.scan = some m) (hn : m ∈ pending) :
    w.currentTick + w.nextTimeout w.currentTick = (w.nodes m).expiresAt := by
  have hle := UInt64.le_iff_toNat_le.mp (h.le hn)
  have hlt := UInt64.toNat_lt (w.nodes m).expiresAt
  rw [← UInt64.toNat_inj, UInt64.toNat_add, nextTimeout_of_some ha _ hm]
  omega

/-- A call of `tick` at the expiry of a pending timer leaves it pending. -/
theorem Timed.tick_at_expiry (h : Timed w lists pending) (hn : m ∈ pending) :
    ∃ w', wheelStep w (.tick (w.nodes m).expiresAt) w' ∧ w'.IsLinked m ∧
      (w'.nodes m).expiresAt = (w.nodes m).expiresAt ∧ w'.firings m = w.firings m := by
  obtain ⟨w', lists', due, pending', hw', hwound, hticked⟩ := h.wound.tick (w.nodes m).expiresAt
  have hdue : w.dueAt m = (w.nodes m).expiresAt.toNat := dueTick_of_le (h.le hn)
  have hnot : m ∉ due := fun hmem => by
    have hlt := hticked.due_lt m hmem
    omega
  have hmem : m ∈ pending' := (List.mem_append.mp (hticked.perm.mem_iff.mp hn)).resolve_left hnot
  refine ⟨w', hw', hwound.isLinked_iff.mpr hmem, hticked.expiresAt m, ?_⟩
  rw [hticked.firings, List.count_eq_zero_of_not_mem hnot, Nat.add_zero]

/-- A call of `tick` at the current tick does nothing. -/
theorem tick_now (w : TimeWheel ν η) : wheelStep w (.tick w.currentTick) w := by
  refine ⟨0, fun fuel _ => ?_⟩
  have hnot : ¬ w.currentTick < w.currentTick := UInt64.lt_irrefl _
  cases fuel <;> rw [tick, tickLoop, if_neg hnot]

end TimeWheel

open TimeWheel

/-- In every state that a run from an empty wheel reaches, in which `next_timeout` at the current
tick is computed from a timer of `tv1_`, a `tick` at the time that it announces does not schedule
the timer, which is then due and pending. If the answer is 0, a `tick` at the current tick leaves
the wheel as it is. -/
theorem announced_timer_not_fired {ν η : Type*} [DecidableEq ν] (expiresAt : ν → UInt64)
    (handle : ν → η) (l : List (WheelOp ν η × TimeWheel ν η))
    (hl : Path wheelStep (empty expiresAt handle) l)
    (ha : (last (empty expiresAt handle) l).activeTimers ≠ 0)
    (htv1 : ∃ n, (last (empty expiresAt handle) l).InTv1 n) :
    let w := last (empty expiresAt handle) l
    let now := w.currentTick
    let d := w.nextTimeout now
    ∃ m, (List.range 256).findSome? w.scan = some m ∧ w.InTv1 m ∧
      (w.nodes m).expiresAt = now + d ∧
      (∃ w', wheelStep w (.tick (now + d)) w' ∧ w'.firings m = w.firings m ∧ w'.IsLinked m ∧
        (w'.nodes m).expiresAt ≤ now + d) ∧
      (d = 0 → wheelStep w (.tick now) w ∧ w.IsLinked m ∧ (w.nodes m).expiresAt ≤ now) := by
  intro w now d
  obtain ⟨lists, pending, ht, -⟩ := run_inUse expiresAt handle hl
  obtain ⟨n, hn⟩ := htv1
  -- The scan finds a timer of `tv1`, as there is one.
  cases hscan : (List.range 256).findSome? w.scan with
  | none => exact (ht.scan_none hscan hn).elim
  | some m =>
    obtain ⟨hm, -⟩ := ht.scan_some hscan
    have hlinked : w.IsLinked m := by
      obtain ⟨i, l, hchain, hml⟩ := hm
      exact ⟨_, l, hchain, hml⟩
    have hpending := ht.isLinked_iff.mp hlinked
    -- The timeout leads to its expiry, up to which the tick does not fire it.
    have hexp : now + d = (w.nodes m).expiresAt := ht.add_nextTimeout ha hscan hpending
    obtain ⟨w', hw', hlinked', hexp', hfirings⟩ := ht.tick_at_expiry hpending
    refine ⟨m, rfl, hm, hexp.symm, ⟨w', hexp ▸ hw', hfirings, hlinked', ?_⟩, fun hzero => ?_⟩
    · rw [hexp', hexp]
      exact UInt64.le_refl _
    · refine ⟨tick_now w, hlinked, ?_⟩
      rw [← hexp, hzero, UInt64.add_zero]
      exact UInt64.le_refl _

/-- What `next_timeout` finds and answers for a timer that is armed at the tick 0 for the tick 5. -/
theorem oneTimer_announced :
    (List.range 256).findSome? (oneTimer 5).scan = some 0 ∧ (oneTimer 5).nextTimeout 0 = 5 ∧
      (oneTimer 5).currentTick + (oneTimer 5).nextTimeout (oneTimer 5).currentTick = 5 := by
  decide +kernel

/-- The timer is still pending after a `tick` at 5. -/
theorem announced_timer_not_fired_five :
    ∃ w', wheelStep (oneTimer 5) (.tick 5) w' ∧ w'.firings 0 = 0 ∧ w'.IsLinked 0 := by
  obtain ⟨hstep, -⟩ := oneTimer_run 5
  obtain ⟨hscan, -, htime⟩ := oneTimer_announced
  have htv1 : (oneTimer 5).InTv1 0 :=
    ⟨5, [0], ⟨by decide, Linked.chain_nil.mpr (by decide)⟩, List.mem_singleton_self 0⟩
  obtain ⟨m, hm, -, -, ⟨w', hw', hfirings, hlinked, -⟩, -⟩ :=
    announced_timer_not_fired (fun _ => 0) (fun _ => 0) [(_, oneTimer 5)] ⟨hstep, trivial⟩
      (by decide) ⟨0, htv1⟩
  obtain rfl : 0 = m := Option.some.inj (hscan.symm.trans hm)
  exact ⟨w', htime ▸ hw', hfirings, hlinked⟩

/-- The timer is announced for the time 5 and not scheduled by a `tick` at 5. -/
theorem announced_timer_missed :
    wheelStep (empty (fun _ => 0) fun _ => 0) (.addTimer 0 5 7) (oneTimer 5) ∧
      (oneTimer 5).InTv1 0 ∧ (oneTimer 5).nextTimeout 0 = 5 ∧
      ∃ w', wheelStep (oneTimer 5) (.tick (0 + 5)) w' ∧
        w'.firings 0 ≠ (oneTimer 5).firings 0 + 1 := by
  obtain ⟨hstep, lists, ht, -⟩ := oneTimer_run 5
  have htv1 : (oneTimer 5).InTv1 0 :=
    ⟨5, [0], ⟨by decide, Linked.chain_nil.mpr (by decide)⟩, List.mem_singleton_self 0⟩
  obtain ⟨w', hw', -, -, hfirings⟩ := ht.tick_at_expiry (List.mem_singleton_self 0)
  refine ⟨hstep, htv1, oneTimer_announced.2.1, w', hw', ?_⟩
  rw [hfirings]
  omega

end Novaio
