import Novaio.TimeWheel.Calls

/-!
# Expiries behind the current tick

`add_timer` computes the distance of an expiry from the current tick in 64 bits. An expiry that is
behind is then far ahead: the timer is due in the next round of the ticks, which `tick` does not
reach. So a timer that is armed too late never fires (`overdue_never_fires`).

`SleepAwaiter::await_suspend` adds the milliseconds to the clock in 64 bits, too. Where the sum
wraps around, the expiry may be behind the clock, and still not be behind the current tick, which
follows the clock at a distance. Such a sleep ends at once (`sleep_not_cut_short_iff`).
-/

namespace Novaio

open Transition

namespace TimeWheel

variable {ν η : Type*} [DecidableEq ν]

/-- `SleepAwaiter::await_suspend`, with what it reads from the clock. -/
def sleep (w : TimeWheel ν η) (node : ν) (ms now : UInt64) (handle : η) : TimeWheel ν η :=
  w.arm node (now + ms) handle

/-- A sleep is not due before its end, if its end is less than a round of the ticks away from the
current tick, and only then. -/
theorem le_dueTick_add_iff {now ms c : UInt64} (hc : c ≤ now) :
    now.toNat + ms.toNat ≤ dueTick (now + ms) c ↔ now.toNat + ms.toNat < c.toNat + 2 ^ 64 := by
  have hnow := now.toNat_lt
  have hms := ms.toNat_lt
  rw [UInt64.le_iff_toNat_le] at hc
  rcases dueTick_cases (now + ms) c with ⟨hle, hdue⟩ | ⟨hlt, hdue⟩
  · rw [UInt64.le_iff_toNat_le, UInt64.toNat_add] at hle
    rw [hdue, UInt64.toNat_add]
    omega
  · rw [UInt64.lt_iff_toNat_lt, UInt64.toNat_add] at hlt
    rw [hdue, UInt64.toNat_add]
    omega

end TimeWheel

open TimeWheel

/-- A timer that is armed with an expiry behind the current tick never fires: neither in a run in
which its node is not removed, nor in a call of `tick` after it, whatever its time. -/
theorem overdue_never_fires {ν η : Type*} [DecidableEq ν] (expiresAt : ν → UInt64)
    (handle : ν → η) (l : List (WheelOp ν η × TimeWheel ν η))
    (hl : Path wheelCall (empty expiresAt handle) l)
    (hclean : Meets RemovesCleanly (empty expiresAt handle) l) (n : ν) (e : UInt64) (h : η)
    (hn : ¬ (last (empty expiresAt handle) l).IsLinked n)
    (he : e < (last (empty expiresAt handle) l).currentTick)
    (m : List (WheelOp ν η × TimeWheel ν η))
    (hm : Path wheelCall ((last (empty expiresAt handle) l).arm n e h) m)
    (hclean' : Meets RemovesCleanly ((last (empty expiresAt handle) l).arm n e h) m)
    (hkept : ∀ x ∈ m, x.1 ≠ .removeTimer n) :
    let w := last (empty expiresAt handle) l
    let v := last (w.arm n e h) m
    v.firings n = w.firings n ∧
      ∀ t, v.currentTick < t → ∃ v', wheelCall v (.tick t) v' ∧ v'.firings n = w.firings n := by
  intro w v
  obtain ⟨lists, pending, hwound⟩ := run_wound hl hclean
  -- The timer is due in the next round of the ticks.
  have hdue : 2 ^ 64 ≤ dueTick e w.currentTick := by
    rcases dueTick_cases e w.currentTick with ⟨hle, -⟩ | ⟨-, hdue⟩
    · exact (UInt64.not_lt.mpr hle he).elim
    · omega
  have hround : ∀ t : UInt64, t.toNat ≤ dueTick e w.currentTick := fun t =>
    Nat.le_trans (Nat.le_of_lt t.toNat_lt) hdue
  have hleave : ∀ x ∈ m, LeavesBe n (dueTick e w.currentTick) x.1 := fun x hx => by
    have hx' := hkept x hx
    cases hop : x.1 with
    | addTimer k e' h' => trivial
    | removeTimer k =>
      rw [hop] at hx'
      exact fun heq => hx' (congrArg _ heq)
    | tick t => exact hround t
  have hawaited : v.Awaited n (dueTick e w.currentTick) (w.firings n) :=
    (hwound.awaited_arm hn e h).run hm hclean' hleave
  have hcount {v' : TimeWheel ν η} (hv' : v'.Awaited n (dueTick e w.currentTick) (w.firings n)) :
      v'.firings n = w.firings n := by
    obtain ⟨-, -, -, -, -, hcount⟩ := hv'
    exact hcount
  refine ⟨hcount hawaited, fun t _ => ?_⟩
  obtain ⟨_, _, hwound', _⟩ := id hawaited
  obtain ⟨v', -, -, -, hv', -⟩ := hwound'.tick t
  exact ⟨v', hv', hcount (hawaited.call hv' trivial (hround t))⟩

/-- An empty wheel ticks up to any time. -/
theorem exists_ticked (t : UInt64) :
    ∃ w : TimeWheel ℕ ℕ, wheelCall (empty (fun _ => 0) fun _ => 0) (.tick t) w ∧
      Wound w (fun _ => []) [] ∧ w.currentTick = t ∧ w.firings 0 = 0 := by
  obtain ⟨w, lists, due, pending, hw, hwound, hticked⟩ :=
    (empty_wound (ν := ℕ) (fun _ => 0) (fun _ => 0)).tick t
  obtain ⟨rfl, rfl⟩ := List.append_eq_nil_iff.mp (List.perm_nil.mp hticked.perm.symm)
  have hlists : lists = fun _ => [] := by
    funext s
    refine List.eq_nil_iff_forall_not_mem.mpr fun n hn => ?_
    exact List.not_mem_nil ((hwound.mem_iff n).mpr ⟨s, hn⟩)
  have htick := hticked.currentTick
  rw [show (empty (fun _ : ℕ => 0) fun _ => (0 : ℕ)).currentTick.toNat = 0 from rfl,
    Nat.zero_max] at htick
  refine ⟨w, hw, hlists ▸ hwound, UInt64.toNat_inj.mp htick, ?_⟩
  rw [firings, hticked.fired]
  rfl

/-- A timer is armed for the tick 5 at the tick 10, and the wheel then ticks up to 20. -/
theorem overdue_never_fires_ten :
    ∃ w : TimeWheel ℕ ℕ, wheelCall (empty (fun _ => 0) fun _ => 0) (.tick 10) w ∧
      ∃ v, wheelCall (w.arm 0 5 7) (.tick 20) v ∧ v.firings 0 = 0 := by
  obtain ⟨w, hw, hwound, htick, hcount⟩ := exists_ticked 10
  have hnot : ¬ w.IsLinked 0 := by
    rw [hwound.isLinked_iff]
    exact List.not_mem_nil
  have hbehind : (5 : UInt64) < w.currentTick := by
    rw [htick]
    decide
  have hnow : (w.arm 0 5 7).currentTick < 20 := by
    rw [(arm_currentTick w 0 5 7).1, htick]
    decide
  obtain ⟨-, hnever⟩ := overdue_never_fires (fun _ => 0) (fun _ => 0) [(.tick 10, w)]
    ⟨hw, trivial⟩ ⟨trivial, trivial⟩ 0 5 7 hnot hbehind [] trivial trivial (by simp)
  obtain ⟨v, hv, hfirings⟩ := hnever 20 hnow
  exact ⟨w, hw, v, hv, hfirings.trans hcount⟩

/-- A timer is armed for the tick 5 at the tick 10. The first call of `tick` that moves the tick
does not fire it. -/
theorem overdue_lost :
    ∃ w : TimeWheel ℕ ℕ, wheelCall (empty (fun _ => 0) fun _ => 0) (.tick 10) w ∧
      ¬ w.IsLinked 0 ∧ 5 < w.currentTick ∧
      ∃ v, wheelCall (w.arm 0 5 7) (.tick 11) v ∧ v.firings 0 ≠ w.firings 0 + 1 := by
  obtain ⟨w, hw, hwound, htick, hcount⟩ := exists_ticked 10
  have hnot : ¬ w.IsLinked 0 := by
    rw [hwound.isLinked_iff]
    exact List.not_mem_nil
  have hbehind : (5 : UInt64) < w.currentTick := by
    rw [htick]
    decide
  have hawaited := hwound.awaited_arm hnot 5 7
  obtain ⟨_, _, hwound', _⟩ := id hawaited
  obtain ⟨v, -, -, -, hv, -⟩ := hwound'.tick 11
  have hdue : dueTick 5 w.currentTick = 5 + 2 ^ 64 := by
    rw [htick]
    rfl
  have hleave : LeavesBe (η := ℕ) 0 (dueTick 5 w.currentTick) (.tick 11) := by
    show (11 : UInt64).toNat ≤ _
    rw [hdue]
    decide
  obtain ⟨-, -, -, -, -, hfirings⟩ := hawaited.call hv trivial hleave
  refine ⟨w, hw, hnot, hbehind, v, hv, ?_⟩
  rw [hfirings]
  omega

/-- The timer of a sleep does not fire before the sleep's end, the sum taken over the integers, in
any run in which its node is not removed, if and only if the end is less than `2^64` ticks away from
the current tick. -/
theorem sleep_not_cut_short_iff {ν η : Type*} [DecidableEq ν] (expiresAt : ν → UInt64)
    (handle : ν → η) (l : List (WheelOp ν η × TimeWheel ν η))
    (hl : Path wheelCall (empty expiresAt handle) l)
    (hclean : Meets RemovesCleanly (empty expiresAt handle) l) (n : ν) (ms now : UInt64) (h : η)
    (hn : ¬ (last (empty expiresAt handle) l).IsLinked n)
    (hnow : (last (empty expiresAt handle) l).currentTick ≤ now) :
    (∀ m, Path wheelCall ((last (empty expiresAt handle) l).sleep n ms now h) m →
        Meets RemovesCleanly ((last (empty expiresAt handle) l).sleep n ms now h) m →
        (∀ x ∈ m, x.1 ≠ .removeTimer n ∧
          ∀ t, x.1 = .tick t → t.toNat < now.toNat + ms.toNat) →
        (last ((last (empty expiresAt handle) l).sleep n ms now h) m).firings n =
          (last (empty expiresAt handle) l).firings n) ↔
      now.toNat + ms.toNat < (last (empty expiresAt handle) l).currentTick.toNat + 2 ^ 64 := by
  obtain ⟨lists, pending, hwound⟩ := run_wound hl hclean
  set w := last (empty expiresAt handle) l with hw
  have hawaited : (w.sleep n ms now h).Awaited n (dueTick (now + ms) w.currentTick)
      (w.firings n) := hwound.awaited_arm hn (now + ms) h
  rw [← le_dueTick_add_iff hnow]
  constructor
  · -- A timer that is due too early fires in the tick after that.
    intro hall
    by_contra hlt
    rw [Nat.not_le] at hlt
    have hnow' := now.toNat_lt
    have hms := ms.toNat_lt
    -- The sum has wrapped around once.
    have hround : dueTick (now + ms) w.currentTick + 2 ^ 64 = now.toNat + ms.toNat := by
      rcases dueTick_cases (now + ms) w.currentTick with ⟨-, hdue⟩ | ⟨-, hdue⟩ <;>
      rw [hdue, UInt64.toNat_add] at hlt ⊢ <;>
      omega
    -- The first tick past the one at which the timer is due is still before `now + ms`.
    set t := UInt64.ofNat (dueTick (now + ms) w.currentTick + 1) with ht
    have htime : t.toNat = dueTick (now + ms) w.currentTick + 1 := by
      rw [ht, UInt64.toNat_ofNat']
      exact Nat.mod_eq_of_lt (by omega)
    obtain ⟨_, _, hwound', _⟩ := id hawaited
    obtain ⟨v, -, -, -, hv, -⟩ := hwound'.tick t
    have hfired := hawaited.tick (by omega) hv
    have hnot := hall [(.tick t, v)] ⟨hv, trivial⟩ ⟨trivial, trivial⟩ fun x hx => by
      obtain rfl := List.mem_singleton.mp hx
      refine ⟨by simp, fun t' ht' => ?_⟩
      obtain rfl := WheelOp.tick.inj ht'
      omega
    rw [last, last, hfired] at hnot
    omega
  · intro hle m hm hclean' hkept
    -- No tick before `now + ms` is past the one at which the timer is due.
    have hleave : ∀ x ∈ m, LeavesBe n (dueTick (now + ms) w.currentTick) x.1 := fun x hx => by
      obtain ⟨hkept, htime⟩ := hkept x hx
      cases hop : x.1 with
      | addTimer k e' h' => trivial
      | removeTimer k =>
        rw [hop] at hkept
        exact fun heq => hkept (congrArg _ heq)
      | tick t =>
        have hlt := htime t hop
        show t.toNat ≤ _
        omega
    obtain ⟨-, -, -, -, -, hcount⟩ := hawaited.run hm hclean' hleave
    exact hcount

/-- A sleep of 1 ms from an empty wheel at the time 0 ends less than `2^64` ticks away, and is not
cut short. -/
theorem sleep_not_cut_short_iff_one :
    (0 : UInt64).toNat + (1 : UInt64).toNat < (0 : UInt64).toNat + 2 ^ 64 ∧
      ∀ m, Path wheelCall ((empty (fun _ => 0) fun _ => 0 : TimeWheel ℕ ℕ).sleep 0 1 0 7) m →
        Meets RemovesCleanly ((empty (fun _ => 0) fun _ => 0 : TimeWheel ℕ ℕ).sleep 0 1 0 7) m →
        (∀ x ∈ m, x.1 ≠ .removeTimer 0 ∧ ∀ t, x.1 = .tick t → t.toNat < 0 + 1) →
        (last ((empty (fun _ => 0) fun _ => 0 : TimeWheel ℕ ℕ).sleep 0 1 0 7) m).firings 0 = 0 := by
  have hnot : ¬ (empty (fun _ => 0) fun _ => 0 : TimeWheel ℕ ℕ).IsLinked 0 := by
    rw [(empty_wound (fun _ => 0) fun _ => 0).isLinked_iff]
    exact List.not_mem_nil
  have hlt : (0 : UInt64).toNat + (1 : UInt64).toNat < (0 : UInt64).toNat + 2 ^ 64 := by decide
  refine ⟨hlt, ?_⟩
  exact (sleep_not_cut_short_iff (fun _ => 0) (fun _ => 0) [] trivial trivial 0 1 0 7 hnot
    (by decide)).mpr hlt

/-- A sleep of the greatest time, from an empty wheel at the time 5, expires at the tick 4. The
first `tick`, at the time 5 too, fires it. -/
theorem sleep_cut_short :
    ∃ w : TimeWheel ℕ ℕ, wheelCall ((empty (fun _ => 0) fun _ => 0).sleep 0 (-1) 5 7) (.tick 5) w ∧
      w.firings 0 = 1 ∧ (5 : UInt64).toNat < (5 : UInt64).toNat + (-1 : UInt64).toNat := by
  have hwound := empty_wound (ν := ℕ) (η := ℕ) (fun _ => 0) (fun _ => 0)
  have hnot : ¬ (empty (fun _ => 0) fun _ => 0 : TimeWheel ℕ ℕ).IsLinked 0 := by
    rw [hwound.isLinked_iff]
    exact List.not_mem_nil
  have hawaited := hwound.awaited_arm hnot (5 + -1) 7
  obtain ⟨_, _, hwound', _⟩ := id hawaited
  obtain ⟨w, -, -, -, hw, -⟩ := hwound'.tick 5
  exact ⟨w, hw, hawaited.tick (by decide) hw, by decide⟩

end Novaio
