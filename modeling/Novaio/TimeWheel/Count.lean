import Mathlib.Data.List.Chain
import Novaio.TimeWheel.Calls
import Novaio.TimeWheel.Timeout
import Novaio.TimeWheel.Idle

/-!
# The count of active timers

`add_timer` counts up and `remove_timer` counts down. A timer that fires leaves the wheel without
either: `tick` only clears its `head_ptr`. A timer that a cascade moves is counted again, by the
call of `add_timer` that puts it into its new slot. So a `tick` that comes to a slot in use breaks
the count, and one that finds all its slots empty (`Quiet`) keeps it. `count_exact` follows a run
whose ticks are all quiet.
-/

namespace Novaio

open Linked Transition

namespace TimeWheel

variable {ν η : Type*} [DecidableEq ν] {w w' : TimeWheel ν η} {lists : Slot → List ν}
  {pending : List ν} {n : ν} {op : WheelOp ν η}

/-! ## A quiet tick -/

/-- A call of `tick` up to the time finds every slot that it fires or cascades empty. -/
def Quiet (w : TimeWheel ν η) (t : UInt64) : Prop :=
  ∀ c, w.currentTick ≤ c → c < t → w.heads (.tv1 (tvrIndex c)) = none ∧
    ∀ tv : Tv, 0 < c → c.toNat % 2 ^ tv.bits = 0 →
      w.heads (.tvn tv (tvnIndex (c >>> tv.shift))) = none

omit [DecidableEq ν] in
/-- Clearing an empty slot changes nothing. -/
theorem setHead_none {s : Slot} (h : w.heads s = none) : w.setHead s none = w := by
  rw [setHead, ← h, Function.update_eq_self]

/-- The cascade of an empty slot changes nothing. -/
theorem cascade_none (fuel : ℕ) {tv : Tv} {i : Fin 64} (h : w.heads (.tvn tv i) = none) :
    w.cascade fuel tv i = some w := by
  rw [cascade, h, cascadeLoop_none, setHead_none h]

/-- The calls of `cascade` for empty slots in turn change nothing. They go on as long as the digits
of the tick are 0, and the tick is then a boundary of the next array. -/
theorem cascadeAll_none (fuel : ℕ) {tvs : List Tv}
    (h : ∀ tv : Tv, w.currentTick.toNat % 2 ^ tv.bits = 0 →
      w.heads (.tvn tv (tvnIndex (w.currentTick >>> tv.shift))) = none)
    (horder : tvs.IsChain fun tv tv' => tv'.bits = tv.bits + 6)
    (hhead : ∀ tv ∈ tvs.head?, w.currentTick.toNat % 2 ^ tv.bits = 0) :
    w.cascadeAll fuel tvs = some w := by
  induction tvs with
  | nil => rfl
  | cons tv tvs ih =>
    have hb := hhead tv rfl
    obtain ⟨hnext, horder⟩ := List.isChain_cons.mp horder
    rw [cascadeAll, cascade_none fuel (h tv hb), Option.bind_some]
    split_ifs with hz
    · rw [tvnIndex_shift] at hz
      refine ih horder fun tv' htv' => ?_
      rw [hnext tv' htv', pow_add, Nat.mod_mul, hb, zero_add]
      exact Nat.mul_eq_zero.mpr (.inr hz)
    · rfl

/-- The cascades of empty slots change nothing. -/
theorem cascades_none (fuel : ℕ)
    (h : ∀ tv : Tv, 0 < w.currentTick → w.currentTick.toNat % 2 ^ tv.bits = 0 →
      w.heads (.tvn tv (tvnIndex (w.currentTick >>> tv.shift))) = none) :
    w.cascades fuel = some w := by
  rw [cascades_eq]
  split_ifs with hb
  · refine cascadeAll_none fuel (fun tv => h tv hb.2) (by simp [Tv.bits]) fun tv htv => ?_
    obtain rfl := Option.some.inj htv
    show w.currentTick.toNat % 256 = 0
    rw [← tvrIndex_val, hb.1]
    rfl
  · rfl

/-- An iteration of a quiet `tick` moves the tick only. -/
theorem Quiet.tickBody {t : UInt64} (h : w.Quiet t) (hlt : w.currentTick < t) (current : Bool)
    (fuel : ℕ) : w.tickBody current fuel = some { w with currentTick := w.currentTick + 1 } := by
  obtain ⟨hslot, hcascade⟩ := h w.currentTick (UInt64.le_refl _) hlt
  rw [TimeWheel.tickBody]
  dsimp only
  rw [cascades_none fuel hcascade, Option.bind_eq_bind, Option.bind_some, hslot, fireLoop_none,
    setHead_none hslot]
  rfl

/-- A quiet `tick` moves the tick only. -/
theorem Quiet.tickLoop {t : UInt64} {current : Bool} {walk fuel : ℕ} (h : w.Quiet t)
    (hw : tickLoop current walk t fuel w = some w') :
    w' = { w with currentTick := w'.currentTick } := by
  induction fuel generalizing w with
  | zero =>
    obtain ⟨-, hw⟩ := Option.ite_none_left_eq_some.mp hw
    exact Option.some.inj hw ▸ rfl
  | succ fuel ih =>
    rw [TimeWheel.tickLoop] at hw
    split_ifs at hw with hlt
    · rw [h.tickBody hlt, Option.bind_eq_bind, Option.bind_some] at hw
      have hrest : Quiet { w with currentTick := w.currentTick + 1 } t := by
        intro c hc hct
        refine h c ?_ hct
        -- The tick is before `t`, so the next one is not 0.
        have ht := t.toNat_lt
        rw [UInt64.lt_iff_toNat_lt] at hlt
        rw [UInt64.le_iff_toNat_le, UInt64.toNat_add, UInt64.toNat_one,
          Nat.mod_eq_of_lt (by omega)] at hc
        rw [UInt64.le_iff_toNat_le]
        omega
      have hmoved := ih hrest hw
      exact hmoved
    · exact Option.some.inj hw ▸ rfl

/-! ## The count -/

/-- The count is the number of the nodes that are linked. -/
def CountsLinked (w : TimeWheel ν η) : Prop :=
  ∃ l : List ν, l.Nodup ∧ (∀ n, n ∈ l ↔ w.IsLinked n) ∧ w.activeTimers.toNat = l.length

/-- The loop waits without a timeout if and only if no timer is pending. The time is 0 only if the
tick is. -/
def WaitsForever (w : TimeWheel ν η) : Prop :=
  ∀ now, (now = 0 → w.currentTick = 0) → (w.nextTimeout now = -1 ↔ ∀ n, ¬ w.IsLinked n)

/-- The condition on a call that it keeps the count: there is room for a timer that is armed, a node
that is removed is linked or clean, and a `tick` is quiet. -/
def KeepsCount (w : TimeWheel ν η) : WheelOp ν η → Prop
  | .addTimer _ _ _ => w.activeTimers ≠ -1
  | .removeTimer n => w.IsLinked n ∨ w.Clean n
  | .tick t => w.Quiet t

/-- A wheel in use whose count is the number of the pending nodes. -/
def Counted (w : TimeWheel ν η) : Prop :=
  ∃ lists pending, Wound w lists pending ∧ w.activeTimers.toNat = pending.length

/-- The step lemma: a call that keeps the count. -/
theorem Counted.call (h : w.Counted) (hkeep : w.KeepsCount op) (hstep : wheelCall w op w') :
    w'.Counted := by
  obtain ⟨lists, pending, hwound, hcount⟩ := h
  cases op with
  | addTimer n e handle =>
    obtain ⟨hn, rfl⟩ := hstep
    obtain ⟨lists', hwound'⟩ := hwound.arm (hwound.isLinked_iff.not.mp hn) e handle
    refine ⟨lists', _, hwound', ?_⟩
    rw [arm_activeTimers hkeep, List.length_cons, hcount]
  | removeTimer n =>
    obtain rfl := hstep
    by_cases hn : w.IsLinked n
    · have hmem := hwound.isLinked_iff.mp hn
      obtain ⟨lists', hwound'⟩ := hwound.removeTimer hmem
      obtain ⟨s, hs⟩ := (hwound.mem_iff n).mp hmem
      have hpos := List.length_pos_of_mem hmem
      refine ⟨lists', _, hwound', ?_⟩
      rw [(removeTimer_heads w (hwound.rep.headPtr s n hs)).2.2.1,
        UInt64.toNat_sub_of_le _ _ (UInt64.le_iff_toNat_le.mpr (by rw [UInt64.toNat_one]; omega)),
        UInt64.toNat_one, List.length_erase_of_mem hmem, hcount]
    · have hnot := hwound.isLinked_iff.not.mp hn
      have hfree := hwound.rep.free n List.not_mem_nil fun hl => hnot ((hwound.mem_iff n).mpr hl)
      refine ⟨lists, pending, hwound.removeTimer_clean hnot (hkeep.resolve_left hn), ?_⟩
      rw [(removeTimer_free w hfree).2, hcount]
  | tick t =>
    obtain ⟨lists', due, pending', hwound', -⟩ := hwound.of_tick hstep
    obtain ⟨enough, htick⟩ := hstep
    have hsame : w' = { w with currentTick := w'.currentTick } :=
      Quiet.tickLoop hkeep (htick enough (le_refl _))
    -- The tick moves, so that the same nodes are linked.
    have hlinked : ∀ n, w'.IsLinked n ↔ w.IsLinked n := by
      intro n
      rw [hsame]
      rfl
    have hperm : pending'.Perm pending := by
      rw [List.perm_ext_iff_of_nodup hwound'.nodup hwound.nodup]
      intro n
      rw [← hwound'.isLinked_iff, hlinked, hwound.isLinked_iff]
    refine ⟨lists', pending', hwound', ?_⟩
    rw [hperm.length_eq, ← hcount, hsame]

omit [DecidableEq ν] in
/-- The count of such a wheel. -/
theorem Counted.countsLinked (h : w.Counted) : w.CountsLinked := by
  obtain ⟨lists, pending, hwound, hcount⟩ := h
  exact ⟨pending, hwound.nodup, fun n => hwound.isLinked_iff.symm, hcount⟩

omit [DecidableEq ν] in
/-- The wait of such a wheel. -/
theorem Counted.waitsForever (h : w.Counted) : w.WaitsForever := by
  obtain ⟨lists, pending, hwound, hcount⟩ := h
  intro now hnow
  have hnone : w.activeTimers = 0 ↔ ∀ n, ¬ w.IsLinked n := by
    rw [← UInt64.toNat_inj, hcount, UInt64.toNat_zero, List.length_eq_zero_iff,
      List.eq_nil_iff_forall_not_mem]
    simp only [hwound.isLinked_iff]
  rw [← hnone]
  constructor
  · intro hanswer
    rcases nextTimeout_eq_neg_one hanswer with hzero | ⟨rfl, i, n, hi, hexp⟩
    · exact hzero
    · -- At the tick 0, a timer at the end of time is not in `tv1_`.
      have hhead := hi.symm.trans (hwound.rep.chain (.tv1 i)).head
      have hmem := List.mem_of_mem_head? hhead.symm
      obtain ⟨-, -, hlt⟩ := hwound.placed _ n hmem
      rw [dueAt, hexp, hnow rfl] at hlt
      exact absurd hlt (by decide)
  · intro hzero
    rw [nextTimeout, if_pos hzero]

end TimeWheel

open TimeWheel

/-- In every run from an empty wheel whose calls all keep the count, in the state that it leads to
the count is the number of the linked nodes, and the loop waits without a timeout if and only if no
timer is pending. -/
theorem count_exact {ν η : Type*} [DecidableEq ν] (expiresAt : ν → UInt64) (handle : ν → η)
    (l : List (WheelOp ν η × TimeWheel ν η)) (hl : Path wheelCall (empty expiresAt handle) l)
    (hkeep : Meets KeepsCount (empty expiresAt handle) l) :
    CountsLinked (last (empty expiresAt handle) l) ∧
      WaitsForever (last (empty expiresAt handle) l) := by
  have hcounted : TimeWheel.Counted (last (empty expiresAt handle) l) :=
    (hl.invariant_of_meets (fun _ _ _ h hk hs => h.call hk hs)
      ⟨_, _, empty_wound expiresAt handle, rfl⟩ hkeep).2
  exact ⟨hcounted.countsLinked, hcounted.waitsForever⟩

/-- A wheel ticks while it is empty, and one timer is armed then. -/
theorem count_exact_armed :
    ∃ w : TimeWheel ℕ ℕ, wheelCall (empty (fun _ => 0) fun _ => 0) (.tick 3) w ∧
      CountsLinked (w.arm 0 5 7) ∧ WaitsForever (w.arm 0 5 7) := by
  have h₀ := empty_wound (ν := ℕ) (η := ℕ) (fun _ => 0) fun _ => 0
  obtain ⟨w, lists, due, pending, hw, hwound, hticked⟩ := h₀.tick 3
  have hquiet : Quiet (empty (fun _ => 0) fun _ => 0 : TimeWheel ℕ ℕ) 3 :=
    fun c _ _ => ⟨rfl, fun _ _ _ => rfl⟩
  obtain ⟨enough, htick⟩ := id hw
  have hsame := hquiet.tickLoop (htick enough (le_refl _))
  have hcount : w.activeTimers = 0 := by
    rw [hsame]
    rfl
  have hnot : ¬ w.IsLinked 0 := by
    rw [hwound.isLinked_iff]
    intro hn
    exact List.not_mem_nil (hticked.perm.mem_iff.mpr (List.mem_append_right due hn))
  refine ⟨w, hw, count_exact _ _ [(.tick 3, w), (.addTimer 0 5 7, w.arm 0 5 7)]
    ⟨hw, ⟨hnot, rfl⟩, trivial⟩ ⟨hquiet, ?_, trivial⟩⟩
  rw [KeepsCount, hcount]
  decide

/-- What is left of the count when a timer has fired alone. -/
theorem oneTimer_count :
    ((oneTimer 5).tick true 6 6).map (fun w => (w.activeTimers, w.nextTimeout 6)) =
      some (1, 50) := by
  decide +kernel

/-- A timer fires, and none is pending. The count is still 1, and the loop waits for 50 ms. -/
theorem count_stale :
    ∃ w : TimeWheel ℕ ℕ, wheelCall (empty (fun _ => 0) fun _ => 0) (.addTimer 0 5 7) (oneTimer 5) ∧
      wheelCall (oneTimer 5) (.tick 6) w ∧ (∀ n, ¬ w.IsLinked n) ∧ w.activeTimers = 1 ∧
      ¬ CountsLinked w ∧ w.nextTimeout 6 ≠ -1 := by
  obtain ⟨⟨hn, -, hfree⟩, lists, ht, -⟩ := oneTimer_run 5
  obtain ⟨w, lists', due, pending, hw, hwound, hticked⟩ := ht.wound.tick 6
  have hnone : ∀ n, ¬ w.IsLinked n := by
    intro n
    rw [hwound.isLinked_iff]
    intro hn
    have hmem : n ∈ [0] := hticked.perm.mem_iff.mpr (List.mem_append_right due hn)
    have hle := hticked.le_dueAt hn
    rw [List.mem_singleton.mp hmem] at hle
    exact absurd hle (by decide)
  have hcount := oneTimer_count
  rw [ht.wound.tick_eq hw (by decide) (by decide), Option.map_some, Option.some.injEq,
    Prod.mk.injEq] at hcount
  obtain ⟨hone, hanswer⟩ := hcount
  refine ⟨w, ⟨hn, hfree⟩, hw, hnone, hone, ?_, ?_⟩
  · rintro ⟨l, -, hl, hlen⟩
    obtain rfl : l = [] := List.eq_nil_iff_forall_not_mem.mpr fun n hn => hnone n ((hl n).mp hn)
    rw [hone] at hlen
    exact absurd hlen (by decide)
  · rw [hanswer]
    decide

end Novaio
