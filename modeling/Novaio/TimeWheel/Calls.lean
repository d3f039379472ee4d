import Novaio.TimeWheel.Firing
import Novaio.TimeWheel.Stale

/-!
# Calls with any expiry

`wheelCall` is a call of the time wheel with any expiry, also one that is behind the current tick,
and with any node to remove. Where every node that is removed is linked or clean, the wheel stays in
use (`run_wound`). A call of `tick` then fires the pending timers that are due before its time, and
no other (`Wound.tick`). A timer that nobody removes is pending until a call of `tick` goes past the
tick at which it is due (`Awaited`).
-/

namespace Novaio

open Transition

namespace TimeWheel

variable {ν η : Type*} [DecidableEq ν] {w w' : TimeWheel ν η} {lists : Slot → List ν}
  {pending : List ν} {n : ν} {op : WheelOp ν η}

/-- The effect of a call. A timer is armed on a node that is not linked. `tick` returns, and a
scheduler is current. -/
def wheelCall (w : TimeWheel ν η) (op : WheelOp ν η) (w' : TimeWheel ν η) : Prop :=
  match op with
  | .addTimer n e h => ¬ w.IsLinked n ∧ w' = w.arm n e h
  | .removeTimer n => w' = w.removeTimer n
  | .tick t => ∃ enough, ∀ fuel, enough ≤ fuel → w.tick true fuel t = some w'

/-- The condition on a call that a node that it removes is linked, or is clean. -/
def RemovesCleanly (w : TimeWheel ν η) : WheelOp ν η → Prop
  | .removeTimer n => w.IsLinked n ∨ w.Clean n
  | _ => True

/-- `tick` has one result. -/
theorem wheelCall_tick_unique {t : UInt64} {w'' : TimeWheel ν η} (h' : wheelCall w (.tick t) w')
    (h'' : wheelCall w (.tick t) w'') : w' = w'' := by
  obtain ⟨N, hN⟩ := h'
  obtain ⟨M, hM⟩ := h''
  exact Option.some.inj ((hN (N + M) (by omega)).symm.trans (hM (N + M) (by omega)))

/-! ## A call of `tick` -/

/-- What a call of `tick` with the time `t` does: the pending timers that are due before `t` fire,
each once, and the others stay pending. -/
structure Ticked (w : TimeWheel ν η) (pending : List ν) (t : UInt64) (w' : TimeWheel ν η)
    (due pending' : List ν) : Prop where
  perm : pending.Perm (due ++ pending')
  due_lt : ∀ n ∈ due, w.dueAt n < t.toNat
  dueAt : ∀ n ∈ pending', w'.dueAt n = w.dueAt n
  fired : w'.fired = w.fired ++ due.map w.firing
  expiresAt : ∀ n, (w'.nodes n).expiresAt = (w.nodes n).expiresAt
  handle : ∀ n, (w'.nodes n).handle = (w.nodes n).handle
  currentTick : w'.currentTick.toNat = max w.currentTick.toNat t.toNat

omit [DecidableEq ν] in
/-- What stays pending is not due before the time. -/
theorem Ticked.le_dueAt {t : UInt64} {due pending' : List ν}
    (h : Ticked w pending t w' due pending') (hn : n ∈ pending') : t.toNat ≤ w.dueAt n := by
  have hle := le_dueTick (w'.nodes n).expiresAt w'.currentTick
  have hdue := h.dueAt n hn
  rw [TimeWheel.dueAt] at hdue
  rw [h.currentTick, hdue] at hle
  omega

/-- The loop of `tick` returns from every wheel in use. The induction is on the number of ticks up
to the time, and its step is an iteration. -/
theorem Wound.tickLoop (h : Wound w lists pending) (t : UInt64) :
    ∃ w' lists' due pending', (∀ walk fuel, pending.length ≤ walk →
        t.toNat - w.currentTick.toNat ≤ fuel → TimeWheel.tickLoop true walk t fuel w = some w') ∧
      Wound w' lists' pending' ∧ Ticked w pending t w' due pending' := by
  generalize hk : t.toNat - w.currentTick.toNat = k
  induction k generalizing w lists pending with
  | zero =>
    have hge : ¬ w.currentTick < t := by
      rw [UInt64.lt_iff_toNat_lt]
      omega
    refine ⟨w, lists, [], pending, ?_, h, .refl _, by simp, fun _ _ => rfl, by simp, fun _ => rfl,
      fun _ => rfl, by omega⟩
    rintro walk (_ | fuel) _ _ <;> rw [TimeWheel.tickLoop, if_neg hge]
  | succ k ih =>
    have hlt : w.currentTick < t := by
      rw [UInt64.lt_iff_toNat_lt]
      omega
    have htop := t.toNat_lt
    -- The iteration fires what is due at the current tick, and the rest of the loop what is due
    -- later.
    obtain ⟨w₁, lists₁, due₁, pending₁, hw₁, h₁, hperm₁, hdue₁, hlater₁, hfired₁, hexp₁, hhandle₁,
      htick₁⟩ := h.tickBody (by omega)
    obtain ⟨w', lists', due, pending', hw', h', hticked⟩ := ih h₁ (by omega)
    -- What is left is due when it was before.
    have hsame : ∀ n ∈ pending₁, w₁.dueAt n = w.dueAt n := fun n hn => by
      rw [TimeWheel.dueAt, hexp₁]
      exact dueTick_succ htick₁ (hlater₁ n hn)
    have hfiring : ∀ n, w₁.firing n = w.firing n := fun n => by
      rw [firing, firing, hexp₁, hhandle₁]
    refine ⟨w', lists', due₁ ++ due, pending', ?_, h', ?_, ?_, ?_, ?_, ?_, ?_, ?_⟩
    · rintro walk (_ | fuel) hwalk hfuel
      · omega
      · rw [TimeWheel.tickLoop, if_pos hlt, hw₁ walk hwalk, Option.bind_eq_bind, Option.bind_some]
        refine hw' walk fuel ?_ (by omega)
        rw [hperm₁.length_eq, List.length_append] at hwalk
        omega
    · rw [List.append_assoc]
      exact hperm₁.trans (hticked.perm.append_left due₁)
    · intro n hn
      rcases List.mem_append.mp hn with hn | hn
      · rw [TimeWheel.dueAt, dueTick_eq_iff.mpr (hdue₁ n hn)]
        omega
      · have hmem := hticked.perm.mem_iff.mpr (List.mem_append_left pending' hn)
        rw [← hsame n hmem]
        exact hticked.due_lt n hn
    · intro n hn
      have hmem := hticked.perm.mem_iff.mpr (List.mem_append_right due hn)
      exact (hticked.dueAt n hn).trans (hsame n hmem)
    · rw [hticked.fired, hfired₁, List.map_append, List.append_assoc,
        List.map_congr_left fun n _ => hfiring n]
    · exact fun n => (hticked.expiresAt n).trans (hexp₁ n)
    · exact fun n => (hticked.handle n).trans (hhandle₁ n)
    · rw [hticked.currentTick, htick₁]
      omega

/-- `tick` returns from every wheel in use. -/
theorem Wound.tick (h : Wound w lists pending) (t : UInt64) :
    ∃ w' lists' due pending', wheelCall w (.tick t) w' ∧ Wound w' lists' pending' ∧
      Ticked w pending t w' due pending' := by
  obtain ⟨w', lists', due, pending', hw', h'⟩ := h.tickLoop t
  refine ⟨w', lists', due, pending', ⟨pending.length + t.toNat, fun fuel hfuel => ?_⟩, h'⟩
  exact hw' fuel fuel (by omega) (by omega)

/-- What a call of `tick` leads to. -/
theorem Wound.of_tick (h : Wound w lists pending) {t : UInt64} (ht : wheelCall w (.tick t) w') :
    ∃ lists' due pending', Wound w' lists' pending' ∧ Ticked w pending t w' due pending' := by
  obtain ⟨w'', lists', due, pending', hw'', h'⟩ := h.tick t
  obtain rfl := wheelCall_tick_unique ht hw''
  exact ⟨lists', due, pending', h'⟩

/-- The bounds that suffice for a call of `tick`. -/
theorem Wound.tick_eq (h : Wound w lists pending) {t : UInt64} (ht : wheelCall w (.tick t) w')
    {fuel : ℕ} (hwalk : pending.length ≤ fuel) (hfuel : t.toNat - w.currentTick.toNat ≤ fuel) :
    w.tick true fuel t = some w' := by
  obtain ⟨w'', -, -, -, hw'', -⟩ := h.tickLoop t
  have hcall : wheelCall w (.tick t) w'' :=
    ⟨pending.length + t.toNat, fun fuel hfuel => hw'' fuel fuel (by omega) (by omega)⟩
  rw [wheelCall_tick_unique ht hcall]
  exact hw'' fuel fuel hwalk hfuel

/-- A node is not pending after a call of `tick` that goes past the tick at which it is due. -/
theorem Wound.not_isLinked_of_tick (h : Wound w lists pending) {t : UInt64}
    (ht : wheelCall w (.tick t) w') (hlt : w.dueAt n < t.toNat) : ¬ w'.IsLinked n := by
  obtain ⟨lists', due, pending', h', hticked⟩ := h.of_tick ht
  rw [h'.isLinked_iff]
  intro hn
  have hle := hticked.le_dueAt hn
  omega

/-! ## Runs -/

/-- The step lemma: a wheel stays in use. -/
theorem Wound.call (h : Wound w lists pending) (hstep : wheelCall w op w')
    (hclean : w.RemovesCleanly op) : ∃ lists' pending', Wound w' lists' pending' := by
  cases op with
  | addTimer n e handle =>
    obtain ⟨hn, rfl⟩ := hstep
    obtain ⟨lists', h'⟩ := h.arm (fun hp => hn (h.isLinked_iff.mpr hp)) e handle
    exact ⟨lists', _, h'⟩
  | removeTimer n =>
    obtain rfl := hstep
    by_cases hn : w.IsLinked n
    · obtain ⟨lists', h'⟩ := h.removeTimer (h.isLinked_iff.mp hn)
      exact ⟨lists', _, h'⟩
    · have hn' := h.isLinked_iff.not.mp hn
      exact ⟨lists, _, h.removeTimer_clean hn' (hclean.resolve_left hn)⟩
  | tick t =>
    obtain ⟨lists', due, pending', h', -⟩ := h.of_tick hstep
    exact ⟨lists', pending', h'⟩

/-- The run lemma: a wheel that calls lead to from an empty one is in use. -/
theorem run_wound {expiresAt : ν → UInt64} {handle : ν → η}
    {l : List (WheelOp ν η × TimeWheel ν η)} (hl : Path wheelCall (empty expiresAt handle) l)
    (hclean : Meets RemovesCleanly (empty expiresAt handle) l) :
    ∃ lists pending, Wound (last (empty expiresAt handle) l) lists pending :=
  (hl.invariant_of_meets (I := fun w => ∃ lists pending, Wound w lists pending)
    (fun _ _ _ ⟨_, _, h⟩ hclean hstep => h.call hstep hclean)
    ⟨_, _, empty_wound expiresAt handle⟩ hclean).2

/-! ## A timer that nobody removes -/

/-- How often a node has fired. -/
def firings (w : TimeWheel ν η) (n : ν) : ℕ := w.fired.countP (·.node = n)

/-- A node is pending until a tick, and has fired so many times. -/
def Awaited (n : ν) (tick count : ℕ) (w : TimeWheel ν η) : Prop :=
  ∃ lists pending, Wound w lists pending ∧ n ∈ pending ∧ w.dueAt n = tick ∧ w.firings n = count

/-- The condition on a call that it neither removes the node nor ticks past the tick. -/
def LeavesBe (n : ν) (tick : ℕ) : WheelOp ν η → Prop
  | .removeTimer m => m ≠ n
  | .tick t => t.toNat ≤ tick
  | .addTimer _ _ _ => True

/-- How often a node has fired after a call of `tick`. -/
theorem Ticked.firings {t : UInt64} {due pending' : List ν}
    (h : Ticked w pending t w' due pending') (n : ν) :
    w'.firings n = w.firings n + due.count n := by
  unfold TimeWheel.firings
  rw [h.fired, List.countP_append, List.countP_map, List.count]
  rfl

/-- A node is awaited from the call that arms it. -/
theorem Wound.awaited_arm (h : Wound w lists pending) (hn : ¬ w.IsLinked n) (e : UInt64)
    (handle : η) :
    (w.arm n e handle).Awaited n (dueTick e w.currentTick) (w.firings n) := by
  obtain ⟨lists', h'⟩ := h.arm (fun hp => hn (h.isLinked_iff.mpr hp)) e handle
  obtain ⟨htick, hfired⟩ := arm_currentTick w n e handle
  refine ⟨lists', _, h', List.mem_cons_self, ?_, ?_⟩
  · rw [dueAt, htick, (arm_self w n e handle).1]
  · rw [firings, hfired, firings]

/-- The step lemma: a node that is left alone is still awaited. -/
theorem Awaited.call {tick count : ℕ} (h : w.Awaited n tick count) (hstep : wheelCall w op w')
    (hclean : w.RemovesCleanly op) (hleave : LeavesBe n tick op) : w'.Awaited n tick count := by
  obtain ⟨lists, pending, hwound, hn, hdue, hcount⟩ := h
  cases op with
  | addTimer m e handle =>
    obtain ⟨hm, rfl⟩ := hstep
    rw [hwound.isLinked_iff] at hm
    obtain ⟨lists', hwound'⟩ := hwound.arm hm e handle
    obtain ⟨htick, hfired⟩ := arm_currentTick w m e handle
    refine ⟨lists', _, hwound', List.mem_cons_of_mem m hn, ?_, ?_⟩
    · rw [dueAt, htick, (arm_of_ne w e handle (ne_of_mem_of_not_mem hn hm)).1]
      exact hdue
    · rwa [firings, hfired]
  | removeTimer m =>
    obtain rfl := hstep
    have hframe := removeTimer_frame w m
    have hdue' : (w.removeTimer m).dueAt n = tick := by
      rw [dueAt, hframe.currentTick, hframe.expiresAt]
      exact hdue
    have hcount' : (w.removeTimer m).firings n = count := by
      rwa [firings, (removeTimer_currentTick w m).2]
    by_cases hm : w.IsLinked m
    · obtain ⟨lists', hwound'⟩ := hwound.removeTimer (hwound.isLinked_iff.mp hm)
      have hn' := (List.mem_erase_of_ne (Ne.symm hleave)).mpr hn
      exact ⟨lists', _, hwound', hn', hdue', hcount'⟩
    · have hm' := hwound.isLinked_iff.not.mp hm
      have hwound' := hwound.removeTimer_clean hm' (hclean.resolve_left hm)
      exact ⟨lists, _, hwound', hn, hdue', hcount'⟩
  | tick t =>
    obtain ⟨lists', due, pending', hwound', hticked⟩ := hwound.of_tick hstep
    -- The node is not among those that fire, which are due before `t`.
    have hnot : n ∉ due := fun hmem => by
      have hlt := hticked.due_lt n hmem
      have hle : t.toNat ≤ tick := hleave
      omega
    have hmem : n ∈ pending' :=
      (List.mem_append.mp (hticked.perm.mem_iff.mp hn)).resolve_left hnot
    refine ⟨lists', pending', hwound', hmem, (hticked.dueAt n hmem).trans hdue, ?_⟩
    rw [hticked.firings, List.count_eq_zero_of_not_mem hnot, hcount, Nat.add_zero]

/-- The run lemma. -/
theorem Awaited.run {tick count : ℕ} (h : w.Awaited n tick count)
    {l : List (WheelOp ν η × TimeWheel ν η)} (hl : Path wheelCall w l)
    (hclean : Meets RemovesCleanly w l) (hleave : ∀ x ∈ l, LeavesBe n tick x.1) :
    (last w l).Awaited n tick count := by
  induction l generalizing w with
  | nil => exact h
  | cons x l ih =>
    obtain ⟨hx, hleave⟩ := List.forall_mem_cons.mp hleave
    exact ih (h.call hl.1 hclean.1 hx) hl.2 hclean.2 hleave

/-- A call of `tick` that goes past the tick fires the node that is awaited. -/
theorem Awaited.tick {tick count : ℕ} (h : w.Awaited n tick count) {t : UInt64}
    (hlt : tick < t.toNat) (hstep : wheelCall w (.tick t) w') : w'.firings n = count + 1 := by
  obtain ⟨lists, pending, hwound, hn, hdue, hcount⟩ := h
  obtain ⟨lists', due, pending', hwound', hticked⟩ := hwound.of_tick hstep
  have hmem : n ∈ due := by
    refine (List.mem_append.mp (hticked.perm.mem_iff.mp hn)).resolve_right fun hmem => ?_
    have hle := hticked.le_dueAt hmem
    omega
  have hnodup : due.Nodup :=
    (List.nodup_append.mp (hticked.perm.nodup_iff.mp hwound.nodup)).1
  rw [hticked.firings, hcount, List.count_eq_one_of_mem hnodup hmem]

end TimeWheel

end Novaio
