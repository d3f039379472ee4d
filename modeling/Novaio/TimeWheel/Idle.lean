import Novaio.TimeWheel.Firing

/-!
# Waiting without a timeout

`next_timeout` answers `-1` where no timer has been armed, and the loop then waits until a
completion comes. `nextTimeout_eq_neg_one` says when it does: the count of timers is zero, or the
time is zero and a slot of `tv1_` holds a timer that expires at the end of time. The second case is
excluded by `Fresh`, which holds of every wheel that has not started to tick.

The count never goes down when a timer fires, and it returns to zero only after `2^64` calls of
`add_timer`.
-/

namespace Novaio

open Linked

namespace TimeWheel

variable {ν η : Type*} [DecidableEq ν] {w w' : TimeWheel ν η} {n : ν}

/-! ## The calls of `cascade` -/

/-- What every call of `cascade` keeps, such calls in turn keep. -/
theorem cascadeAll_keep {I : TimeWheel ν η → Prop} {fuel : ℕ}
    (hcascade : ∀ w w' tv i, I w → w.cascade fuel tv i = some w' → I w') {tvs : List Tv} (hw : I w)
    (h : w.cascadeAll fuel tvs = some w') : I w' := by
  induction tvs generalizing w with
  | nil => exact Option.some.inj h ▸ hw
  | cons tv tvs ih =>
    obtain ⟨w₁, hw₁, h⟩ := Option.bind_eq_some_iff.mp h
    have h₁ := hcascade _ _ _ _ hw hw₁
    split_ifs at h
    · exact ih h₁ h
    · exact Option.some.inj h ▸ h₁

/-- What every call of `cascade` keeps, the calls that an iteration of `tick` starts with keep. -/
theorem cascades_keep {I : TimeWheel ν η → Prop} {fuel : ℕ}
    (hcascade : ∀ w w' tv i, I w → w.cascade fuel tv i = some w' → I w') (hw : I w)
    (h : w.cascades fuel = some w') : I w' := by
  rw [cascades_eq] at h
  split_ifs at h
  · exact cascadeAll_keep hcascade hw h
  · exact Option.some.inj h ▸ hw

/-- The loop of `cascade` does not move the tick. -/
theorem cascadeLoop_currentTick {fuel : ℕ} {curr : Option ν}
    (h : cascadeLoop fuel w curr = some w') : w'.currentTick = w.currentTick := by
  induction fuel generalizing w curr with
  | zero =>
    cases curr with
    | none => exact congrArg currentTick (Option.some.inj h).symm
    | some n => simp [cascadeLoop] at h
  | succ fuel ih =>
    cases curr with
    | none => exact congrArg currentTick (Option.some.inj h).symm
    | some n => exact (ih h).trans (addTimer_frame w n).currentTick

/-- The loop of `tick` over a slot writes neither the slots nor the counters. -/
theorem fireLoop_frame {current : Bool} {fuel : ℕ} {curr : Option ν}
    (h : fireLoop current fuel w curr = some w') :
    w'.heads = w.heads ∧ w'.currentTick = w.currentTick ∧ w'.activeTimers = w.activeTimers := by
  induction fuel generalizing w curr with
  | zero =>
    cases curr with
    | none => exact Option.some.inj h ▸ ⟨rfl, rfl, rfl⟩
    | some n => simp [fireLoop] at h
  | succ fuel ih =>
    cases curr with
    | none => exact Option.some.inj h ▸ ⟨rfl, rfl, rfl⟩
    | some n =>
      obtain ⟨hheads, htick, hcount⟩ := ih h
      refine ⟨hheads.trans ?_, htick.trans ?_, hcount.trans ?_⟩ <;> split_ifs <;> rfl

/-! ## The tick -/

/-- An iteration of `tick` moves the tick by one. -/
theorem tickBody_currentTick {current : Bool} {fuel : ℕ}
    (h : w.tickBody current fuel = some w') : w'.currentTick = w.currentTick + 1 := by
  obtain ⟨w₁, hw₁, h⟩ := Option.bind_eq_some_iff.mp h
  obtain ⟨w₂, hw₂, h⟩ := Option.bind_eq_some_iff.mp h
  obtain rfl := Option.some.inj h
  have h₁ : w₁.currentTick = w.currentTick :=
    cascades_keep (I := fun v => v.currentTick = w.currentTick)
      (fun v v' _ _ hv hv' => (cascadeLoop_currentTick hv').trans hv) rfl hw₁
  have h₂ : w₂.currentTick = w.currentTick := (fireLoop_frame hw₂).2.1.trans h₁
  show w₂.currentTick + 1 = _
  rw [h₂]

/-- `tick` moves the tick up to the time, and not back. -/
theorem tickLoop_currentTick {current : Bool} {walk fuel : ℕ} {time : UInt64}
    (h : w.tickLoop current walk time fuel = some w') :
    w'.currentTick.toNat = max w.currentTick.toNat time.toNat := by
  induction fuel generalizing w with
  | zero =>
    obtain ⟨hle, h⟩ := Option.ite_none_left_eq_some.mp h
    rw [UInt64.lt_iff_toNat_lt] at hle
    rw [← Option.some.inj h]
    omega
  | succ fuel ih =>
    rw [tickLoop] at h
    split_ifs at h with hlt
    · obtain ⟨w₁, hw₁, h⟩ := Option.bind_eq_some_iff.mp h
      have htick := congrArg UInt64.toNat (tickBody_currentTick hw₁)
      rw [UInt64.lt_iff_toNat_lt] at hlt
      have hone := UInt64.toNat_lt time
      rw [UInt64.toNat_add, UInt64.toNat_one, Nat.mod_eq_of_lt (by omega)] at htick
      rw [ih h]
      omega
    · rw [UInt64.lt_iff_toNat_lt] at hlt
      rw [← Option.some.inj h]
      omega

/-- `tick` moves the tick up to the time, and not back. -/
theorem tick_currentTick {current : Bool} {fuel : ℕ} {time : UInt64}
    (h : w.tick current fuel time = some w') :
    w'.currentTick.toNat = max w.currentTick.toNat time.toNat :=
  tickLoop_currentTick h

/-! ## Empty slots -/

/-- There is nothing to walk in an empty slot. -/
theorem cascadeLoop_none (fuel : ℕ) (w : TimeWheel ν η) :
    cascadeLoop fuel w none = some w := by
  cases fuel <;> rfl

/-- There is nothing to fire in an empty slot. -/
theorem fireLoop_none (current : Bool) (fuel : ℕ) (w : TimeWheel ν η) :
    fireLoop current fuel w none = some w := by
  cases fuel <;> rfl

/-! ## A wheel that has not ticked -/

/-- The slots point to nodes that are linked, and a timer of `tv1_` expires in the first 256
ticks. -/
structure Fresh (w : TimeWheel ν η) : Prop where
  headPtr : ∀ s n, w.heads s = some n → (w.nodes n).headPtr ≠ none
  expiresAt : ∀ i n, w.heads (.tv1 i) = some n → (w.nodes n).expiresAt < tvrSize

/-- A timer that is selected for `tv1_` at the tick 0 expires in the first 256 ticks. -/
theorem lt_of_slotFor {expires : UInt64} {i : Fin 256} (h : slotFor expires 0 = .tv1 i) :
    expires < tvrSize := by
  unfold slotFor at h
  simp only [UInt64.sub_zero] at h
  split_ifs at h with h1
  exact h1

/-- Arming a node that is not linked keeps the wheel fresh. -/
theorem Fresh.arm (h : w.Fresh) (htick : w.currentTick = 0) {expires : UInt64} {handle : η}
    (hn : (w.nodes n).headPtr = none) : (w.arm n expires handle).Fresh := by
  set v := w.setNode n ({ · with expiresAt := expires, handle := handle }) with hv
  have hslot : v.slotOf n = slotFor expires 0 := by
    rw [slotOf, hv, setNode_nodes, if_pos rfl, setNode_currentTick, htick]
  have hself : ((w.arm n expires handle).nodes n).headPtr = some (v.slotOf n) := by
    show ((v.addTimer n).nodes n).headPtr = _
    rw [addTimer_nodes, if_pos rfl]
  have hother {m : ν} (hm : m ≠ n) :
      ((w.arm n expires handle).nodes m).headPtr = (w.nodes m).headPtr := by
    show ((v.addTimer n).nodes m).headPtr = _
    rw [addTimer_nodes, if_neg hm]
    split_ifs <;> rw [hv, setNode_nodes, if_neg hm]
  have hheads : (w.arm n expires handle).heads =
      Function.update w.heads (v.slotOf n) (some n) := (addTimer_heads v n).1
  -- The head of another slot is a node that was linked before, so not this one.
  have hne {s : Slot} {m : ν} (hm : w.heads s = some m) : m ≠ n := by
    rintro rfl
    exact h.headPtr s m hm hn
  constructor
  · intro s m hm
    rw [hheads] at hm
    rcases eq_or_ne s (v.slotOf n) with rfl | hs
    · rw [Function.update_self] at hm
      obtain rfl := Option.some.inj hm
      simp [hself]
    · rw [Function.update_of_ne hs] at hm
      rw [hother (hne hm)]
      exact h.headPtr s m hm
  · intro i m hm
    rw [hheads] at hm
    by_cases hs : .tv1 i = v.slotOf n
    · rw [hs, Function.update_self] at hm
      obtain rfl := Option.some.inj hm
      rw [(arm_self w n expires handle).1]
      exact lt_of_slotFor (hslot.symm.trans hs.symm)
    · rw [Function.update_of_ne hs] at hm
      rw [(arm_of_ne w expires handle (hne hm)).1]
      exact h.expiresAt i m hm

omit [DecidableEq ν] in
/-- When `next_timeout` answers `-1`. -/
theorem nextTimeout_eq_neg_one {now : UInt64} (h : w.nextTimeout now = -1) :
    w.activeTimers = 0 ∨
      now = 0 ∧ ∃ i n, w.heads (.tv1 i) = some n ∧ (w.nodes n).expiresAt = -1 := by
  unfold nextTimeout at h
  split_ifs at h with hcount
  · exact .inl hcount
  · refine .inr ?_
    split at h
    · rename_i n hscan
      obtain ⟨i, -, hi⟩ := List.exists_of_findSome?_eq_some hscan
      dsimp only at h
      split_ifs at h with hlt
      · have hsub := congrArg UInt64.toNat h
        rw [UInt64.toNat_sub_of_le _ _ (UInt64.le_of_lt hlt)] at hsub
        have hmax : (-1 : UInt64).toNat = 2 ^ 64 - 1 := rfl
        have hexp := UInt64.toNat_lt (w.nodes n).expiresAt
        refine ⟨UInt64.toNat_inj.mp ?_, _, n, hi, UInt64.toNat_inj.mp ?_⟩
        · rw [UInt64.toNat_zero]
          omega
        · omega
      · exact absurd h (by decide)
    · exact absurd h (by decide)

end TimeWheel

end Novaio
