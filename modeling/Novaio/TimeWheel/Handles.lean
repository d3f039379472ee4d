import Novaio.TimeWheel.Idle

/-!
# The handles of the timers

A wheel schedules the handle of a node that it reaches from the head of a slot. `Handles P` says
that the handles of all nodes that it can come to have the property `P`, stale links included. The
operations keep this, so that what `tick` schedules has the property.
-/

namespace Novaio

namespace TimeWheel

variable {ν η : Type*} [DecidableEq ν] {P : η → Prop} {w w' : TimeWheel ν η} {n : ν}

/-- The handles of all nodes that the wheel can come to have a property, and so have those that it
has fired. -/
structure Handles (P : η → Prop) (w : TimeWheel ν η) : Prop where
  heads : ∀ s n, w.heads s = some n → P (w.nodes n).handle
  next : ∀ n m, (w.nodes n).next = some m → P (w.nodes m).handle
  fired : ∀ firing ∈ w.fired, P firing.handle

/-- `add_timer` of a node whose handle has the property. -/
theorem Handles.addTimer (h : Handles P w) (hn : P (w.nodes n).handle) :
    Handles P (w.addTimer n) := by
  obtain ⟨hheads, -, -, hfired⟩ := addTimer_heads w n
  have hhandle := (addTimer_frame w n).handle
  refine ⟨fun s m hm => ?_, fun m m' hm => ?_, fun firing hfiring => ?_⟩
  · rw [hheads] at hm
    rw [hhandle]
    rcases eq_or_ne s (w.slotOf n) with rfl | hs
    · rw [Function.update_self] at hm
      exact Option.some.inj hm ▸ hn
    · rw [Function.update_of_ne hs] at hm
      exact h.heads s m hm
  · rw [hhandle]
    rw [addTimer_nodes] at hm
    split_ifs at hm
    · exact h.heads _ m' hm
    · exact h.next m m' hm
    · exact h.next m m' hm
  · rw [hfired] at hfiring
    exact h.fired firing hfiring

/-- Arming a node with such a handle. -/
theorem Handles.arm (h : Handles P w) {expiresAt : UInt64} {handle : η} (hP : P handle) :
    Handles P (w.arm n expiresAt handle) := by
  have hset : Handles P (w.setNode n ({ · with expiresAt := expiresAt, handle := handle })) := by
    refine ⟨fun s m hm => ?_, fun m m' hm => ?_, h.fired⟩
    · rw [setNode_nodes]
      split_ifs
      · exact hP
      · exact h.heads s m hm
    · have hnext : (w.nodes m).next = some m' := by
        rw [setNode_nodes] at hm
        split_ifs at hm with heq
        · exact heq ▸ hm
        · exact hm
      rw [setNode_nodes]
      split_ifs
      · exact hP
      · exact h.next m m' hnext
  refine hset.addTimer ?_
  rw [setNode_nodes, if_pos rfl]
  exact hP

omit [DecidableEq ν] in
/-- Clearing a slot. -/
theorem Handles.setHead (h : Handles P w) (s : Slot) : Handles P (w.setHead s none) := by
  refine ⟨fun t m hm => ?_, h.next, h.fired⟩
  rcases eq_or_ne t s with rfl | hne
  · simp at hm
  · exact h.heads t m (by simpa [hne] using hm)

/-- The loop of `cascade`. -/
theorem Handles.cascadeLoop {fuel : ℕ} {curr : Option ν} (h : Handles P w)
    (hcurr : ∀ n, curr = some n → P (w.nodes n).handle)
    (hw : cascadeLoop fuel w curr = some w') : Handles P w' := by
  induction fuel generalizing w curr with
  | zero =>
    cases curr with
    | none => exact Option.some.inj hw ▸ h
    | some n => simp [TimeWheel.cascadeLoop] at hw
  | succ fuel ih =>
    cases curr with
    | none => exact Option.some.inj hw ▸ h
    | some n =>
      refine ih (h.addTimer (hcurr n rfl)) (fun m hm => ?_) hw
      rw [(addTimer_frame w n).handle]
      exact h.next n m hm

/-- The loop of `tick` over a slot. -/
theorem Handles.fireLoop {current : Bool} {fuel : ℕ} {curr : Option ν} (h : Handles P w)
    (hcurr : ∀ n, curr = some n → P (w.nodes n).handle)
    (hw : fireLoop current fuel w curr = some w') : Handles P w' := by
  induction fuel generalizing w curr with
  | zero =>
    cases curr with
    | none => exact Option.some.inj hw ▸ h
    | some n => simp [TimeWheel.fireLoop] at hw
  | succ fuel ih =>
    cases curr with
    | none => exact Option.some.inj hw ▸ h
    | some n =>
      -- Clearing `head_ptr` leaves the handles and the links.
      have hhandle (m : ν) : ((w.setNode n ({ · with headPtr := none })).nodes m).handle =
          (w.nodes m).handle := by
        rw [setNode_nodes]
        split_ifs with hm
        · rw [hm]
        · rfl
      have hnext (m : ν) : ((w.setNode n ({ · with headPtr := none })).nodes m).next =
          (w.nodes m).next := by
        rw [setNode_nodes]
        split_ifs with hm
        · rw [hm]
        · rfl
      have hset : Handles P (w.setNode n ({ · with headPtr := none })) :=
        ⟨fun s m hm => hhandle m ▸ h.heads s m hm,
          fun m m' hm => hhandle m' ▸ h.next m m' ((hnext m).symm.trans hm), h.fired⟩
      rw [TimeWheel.fireLoop] at hw
      split_ifs at hw
      · refine ih ?_ (fun m hm => ?_) hw
        · refine ⟨hset.heads, hset.next, fun firing hfiring => ?_⟩
          rcases List.mem_append.mp hfiring with hfiring | hfiring
          · exact h.fired firing hfiring
          · rw [List.mem_singleton.mp hfiring]
            exact hhandle n ▸ hcurr n rfl
        · exact hhandle m ▸ h.next n m hm
      · exact ih hset (fun m hm => hhandle m ▸ h.next n m hm) hw

/-- `tick`. -/
theorem Handles.tickLoop {current : Bool} {walk fuel : ℕ} {time : UInt64} (h : Handles P w)
    (hw : w.tickLoop current walk time fuel = some w') : Handles P w' := by
  induction fuel generalizing w with
  | zero =>
    obtain ⟨-, hw⟩ := Option.ite_none_left_eq_some.mp hw
    exact Option.some.inj hw ▸ h
  | succ fuel ih =>
    rw [TimeWheel.tickLoop] at hw
    split_ifs at hw
    · obtain ⟨w₁, hw₁, hw⟩ := Option.bind_eq_some_iff.mp hw
      refine ih ?_ hw
      obtain ⟨w₂, hw₂, hw₁⟩ := Option.bind_eq_some_iff.mp hw₁
      obtain ⟨w₃, hw₃, hw₁⟩ := Option.bind_eq_some_iff.mp hw₁
      obtain rfl := Option.some.inj hw₁
      have h₂ : Handles P w₂ := cascades_keep (I := Handles P)
        (fun v v' tv i hv hv' => (hv.setHead _).cascadeLoop (fun n hn => hv.heads _ n hn) hv') h hw₂
      have h₃ := (h₂.setHead _).fireLoop (fun n hn => h₂.heads _ n hn) hw₃
      exact ⟨h₃.heads, h₃.next, h₃.fired⟩
    · exact Option.some.inj hw ▸ h

end TimeWheel

end Novaio
