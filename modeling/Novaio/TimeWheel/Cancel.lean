import Novaio.TimeWheel.Calls
import Novaio.TimeWheel.Timeout

/-!
# Cancelling at any time

`remove_timer` may be called of a node at any time, also of one that has fired or was removed
before. Such a cancel is harmless if and only if the node is clean. A run in which every cancel so
far was harmless is one in which every node that was removed was linked or clean
(`cancel_harmless_iff`), and in such a run the wheel stays in use.
-/

namespace Novaio

open Transition

namespace TimeWheel

variable {ν η : Type*} [DecidableEq ν] {w : TimeWheel ν η} {lists : Slot → List ν}
  {pending : List ν}

/-- The property of a call that it is harmless where it cancels a node that is not linked. -/
def CancelsHarmlessly (w : TimeWheel ν η) (op : WheelOp ν η) : Prop :=
  ∀ n, op = .removeTimer n → ¬ w.IsLinked n → Harmless w (w.removeTimer n)

/-- The step lemma: a call of a wheel in use is harmless if and only if it removes a node that is
linked or clean. -/
theorem Wound.cancelsHarmlessly_iff (h : Wound w lists pending) (op : WheelOp ν η) :
    w.CancelsHarmlessly op ↔ w.RemovesCleanly op := by
  cases op with
  | addTimer n e handle => exact ⟨fun _ => trivial, fun _ _ hop => by cases hop⟩
  | tick t => exact ⟨fun _ => trivial, fun _ _ hop => by cases hop⟩
  | removeTimer n =>
    constructor
    · intro hharmless
      by_cases hn : w.IsLinked n
      · exact .inl hn
      · exact .inr ((h.rep.harmless_iff hn).mp (hharmless n rfl hn))
    · intro hclean m hop hm
      obtain rfl := WheelOp.removeTimer.inj hop
      exact (h.rep.harmless_iff hm).mpr (hclean.resolve_left hm)

end TimeWheel

open TimeWheel

/-- In every run from an empty wheel, the cancels of nodes that are not linked are all harmless if
and only if the nodes are all clean. -/
theorem cancel_harmless_iff {ν η : Type*} [DecidableEq ν] (expiresAt : ν → UInt64)
    (handle : ν → η) (l : List (WheelOp ν η × TimeWheel ν η))
    (hl : Path wheelCall (empty expiresAt handle) l) :
    Meets CancelsHarmlessly (empty expiresAt handle) l ↔
      Meets RemovesCleanly (empty expiresAt handle) l := by
  have hwound : ∃ lists pending, Wound (empty expiresAt handle) lists pending :=
    ⟨_, _, empty_wound expiresAt handle⟩
  generalize empty expiresAt handle = w at hl hwound ⊢
  -- As long as the cancels are clean, the wheel is in use.
  induction l generalizing w with
  | nil => exact .rfl
  | cons x l ih =>
    obtain ⟨lists, pending, hwound⟩ := hwound
    have hstep := hwound.cancelsHarmlessly_iff x.1
    constructor
    · rintro ⟨hharmless, hrest⟩
      have hclean := hstep.mp hharmless
      exact ⟨hclean, (ih x.2 hl.2 (hwound.call hl.1 hclean)).mp hrest⟩
    · rintro ⟨hclean, hrest⟩
      exact ⟨hstep.mpr hclean, (ih x.2 hl.2 (hwound.call hl.1 hclean)).mpr hrest⟩

/-- What is left of the links of a timer that has fired alone. -/
theorem oneTimer_fired :
    ((oneTimer 5).tick true 6 6).map (fun w => ((w.nodes 0).prev, (w.nodes 0).next)) =
      some (none, none) := by
  decide +kernel

/-- A timer that was alone in its slot is cancelled after it has fired. -/
theorem cancel_harmless_iff_alone :
    ∃ w : TimeWheel ℕ ℕ, wheelCall (oneTimer 5) (.tick 6) w ∧ ¬ w.IsLinked 0 ∧
      Harmless w (w.removeTimer 0) := by
  obtain ⟨⟨hn, -, hfree⟩, lists, ht, -⟩ := oneTimer_run 5
  obtain ⟨w, -, -, -, hw, -⟩ := ht.wound.tick 6
  have hnot : ¬ w.IsLinked 0 := ht.wound.not_isLinked_of_tick hw (by decide)
  have hlinks := oneTimer_fired
  rw [ht.wound.tick_eq hw (by decide) (by decide), Option.map_some, Option.some.injEq,
    Prod.mk.injEq] at hlinks
  have hclean : w.Clean 0 := by
    refine ⟨fun p hp => ?_, fun q hq => ?_⟩
    · rw [hlinks.1] at hp
      simp at hp
    · rw [hlinks.2] at hq
      simp at hq
  obtain ⟨-, -, hharmless, -⟩ := (cancel_harmless_iff (fun _ => 0) (fun _ => 0)
    [(.addTimer 0 5 7, oneTimer 5), (.tick 6, w), (.removeTimer 0, w.removeTimer 0)]
    ⟨⟨hn, hfree⟩, hw, rfl, trivial⟩).mpr ⟨trivial, trivial, .inr hclean, trivial⟩
  exact ⟨w, hw, hnot, hharmless 0 rfl hnot⟩

/-- The links of two timers that have fired together, once one of them is armed again in front of a
third one. -/
theorem twoTimers_fired :
    (((oneTimer 5).arm 1 5 7).tick true 6 6).map (fun w =>
      let v := (w.arm 2 10 7).arm 1 10 7
      ((v.nodes 0).prev, (v.nodes 0).next, (v.nodes 1).next)) = some (some 1, none, some 2) := by
  decide +kernel

/-- Two timers fire together at the tick 5. One of them is armed again for the tick 10, in front of
a third one. The cancel of the other one then drops the third timer. -/
theorem cancel_drops_timer :
    ∃ l : List (WheelOp ℕ ℕ × TimeWheel ℕ ℕ),
      Path wheelCall (empty (fun _ => 0) fun _ => 0) l ∧
      l.map Prod.fst = [.addTimer 0 5 7, .addTimer 1 5 7, .tick 6, .addTimer 2 10 7,
        .addTimer 1 10 7] ∧
      let w := last (empty (fun _ => 0) fun _ => 0) l
      ¬ w.IsLinked 0 ∧ ¬ Harmless w (w.removeTimer 0) := by
  obtain ⟨⟨hn, -, hfree⟩, lists, ht, -⟩ := oneTimer_run 5
  have h0 : 1 ∉ [0] := by decide
  obtain ⟨lists₁, h₁⟩ := ht.wound.arm h0 5 7
  obtain ⟨w, lists₂, due, pending, hw, h₂, hticked⟩ := h₁.tick 6
  -- Both timers have fired.
  obtain rfl : pending = [] := by
    refine List.eq_nil_iff_forall_not_mem.mpr fun n hn => ?_
    have hmem : n ∈ [1, 0] := hticked.perm.mem_iff.mpr (List.mem_append_right due hn)
    have hle := hticked.le_dueAt hn
    rcases List.mem_cons.mp hmem with rfl | hmem
    · exact absurd hle (by decide)
    · obtain rfl := List.mem_singleton.mp hmem
      exact absurd hle (by decide)
  have h2 : 2 ∉ ([] : List ℕ) := List.not_mem_nil
  have h1 : 1 ∉ [2] := by decide
  obtain ⟨lists₃, h₃⟩ := h₂.arm h2 10 7
  obtain ⟨lists₄, h₄⟩ := h₃.arm h1 10 7
  have hlinks := twoTimers_fired
  rw [h₁.tick_eq hw (by decide) (by decide), Option.map_some, Option.some.injEq, Prod.mk.injEq,
    Prod.mk.injEq] at hlinks
  obtain ⟨hprev, hnext, hother⟩ := hlinks
  have hnot : ¬ ((w.arm 2 10 7).arm 1 10 7).IsLinked 0 := by
    rw [h₄.isLinked_iff]
    decide
  refine ⟨[(.addTimer 0 5 7, oneTimer 5), (.addTimer 1 5 7, (oneTimer 5).arm 1 5 7), (.tick 6, w),
    (.addTimer 2 10 7, w.arm 2 10 7), (.addTimer 1 10 7, (w.arm 2 10 7).arm 1 10 7)],
    ⟨⟨hn, hfree⟩, ⟨?_, rfl⟩, hw, ⟨?_, rfl⟩, ⟨?_, rfl⟩, trivial⟩, rfl, hnot, ?_⟩
  · rw [ht.wound.isLinked_iff]
    exact h0
  · rw [h₂.isLinked_iff]
    exact h2
  · rw [h₃.isLinked_iff]
    exact h1
  · rw [last, last, last, last, last, last, h₄.rep.harmless_iff hnot]
    intro hclean
    have heq := hclean.prev 1 hprev (h₄.isLinked_iff.mpr List.mem_cons_self)
    rw [hother, hnext] at heq
    simp at heq

end Novaio
