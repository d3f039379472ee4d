import Novaio.TimeWheel.Calls

/-!
# The slots' lists

`WellLinked` states what a reader of the links can rely on: the walk from a slot's head ends and
meets no node twice, neighbours are linked both ways, and a node is in the list of one slot, the one
that its `head_ptr` names. A wheel in use is well linked, and `timer_lists_well_linked` follows this
through the calls. In particular every walk of `cascade` ends, also the one over a slot of `tv5_`
whose timers go back to the slot: the slot's head is cleared before the walk, and the walk follows
the links that it reads before each node is armed again.
-/

namespace Novaio

open Linked Transition

namespace TimeWheel

variable {ν η : Type*} [DecidableEq ν] {w : TimeWheel ν η} {lists : Slot → List ν} {n : ν}

/-- The slots' lists are linked in the nodes. -/
structure WellLinked (w : TimeWheel ν η) (lists : Slot → List ν) : Prop where
  chain : ∀ s, Chain (fun n => (w.nodes n).next) (w.heads s) (lists s)
  nodup : ∀ s, (lists s).Nodup
  neighbours : ∀ s, ∀ a ∈ lists s, ∀ b,
    (w.nodes a).next = some b ↔ b ∈ lists s ∧ (w.nodes b).prev = some a
  head : ∀ s n, w.heads s = some n → (w.nodes n).prev = none
  headPtr : ∀ s, ∀ n ∈ lists s, (w.nodes n).headPtr = some s
  disjoint : ∀ s t n, n ∈ lists s → n ∈ lists t → s = t

omit [DecidableEq ν] in
/-- Lists that the memory represents are linked in the nodes. -/
theorem Rep.wellLinked (h : Rep w lists []) : WellLinked w lists where
  chain := h.chain
  nodup := h.nodup
  neighbours s a ha b := by
    constructor
    · intro hab
      have hb := (h.chain s).mem_of_next ha hab
      exact ⟨hb, ((h.chain s).next_eq_iff (h.back s) ha hb).mp hab⟩
    · rintro ⟨hb, hba⟩
      exact ((h.chain s).next_eq_iff (h.back s) ha hb).mpr hba
  head s n hn := (h.back s).prev_head ((h.chain s).head.symm.trans hn)
  headPtr := h.headPtr
  disjoint _ _ _ hs ht := h.unique hs ht

/-- The lists after a node is pushed and taken out again. -/
theorem erase_place (expires : ν → UInt64) (c : UInt64) (lists : Slot → List ν) (n : ν) :
    let s := slotFor (expires n) c
    Function.update (place expires c lists n) s ((place expires c lists n s).erase n) = lists := by
  intro s
  rw [place, Function.update_self, List.erase_cons_head, Function.update_idem,
    Function.update_eq_self]

/-- Arming a node that is not linked and removing it at once restores the slots and the count. -/
theorem Rep.removeTimer_arm (h : Rep w lists []) (hn : ¬ InLists lists n) (e : UInt64)
    (handle : η) :
    Rep ((w.arm n e handle).removeTimer n) lists [] ∧
      ((w.arm n e handle).removeTimer n).heads = w.heads ∧
      ((w.arm n e handle).removeTimer n).activeTimers = w.activeTimers := by
  have harm := h.arm hn e handle
  have hmem : n ∈ place (Function.update w.expiries n e) w.currentTick lists n
      (slotFor (Function.update w.expiries n e n) w.currentTick) :=
    mem_place.mpr (.inr ⟨rfl, rfl⟩)
  have hrep := rep_removeTimer harm hmem
  rw [erase_place] at hrep
  refine ⟨hrep, ?_, ?_⟩
  · funext s
    rw [(hrep.chain s).head, (h.chain s).head]
  · rw [(removeTimer_heads _ (harm.headPtr _ n hmem)).2.2.1, TimeWheel.arm,
      (addTimer_heads _ n).2.2.1]
    exact UInt64.add_sub_cancel _ _

end TimeWheel

open TimeWheel

/-- In every state that calls lead to from an empty wheel, the slots' lists are well linked.
Removing a linked node takes that node out of its list and nothing else. Arming a node and removing
it at once restores every list and the count. Every cascade and every `tick` returns. -/
theorem timer_lists_well_linked {ν η : Type*} [DecidableEq ν] (expiresAt : ν → UInt64)
    (handle : ν → η) (l : List (WheelOp ν η × TimeWheel ν η))
    (hl : Path wheelCall (empty expiresAt handle) l)
    (hclean : Meets RemovesCleanly (empty expiresAt handle) l) :
    let w := last (empty expiresAt handle) l
    ∃ lists, WellLinked w lists ∧
      (∀ s, ∀ n ∈ lists s,
        WellLinked (w.removeTimer n) (Function.update lists s ((lists s).erase n))) ∧
      (∀ n e h, ¬ w.IsLinked n →
        let v := (w.arm n e h).removeTimer n
        WellLinked v lists ∧ v.heads = w.heads ∧ v.activeTimers = w.activeTimers) ∧
      (∀ tv i, ∃ v, (∀ fuel, (lists (.tvn tv i)).length ≤ fuel → w.cascade fuel tv i = some v) ∧
        WellLinked v (cascadeLists w.expiries w.currentTick lists (.tvn tv i))) ∧
      ∀ t, ∃ v, wheelCall w (.tick t) v := by
  intro w
  obtain ⟨lists, pending, hwound⟩ := run_wound hl hclean
  have hrep := hwound.rep
  refine ⟨lists, hrep.wellLinked, fun s n hn => (rep_removeTimer hrep hn).wellLinked,
    fun n e h hn => ?_, fun tv i => ?_, fun t => ?_⟩
  · obtain ⟨hrep', hheads, hcount⟩ := hrep.removeTimer_arm (hrep.isLinked_iff.not.mp hn) e h
    exact ⟨hrep'.wellLinked, hheads, hcount⟩
  · obtain ⟨v, hv, hrep', -, -⟩ := rep_cascade hrep tv i
    exact ⟨v, hv, hrep'.wellLinked⟩
  · obtain ⟨v, -, -, -, hv, -⟩ := hwound.tick t
    exact ⟨v, hv⟩

/-- Two timers are armed in the same slot, and one of them is removed. -/
theorem timer_lists_well_linked_two :
    let w : TimeWheel ℕ ℕ := ((empty (fun _ => 0) fun _ => 0).arm 0 5 7).arm 1 5 7
    ∃ lists, WellLinked w lists ∧
      (∀ s, ∀ n ∈ lists s,
        WellLinked (w.removeTimer n) (Function.update lists s ((lists s).erase n))) ∧
      ∀ t, ∃ v, wheelCall w (.tick t) v := by
  intro w
  have h₀ := empty_wound (ν := ℕ) (η := ℕ) (fun _ => 0) fun _ => 0
  obtain ⟨lists₁, h₁⟩ := h₀.arm List.not_mem_nil 5 7
  have hl : Path wheelCall (empty (fun _ => 0) fun _ => 0)
      [(.addTimer 0 5 7, (empty (fun _ => 0) fun _ => 0).arm 0 5 7), (.addTimer 1 5 7, w)] := by
    refine ⟨⟨?_, rfl⟩, ⟨?_, rfl⟩, trivial⟩
    · rw [h₀.isLinked_iff]
      exact List.not_mem_nil
    · rw [h₁.isLinked_iff]
      decide
  obtain ⟨lists, hlinked, hremove, -, -, htick⟩ :=
    timer_lists_well_linked _ _ _ hl ⟨trivial, trivial, trivial⟩
  exact ⟨lists, hlinked, hremove, htick⟩

end Novaio
