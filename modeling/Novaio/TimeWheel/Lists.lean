import Novaio.Lib.Chain
import Novaio.TimeWheel.Slots

/-!
# The slots' lists in memory

`Rep w lists rest` says that the wheel's memory represents the lists: each slot's list is linked
both ways from the slot's head, its nodes point back to the slot, and every other node has a null
`head_ptr`. The nodes of `rest` are exempt: they are those that a loop has detached and not come to
yet, whose links are stale.

Each operation has one lemma that says which lists it leads to. `rep_addTimer` and `rep_removeTimer`
are the two list operations, `rep_cascade` follows the loop of `cascade`, and `rep_fireLoop` the
loop of `tick` over the slot that is due.
-/

namespace Novaio

open Linked

namespace TimeWheel

variable {ν η : Type*} [DecidableEq ν] {w w' : TimeWheel ν η} {lists : Slot → List ν}
  {rest : List ν} {n : ν}

/-! ## What the operations write -/

/-- What every operation leaves alone: the expiry and the handle of each node, and the tick. -/
structure Frame (w w' : TimeWheel ν η) : Prop where
  expiresAt : ∀ n, (w'.nodes n).expiresAt = (w.nodes n).expiresAt
  handle : ∀ n, (w'.nodes n).handle = (w.nodes n).handle
  currentTick : w'.currentTick = w.currentTick

/-- The expiries of the nodes. -/
abbrev expiries (w : TimeWheel ν η) : ν → UInt64 := fun n => (w.nodes n).expiresAt

omit [DecidableEq ν] in
/-- No timer gets another expiry. -/
theorem Frame.expiries (h : Frame w w') : w'.expiries = w.expiries := funext h.expiresAt

omit [DecidableEq ν] in
/-- A wheel that does not change leaves the timers alone. -/
theorem Frame.refl (w : TimeWheel ν η) : Frame w w := ⟨fun _ => rfl, fun _ => rfl, rfl⟩

omit [DecidableEq ν] in
/-- What leaves the timers alone composes. -/
theorem Frame.trans {w₁ w₂ w₃ : TimeWheel ν η} (h : Frame w₁ w₂) (h' : Frame w₂ w₃) :
    Frame w₁ w₃ where
  expiresAt n := (h'.expiresAt n).trans (h.expiresAt n)
  handle n := (h'.handle n).trans (h.handle n)
  currentTick := h'.currentTick.trans h.currentTick

/-- The slots have the heads they had. -/
@[simp]
theorem setNode_heads (w : TimeWheel ν η) (n : ν) (f : TimerNode ν η → TimerNode ν η) :
    (w.setNode n f).heads = w.heads := rfl

/-- Nothing is fired. -/
@[simp]
theorem setNode_fired (w : TimeWheel ν η) (n : ν) (f : TimerNode ν η → TimerNode ν η) :
    (w.setNode n f).fired = w.fired := rfl

/-- The tick stays. -/
@[simp]
theorem setNode_currentTick (w : TimeWheel ν η) (n : ν) (f : TimerNode ν η → TimerNode ν η) :
    (w.setNode n f).currentTick = w.currentTick := rfl

/-- The count stays. -/
@[simp]
theorem setNode_activeTimers (w : TimeWheel ν η) (n : ν) (f : TimerNode ν η → TimerNode ν η) :
    (w.setNode n f).activeTimers = w.activeTimers := rfl

/-- The node has changed, and no other one. -/
theorem setNode_nodes (w : TimeWheel ν η) (n m : ν) (f : TimerNode ν η → TimerNode ν η) :
    (w.setNode n f).nodes m = if m = n then f (w.nodes n) else w.nodes m := by
  simp [setNode, Function.update_apply]

/-- The slots have the heads they had. -/
@[simp]
theorem setNodeAt_heads (w : TimeWheel ν η) (p : Option ν) (f : TimerNode ν η → TimerNode ν η) :
    (w.setNodeAt p f).heads = w.heads := by
  cases p <;> rfl

/-- Nothing is fired. -/
@[simp]
theorem setNodeAt_fired (w : TimeWheel ν η) (p : Option ν) (f : TimerNode ν η → TimerNode ν η) :
    (w.setNodeAt p f).fired = w.fired := by
  cases p <;> rfl

/-- The tick stays. -/
@[simp]
theorem setNodeAt_currentTick (w : TimeWheel ν η) (p : Option ν)
    (f : TimerNode ν η → TimerNode ν η) : (w.setNodeAt p f).currentTick = w.currentTick := by
  cases p <;> rfl

/-- The count stays. -/
@[simp]
theorem setNodeAt_activeTimers (w : TimeWheel ν η) (p : Option ν)
    (f : TimerNode ν η → TimerNode ν η) : (w.setNodeAt p f).activeTimers = w.activeTimers := by
  cases p <;> rfl

/-- The node that the pointer leads to has changed, and no other one. -/
theorem setNodeAt_nodes (w : TimeWheel ν η) (p : Option ν) (m : ν)
    (f : TimerNode ν η → TimerNode ν η) :
    (w.setNodeAt p f).nodes m = if p = some m then f (w.nodes m) else w.nodes m := by
  cases p with
  | none => rfl
  | some n =>
    simp only [setNodeAt, setNode_nodes, Option.some.injEq, eq_comm (a := n)]
    split_ifs with h
    · rw [h]
    · rfl

omit [DecidableEq ν] in
/-- The nodes stay. -/
@[simp]
theorem setHead_nodes (w : TimeWheel ν η) (s : Slot) (p : Option ν) :
    (w.setHead s p).nodes = w.nodes := rfl

omit [DecidableEq ν] in
/-- Nothing is fired. -/
@[simp]
theorem setHead_fired (w : TimeWheel ν η) (s : Slot) (p : Option ν) :
    (w.setHead s p).fired = w.fired := rfl

omit [DecidableEq ν] in
/-- The tick stays. -/
@[simp]
theorem setHead_currentTick (w : TimeWheel ν η) (s : Slot) (p : Option ν) :
    (w.setHead s p).currentTick = w.currentTick := rfl

omit [DecidableEq ν] in
/-- The count stays. -/
@[simp]
theorem setHead_activeTimers (w : TimeWheel ν η) (s : Slot) (p : Option ν) :
    (w.setHead s p).activeTimers = w.activeTimers := rfl

omit [DecidableEq ν] in
/-- The slot has its new head, and the others have theirs. -/
@[simp]
theorem setHead_heads (w : TimeWheel ν η) (s : Slot) (p : Option ν) :
    (w.setHead s p).heads = Function.update w.heads s p := rfl

/-- The slot of a node that is armed now. -/
abbrev slotOf (w : TimeWheel ν η) (n : ν) : Slot :=
  slotFor (w.nodes n).expiresAt w.currentTick

/-- The heads, the tick, the count and the calls of `schedule` after `add_timer`. -/
theorem addTimer_heads (w : TimeWheel ν η) (n : ν) :
    (w.addTimer n).heads = Function.update w.heads (w.slotOf n) (some n) ∧
      (w.addTimer n).currentTick = w.currentTick ∧
      (w.addTimer n).activeTimers = w.activeTimers + 1 ∧
      (w.addTimer n).fired = w.fired := by
  simp [addTimer]

/-- The nodes after `add_timer`. -/
theorem addTimer_nodes (w : TimeWheel ν η) (n m : ν) :
    (w.addTimer n).nodes m =
      if m = n then
        { w.nodes n with
          next := w.heads (w.slotOf n), prev := none, headPtr := some (w.slotOf n) }
      else if w.heads (w.slotOf n) = some m then { w.nodes m with prev := some n }
      else w.nodes m := by
  simp only [addTimer, setHead_nodes, setNode_nodes, setNodeAt_nodes, if_true]
  rcases eq_or_ne m n with rfl | hm
  · simp only [if_true]
    split_ifs <;> rfl
  · simp only [hm, if_false]

/-- `add_timer` leaves the timers alone. -/
theorem addTimer_frame (w : TimeWheel ν η) (n : ν) : Frame w (w.addTimer n) where
  expiresAt m := by
    rw [addTimer_nodes]
    split_ifs with h
    · rw [h]
    · rfl
    · rfl
  handle m := by
    rw [addTimer_nodes]
    split_ifs with h
    · rw [h]
    · rfl
    · rfl
  currentTick := (addTimer_heads w n).2.1

/-- The nodes after the links to a node skip it. -/
theorem linkPast_nodes (w : TimeWheel ν η) (n m : ν) (p : Option ν) (s : Option Slot)
    (q : Option ν) :
    (w.linkPast n p s q).nodes m =
      if p = some m then { w.nodes m with next := q } else w.nodes m := by
  cases p with
  | some x => exact setNodeAt_nodes w (some x) m _
  | none =>
    cases s with
    | none => rfl
    | some s =>
      simp only [linkPast, reduceCtorEq, if_false]
      split_ifs <;> rfl

/-- What else changes when the links to a node skip it. -/
theorem linkPast_heads (w : TimeWheel ν η) (n : ν) (p : Option ν) (s : Slot) (q : Option ν) :
    (w.linkPast n p (some s) q).heads =
        (if p = none ∧ w.heads s = some n then Function.update w.heads s q else w.heads) ∧
      (w.linkPast n p (some s) q).currentTick = w.currentTick ∧
      (w.linkPast n p (some s) q).activeTimers = w.activeTimers ∧
      (w.linkPast n p (some s) q).fired = w.fired := by
  cases p with
  | some x => simp [linkPast]
  | none =>
    simp only [linkPast, true_and]
    split_ifs <;> simp

/-- The heads, the tick, the count and the calls of `schedule` after `remove_timer` of a node that
is linked. -/
theorem removeTimer_heads (w : TimeWheel ν η) {n : ν} {s : Slot}
    (hs : (w.nodes n).headPtr = some s) :
    (w.removeTimer n).heads =
        (if (w.nodes n).prev = none ∧ w.heads s = some n then
          Function.update w.heads s (w.nodes n).next
        else w.heads) ∧
      (w.removeTimer n).currentTick = w.currentTick ∧
      (w.removeTimer n).activeTimers = w.activeTimers - 1 ∧
      (w.removeTimer n).fired = w.fired := by
  simp only [removeTimer, hs, Option.isSome_some, if_true, setNode_heads, setNodeAt_heads,
    setNode_currentTick, setNodeAt_currentTick, setNode_activeTimers, setNodeAt_activeTimers,
    setNode_fired, setNodeAt_fired]
  exact linkPast_heads _ n _ s _

/-- The heads and the count after `remove_timer` of a node that is not linked. -/
theorem removeTimer_free (w : TimeWheel ν η) {n : ν} (hs : (w.nodes n).headPtr = none) :
    (w.removeTimer n).heads = w.heads ∧ (w.removeTimer n).activeTimers = w.activeTimers := by
  simp only [removeTimer, hs, Option.isSome_none, Bool.false_eq_true, if_false, setNode_heads,
    setNodeAt_heads, setNode_activeTimers, setNodeAt_activeTimers]
  cases (w.nodes n).prev <;> exact ⟨rfl, rfl⟩

/-- The nodes after `remove_timer`. -/
theorem removeTimer_nodes (w : TimeWheel ν η) (n m : ν) :
    (w.removeTimer n).nodes m =
      if m = n then { w.nodes n with headPtr := none, prev := none, next := none }
      else
        { w.nodes m with
          next := if (w.nodes n).prev = some m then (w.nodes n).next else (w.nodes m).next
          prev := if (w.nodes n).next = some m then (w.nodes n).prev else (w.nodes m).prev } := by
  simp only [removeTimer, setNode_nodes, setNodeAt_nodes, linkPast_nodes, apply_ite TimeWheel.nodes,
    ite_self]
  rcases eq_or_ne m n with rfl | hm
  · split_ifs <;> rfl
  · simp only [hm, if_false]
    split_ifs <;> rfl

/-- `remove_timer` neither moves the tick nor fires anything. -/
theorem removeTimer_currentTick (w : TimeWheel ν η) (n : ν) :
    (w.removeTimer n).currentTick = w.currentTick ∧ (w.removeTimer n).fired = w.fired := by
  cases hs : (w.nodes n).headPtr with
  | some s =>
    obtain ⟨-, htick, -, hfired⟩ := removeTimer_heads w hs
    exact ⟨htick, hfired⟩
  | none =>
    simp only [removeTimer, hs, Option.isSome_none, Bool.false_eq_true, if_false,
      setNode_currentTick, setNodeAt_currentTick, setNode_fired, setNodeAt_fired]
    cases (w.nodes n).prev <;> exact ⟨rfl, rfl⟩

/-- `remove_timer` leaves the timers alone. -/
theorem removeTimer_frame (w : TimeWheel ν η) (n : ν) : Frame w (w.removeTimer n) where
  expiresAt m := by
    rw [removeTimer_nodes]
    rcases eq_or_ne m n with rfl | h
    · rw [if_pos rfl]
    · rw [if_neg h]
  handle m := by
    rw [removeTimer_nodes]
    rcases eq_or_ne m n with rfl | h
    · rw [if_pos rfl]
    · rw [if_neg h]
  currentTick := (removeTimer_currentTick w n).1

/-! ## The representation -/

/-- The memory represents the lists, with the nodes of `rest` detached. -/
structure Rep (w : TimeWheel ν η) (lists : Slot → List ν) (rest : List ν) : Prop where
  chain : ∀ s, Chain (fun n => (w.nodes n).next) (w.heads s) (lists s)
  back : ∀ s, Back (fun n => (w.nodes n).prev) none (lists s)
  headPtr : ∀ s, ∀ n ∈ lists s, (w.nodes n).headPtr = some s
  detached : ∀ n ∈ rest, ¬ InLists lists n
  free : ∀ n, n ∉ rest → ¬ InLists lists n → (w.nodes n).headPtr = none

omit [DecidableEq ν] in
/-- A node is in one list at most. -/
theorem Rep.unique (h : Rep w lists rest) {s t : Slot} (hs : n ∈ lists s) (ht : n ∈ lists t) :
    s = t := by
  have := h.headPtr s n hs
  rw [h.headPtr t n ht] at this
  exact (Option.some.inj this).symm

omit [DecidableEq ν] in
/-- No list has a node twice. -/
theorem Rep.nodup (h : Rep w lists rest) (s : Slot) : (lists s).Nodup := (h.chain s).nodup

omit [DecidableEq ν] in
/-- Exempting a node that is in no list. -/
theorem Rep.expose (h : Rep w lists []) (hn : ¬ InLists lists n) : Rep w lists [n] :=
  { h with
    detached := fun m hm => by rwa [List.mem_singleton.mp hm]
    free := fun m _ hm => h.free m (by simp) hm }

omit [DecidableEq ν] in
/-- The representation depends on the links only. -/
theorem Rep.of_links (h : Rep w lists rest) (hh : w'.heads = w.heads)
    (hl : ∀ n, (w'.nodes n).next = (w.nodes n).next ∧ (w'.nodes n).prev = (w.nodes n).prev ∧
      (w'.nodes n).headPtr = (w.nodes n).headPtr) : Rep w' lists rest where
  chain s := by
    rw [hh]
    exact (h.chain s).congr fun n _ => (hl n).1.symm
  back s := (h.back s).congr fun n _ => (hl n).2.1.symm
  headPtr s n hn := (hl n).2.2.trans (h.headPtr s n hn)
  detached := h.detached
  free n hn hn' := (hl n).2.2.trans (h.free n hn hn')

/-- `add_timer` of a detached node puts it in front of the list of its slot. -/
theorem rep_addTimer (h : Rep w lists (n :: rest)) (hn : n ∉ rest) :
    Rep (w.addTimer n) (place w.expiries w.currentTick lists n) rest := by
  have hout : ¬ InLists lists n := h.detached n List.mem_cons_self
  obtain ⟨hheads, -⟩ := addTimer_heads w n
  have hnext : ∀ m, m ≠ n → ((w.addTimer n).nodes m).next = (w.nodes m).next := by
    intro m hm
    rw [addTimer_nodes, if_neg hm]
    split_ifs <;> rfl
  have hptr : ∀ m, m ≠ n → ((w.addTimer n).nodes m).headPtr = (w.nodes m).headPtr := by
    intro m hm
    rw [addTimer_nodes, if_neg hm]
    split_ifs <;> rfl
  have hprev : ∀ m, m ≠ n → ((w.addTimer n).nodes m).prev =
      if w.heads (w.slotOf n) = some m then some n else (w.nodes m).prev := by
    intro m hm
    rw [addTimer_nodes, if_neg hm]
    split_ifs <;> rfl
  have hself : (w.addTimer n).nodes n =
      { w.nodes n with
        next := w.heads (w.slotOf n), prev := none, headPtr := some (w.slotOf n) } := by
    rw [addTimer_nodes, if_pos rfl]
  have hne : ∀ {s m}, m ∈ lists s → m ≠ n := by
    rintro s m hm rfl
    exact hout ⟨s, hm⟩
  have hhead : ∀ s, w.heads s = (lists s).head? := by
    intro s
    have hc := h.chain s
    cases hl : lists s with
    | nil =>
      rw [hl] at hc
      exact hc
    | cons x l =>
      rw [hl] at hc
      exact hc.1
  set s₀ := w.slotOf n with hs₀
  have hplace : ∀ s, s ≠ s₀ →
      place w.expiries w.currentTick lists n s = lists s :=
    fun s hs => Function.update_of_ne hs _ _
  have hplace₀ : place w.expiries w.currentTick lists n s₀ =
      n :: lists s₀ := Function.update_self _ _ _
  refine ⟨?_, ?_, ?_, ?_, ?_⟩
  · intro s
    rcases eq_or_ne s s₀ with rfl | hs
    · rw [hplace₀, hheads, Function.update_self]
      refine ⟨rfl, ?_⟩
      dsimp only
      rw [hself]
      exact (h.chain s₀).congr fun x hx => (hnext x (hne hx)).symm
    · rw [hplace s hs, hheads, Function.update_of_ne hs]
      exact (h.chain s).congr fun x hx => (hnext x (hne hx)).symm
  · intro s
    rcases eq_or_ne s s₀ with rfl | hs
    · rw [hplace₀]
      refine (h.back s₀).push (h.nodup s₀) (fun hm => hout ⟨s₀, hm⟩) ?_ (by rw [hself])
      intro x hx
      rw [hprev x (hne hx), hhead]
    · rw [hplace s hs]
      apply (h.back s).congr
      intro x hx
      -- The old head of the slot is in no other list.
      rw [hprev x (hne hx), if_neg]
      intro hfirst
      rw [hhead] at hfirst
      exact hs (h.unique hx (List.mem_of_mem_head? hfirst))
  · intro s m hm
    rcases mem_place.mp hm with hm | ⟨rfl, rfl⟩
    · rw [hptr m (hne hm)]
      exact h.headPtr s m hm
    · rw [hself]
  · rintro m hm ⟨s, hs⟩
    rcases mem_place.mp hs with hs | ⟨rfl, -⟩
    · exact h.detached m (List.mem_cons_of_mem _ hm) ⟨s, hs⟩
    · exact hn hm
  · intro m hm hml
    have hmn : m ≠ n := by
      rintro rfl
      exact hml ⟨s₀, mem_place.mpr (.inr ⟨rfl, rfl⟩)⟩
    rw [hptr m hmn]
    refine h.free m (by simp [hmn, hm]) ?_
    rintro ⟨s, hs⟩
    exact hml ⟨s, mem_place.mpr (.inl hs)⟩

/-- `remove_timer` of a linked node takes it out of its list. -/
theorem rep_removeTimer {s : Slot} (h : Rep w lists []) (hn : n ∈ lists s) :
    Rep (w.removeTimer n) (Function.update lists s ((lists s).erase n)) [] := by
  have hptr := h.headPtr s n hn
  obtain ⟨hheads, -⟩ := removeTimer_heads w hptr
  have hself : ((w.removeTimer n).nodes n).headPtr = none := by
    rw [removeTimer_nodes, if_pos rfl]
  have hnext' : ∀ m, m ≠ n → ((w.removeTimer n).nodes m).next =
      if (w.nodes n).prev = some m then (w.nodes n).next else (w.nodes m).next := by
    intro m hm
    rw [removeTimer_nodes, if_neg hm]
  have hprev' : ∀ m, m ≠ n → ((w.removeTimer n).nodes m).prev =
      if (w.nodes n).next = some m then (w.nodes n).prev else (w.nodes m).prev := by
    intro m hm
    rw [removeTimer_nodes, if_neg hm]
  have hptr' : ∀ m, m ≠ n → ((w.removeTimer n).nodes m).headPtr = (w.nodes m).headPtr := by
    intro m hm
    rw [removeTimer_nodes, if_neg hm]
  -- The list is split at the node, and its neighbours are those that the links name.
  obtain ⟨a, b, hab⟩ := List.append_of_mem hn
  have hchain := h.chain s
  have hback := h.back s
  have hd := h.nodup s
  rw [hab] at hchain hback hd
  have hprev : (w.nodes n).prev = a.getLast? := by rw [hback.prev_eq, Option.or_none]
  have hnext : (w.nodes n).next = b.head? := hchain.suffix.2.head
  have hnab : n ∉ a ++ b := (List.nodup_cons.mp (List.nodup_middle.mp hd)).1
  have herase : (lists s).erase n = a ++ b := by
    rw [hab, List.erase_append_right _ (by simp_all), List.erase_cons_head]
  have hmem : ∀ t m, m ∈ Function.update lists s (a ++ b) t ↔ m ∈ lists t ∧ m ≠ n := by
    intro t m
    rcases eq_or_ne t s with rfl | ht
    · rw [Function.update_self, hab]
      constructor
      · intro hm
        exact ⟨by simp only [List.mem_append, List.mem_cons] at hm ⊢; tauto,
          ne_of_mem_of_not_mem hm hnab⟩
      · rintro ⟨hm, hne⟩
        simp only [List.mem_append, List.mem_cons] at hm ⊢
        tauto
    · rw [Function.update_of_ne ht]
      refine ⟨fun hm => ⟨hm, ?_⟩, And.left⟩
      rintro rfl
      exact ht (h.unique hm hn)
  -- No node outside the list is a neighbour.
  have hfar : ∀ t, t ≠ s → ∀ m ∈ lists t,
      (w.nodes n).prev ≠ some m ∧ (w.nodes n).next ≠ some m := by
    intro t ht m hm
    refine ⟨fun e => ht (h.unique hm ?_), fun e => ht (h.unique hm ?_)⟩
    · rw [hprev] at e
      simp [hab, List.mem_of_getLast? e]
    · rw [hnext] at e
      simp [hab, List.mem_of_mem_head? e]
  rw [herase]
  refine ⟨?_, ?_, ?_, by simp, ?_⟩
  · intro t
    rcases eq_or_ne t s with rfl | ht
    · rw [Function.update_self]
      rcases List.eq_nil_or_concat a with rfl | ⟨a, x, rfl⟩
      · rw [hheads, hprev, List.getLast?_nil, if_pos ⟨rfl, hchain.1⟩, Function.update_self]
        apply hchain.2.congr
        intro m hm
        rw [hnext' m (ne_of_mem_of_not_mem hm hnab), hprev]
        rfl
      · rw [List.concat_eq_append] at *
        have hx : (w.nodes n).prev = some x := by rw [hprev, List.getLast?_concat]
        rw [hheads, hx, if_neg (by simp)]
        rw [List.append_assoc, List.singleton_append] at hchain hnab ⊢
        apply hchain.unlink.congr
        intro m hm
        rw [hnext' m (ne_of_mem_of_not_mem hm hnab), hx, Function.update_apply]
        simp only [Option.some.injEq, eq_comm]
    · rw [Function.update_of_ne ht]
      have hhead : (w.removeTimer n).heads t = w.heads t := by
        rw [hheads]
        split_ifs
        · rw [Function.update_of_ne ht]
        · rfl
      rw [hhead]
      apply (h.chain t).congr
      intro m hm
      rw [hnext' m (by rintro rfl; exact ht (h.unique hm hn)), if_neg (hfar t ht m hm).1]
  · intro t
    rcases eq_or_ne t s with rfl | ht
    · rw [Function.update_self]
      apply hback.unlink hd
      intro m hm
      rw [hprev' m (ne_of_mem_of_not_mem hm hnab), hnext]
    · rw [Function.update_of_ne ht]
      apply (h.back t).congr
      intro m hm
      rw [hprev' m (by rintro rfl; exact ht (h.unique hm hn)), if_neg (hfar t ht m hm).2]
  · intro t m hm
    obtain ⟨hm, hne⟩ := (hmem t m).mp hm
    rw [hptr' m hne]
    exact h.headPtr t m hm
  · intro m _ hm
    rcases eq_or_ne m n with rfl | hne
    · exact hself
    · rw [hptr' m hne]
      apply h.free m (by simp)
      rintro ⟨t, ht⟩
      exact hm ⟨t, (hmem t m).mpr ⟨ht, hne⟩⟩

/-! ## The loops over a list -/

omit [DecidableEq ν] in
/-- Clearing a slot detaches the nodes of its list. -/
theorem rep_setHead (h : Rep w lists []) (s : Slot) :
    Rep (w.setHead s none) (Function.update lists s []) (lists s) where
  chain t := by
    rcases eq_or_ne t s with rfl | ht
    · simp
    · simpa [ht] using h.chain t
  back t := by
    rcases eq_or_ne t s with rfl | ht
    · simp [Back]
    · simpa [ht] using h.back t
  headPtr t m hm := by
    rcases eq_or_ne t s with rfl | ht
    · simp at hm
    · exact h.headPtr t m (by simpa [ht] using hm)
  detached m hm := by
    rintro ⟨t, ht⟩
    rcases eq_or_ne t s with rfl | hne
    · simp at ht
    · exact hne (h.unique (by simpa [hne] using ht) hm)
  free m hm hm' := by
    apply h.free m (by simp)
    rintro ⟨t, ht⟩
    rcases eq_or_ne t s with rfl | hne
    · exact hm ht
    · exact hm' ⟨t, by simpa [hne] using ht⟩

/-- Arming a node leaves the links of a list without it. -/
theorem addTimer_chain {p : Option ν} {l : List ν} (hc : Chain (fun m => (w.nodes m).next) p l)
    (hn : n ∉ l) : Chain (fun m => ((w.addTimer n).nodes m).next) p l := by
  apply hc.congr
  intro m hm
  rw [addTimer_nodes, if_neg (ne_of_mem_of_not_mem hm hn)]
  split_ifs <;> rfl

/-- The loop of `cascade` arms every node that it walks, in turn. -/
theorem rep_cascadeLoop {curr : Option ν} (h : Rep w lists rest)
    (hc : Chain (fun n => (w.nodes n).next) curr rest) :
    ∃ w', (∀ fuel, rest.length ≤ fuel → cascadeLoop fuel w curr = some w') ∧
      Rep w' (placeAll w.expiries w.currentTick lists rest) [] ∧ Frame w w' ∧
      w'.fired = w.fired := by
  induction rest generalizing w lists curr with
  | nil =>
    obtain rfl := chain_nil.mp hc
    exact ⟨w, by rintro (_ | fuel) _ <;> rfl, h, .refl w, rfl⟩
  | cons n rest ih =>
    obtain ⟨hn, -⟩ := List.nodup_cons.mp hc.nodup
    obtain ⟨rfl, hc⟩ := hc
    have hframe := addTimer_frame w n
    obtain ⟨w', hw', hrep, hframe', hfired⟩ := ih (rep_addTimer h hn) (addTimer_chain hc hn)
    refine ⟨w', ?_, ?_, hframe.trans hframe', ?_⟩
    · rintro (_ | fuel) hf
      · simp at hf
      · exact hw' fuel (by simpa using hf)
    · rwa [hframe.expiries, hframe.currentTick] at hrep
    · rw [hfired, (addTimer_heads w n).2.2.2]

/-- `cascade` moves the nodes of its slot. -/
theorem rep_cascade (h : Rep w lists []) (tv : Tv) (i : Fin 64) :
    ∃ w', (∀ fuel, (lists (.tvn tv i)).length ≤ fuel → w.cascade fuel tv i = some w') ∧
      Rep w' (cascadeLists w.expiries w.currentTick lists (.tvn tv i)) [] ∧ Frame w w' ∧
      w'.fired = w.fired :=
  have ⟨w', hw', hrep, hframe, hfired⟩ := rep_cascadeLoop (rep_setHead h _) (h.chain _)
  ⟨w', hw', hrep, ⟨hframe.expiresAt, hframe.handle, hframe.currentTick⟩, hfired⟩

/-- A detached node is let go when its `head_ptr` is cleared. -/
theorem rep_clearHeadPtr (h : Rep w lists (n :: rest)) :
    Rep (w.setNode n ({ · with headPtr := none })) lists rest := by
  have hout : ∀ s, ∀ m ∈ lists s, m ≠ n := by
    rintro s m hm rfl
    exact h.detached m List.mem_cons_self ⟨s, hm⟩
  refine ⟨?_, ?_, ?_, fun m hm => h.detached m (List.mem_cons_of_mem _ hm), ?_⟩
  · intro s
    apply (h.chain s).congr
    intro m hm
    rw [setNode_nodes, if_neg (hout s m hm)]
  · intro s
    apply (h.back s).congr
    intro m hm
    rw [setNode_nodes, if_neg (hout s m hm)]
  · intro s m hm
    rw [setNode_nodes, if_neg (hout s m hm)]
    exact h.headPtr s m hm
  · intro m hm hm'
    rw [setNode_nodes]
    split_ifs with hmn
    · rfl
    · exact h.free m (by simp [hmn, hm]) hm'

/-- The loop of `tick` over a slot schedules every node that it walks, in turn, at the current
tick. -/
theorem rep_fireLoop {curr : Option ν} (h : Rep w lists rest)
    (hc : Chain (fun n => (w.nodes n).next) curr rest) :
    ∃ w', (∀ fuel, rest.length ≤ fuel → fireLoop true fuel w curr = some w') ∧
      Rep w' lists [] ∧ Frame w w' ∧
      w'.fired = w.fired ++ rest.map fun n => ⟨n, (w.nodes n).handle, w.currentTick⟩ := by
  induction rest generalizing w curr with
  | nil =>
    obtain rfl := chain_nil.mp hc
    exact ⟨w, by rintro (_ | fuel) _ <;> rfl, h, .refl w, by simp⟩
  | cons n rest ih =>
    obtain ⟨rfl, hc⟩ := hc
    -- The first node of the slot fires.
    set v := w.setNode n ({ · with headPtr := none }) with hv
    set w₁ : TimeWheel ν η :=
      { v with fired := v.fired ++ [⟨n, (v.nodes n).handle, v.currentTick⟩] } with hw₁
    -- Clearing its `head_ptr` leaves what the walk reads.
    have hfields : ∀ m, (v.nodes m).next = (w.nodes m).next ∧
        (v.nodes m).expiresAt = (w.nodes m).expiresAt ∧
        (v.nodes m).handle = (w.nodes m).handle := by
      intro m
      rw [hv, setNode_nodes]
      split_ifs with hm
      · simp [hm]
      · simp
    have hrep : Rep w₁ lists rest := { rep_clearHeadPtr h with }
    have hwalk : Chain (fun m => (w₁.nodes m).next) (w.nodes n).next rest :=
      hc.congr fun m _ => (hfields m).1.symm
    have hframe : Frame w w₁ := ⟨fun m => (hfields m).2.1, fun m => (hfields m).2.2, rfl⟩
    obtain ⟨w', hw', hrep', hframe', hfired⟩ := ih hrep hwalk
    refine ⟨w', ?_, hrep', hframe.trans hframe', ?_⟩
    · rintro (_ | fuel) hf
      · simp at hf
      · rw [fireLoop, if_pos rfl]
        exact hw' fuel (by simpa using hf)
    -- The node fires before those behind it.
    rw [hfired, List.map_cons, List.append_cons]
    congr 1
    · rw [hw₁, ← (hfields n).2.2]
      rfl
    · apply List.map_congr_left
      intro m _
      rw [hframe.handle, hframe.currentTick]

end TimeWheel

end Novaio
