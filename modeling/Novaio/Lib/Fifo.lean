import Novaio.Lib.Path

/-!
# Bounded first-in first-out queues

The abstract queue of at most `capacity` values: a value is put in at the end and taken out at the
front, a full queue refuses, and an empty queue has nothing to take. In every run from the empty
queue, the values put in are those taken out followed by those still in the queue
(`enqueued_eq`).
-/

namespace Fifo

open Transition

variable {α : Type*}

/-- What a caller sees of the queue. -/
inductive Op (α : Type*) where
  | enqueue (item : α)
  | refuse
  | dequeue (item : α)
  | empty

/-- A step of the queue, from its values to its values. -/
def step (capacity : ℕ) (l : List α) (op : Op α) (l' : List α) : Prop :=
  match op with
  | .enqueue item => l.length < capacity ∧ l' = l ++ [item]
  | .refuse => l.length = capacity ∧ l' = l
  | .dequeue item => l = item :: l'
  | .empty => l = [] ∧ l' = l

/-- The value put in by a step, if any. -/
def Op.enqueued : Op α → Option α
  | enqueue item => some item
  | refuse | dequeue _ | empty => none

/-- The value taken out by a step, if any. -/
def Op.dequeued : Op α → Option α
  | dequeue item => some item
  | enqueue _ | refuse | empty => none

/-- Values come out in the order in which they went in, none lost and none twice. -/
theorem enqueued_eq {capacity : ℕ} {l : List α} {m : List (Op α × List α)}
    (hm : Path (step capacity) l m) :
    l ++ (m.map Prod.fst).filterMap Op.enqueued =
      (m.map Prod.fst).filterMap Op.dequeued ++ last l m := by
  induction m generalizing l with
  | nil => simp [last]
  | cons x m ih =>
    obtain ⟨op, l'⟩ := x
    obtain ⟨hx, hm⟩ := hm
    have hrest := ih hm
    rw [List.map_cons, last]
    cases op with
    | enqueue item =>
      obtain ⟨-, rfl⟩ := hx
      rw [List.filterMap_cons_some (by rfl), List.filterMap_cons_none (by rfl), ← hrest,
        List.append_assoc]
      rfl
    | dequeue item =>
      obtain rfl := hx
      rw [List.filterMap_cons_none (by rfl), List.filterMap_cons_some (by rfl), List.cons_append,
        List.cons_append, hrest]
    | refuse =>
      obtain ⟨-, rfl⟩ := hx
      exact hrest
    | empty =>
      obtain ⟨-, rfl⟩ := hx
      exact hrest

/-- The queue never holds more than its capacity. -/
theorem length_le {capacity : ℕ} {l : List α} {m : List (Op α × List α)}
    (hm : Path (step capacity) l m) (hl : l.length ≤ capacity) : (last l m).length ≤ capacity := by
  refine (hm.invariant (I := fun l => l.length ≤ capacity) ?_ hl).2
  intro l op l' hle hstep
  cases op with
  | enqueue item =>
    obtain ⟨hlt, rfl⟩ := hstep
    rw [List.length_append, List.length_singleton]
    exact hlt
  | dequeue item =>
    obtain rfl := hstep
    exact Nat.le_of_succ_le hle
  | refuse => exact hstep.2 ▸ hle
  | empty => exact hstep.2 ▸ hle

end Fifo
