import Mathlib.Data.Nat.Notation
import Mathlib.Logic.Function.Basic

/-!
# The time wheel

`TimeWheel` of `src/time_wheel.cpp` keeps timers in five levels of slots. Each slot is the head of
an intrusive list: the nodes hold the links `next` and `prev`, and `head_ptr` points back to the
slot. A pointer to a node is `none` when it is null, and `nodes` is the memory of the nodes.

The loops over a list take a bound `fuel` on their iterations and return `none` when it does not
suffice. `tick_total` of `Novaio.TimeWheel.Firing` says that it does, for every wheel in use.
-/

namespace Novaio

/-! ## Constants -/

/-- `TVR_BITS`. -/
def tvrBits : UInt64 := 8

/-- `TVN_BITS`. -/
def tvnBits : UInt64 := 6

/-- `TVR_SIZE`. -/
def tvrSize : UInt64 := 256

/-- `TVR_MASK`. -/
def tvrMask : UInt64 := tvrSize - 1

/-- `TVN_MASK`. -/
def tvnMask : UInt64 := 64 - 1

/-! ## Slots and nodes -/

/-- The arrays `tv2_` to `tv5_`, of `TVN_SIZE` slots each. -/
inductive Tv where
  | tv2
  | tv3
  | tv4
  | tv5
  deriving DecidableEq

/-- A slot: an index of `tv1_` or of one of the other arrays. -/
inductive Slot where
  | tv1 (index : Fin 256)
  | tvn (tv : Tv) (index : Fin 64)
  deriving DecidableEq

/-- The index `x & TVR_MASK`. -/
def tvrIndex (x : UInt64) : Fin 256 :=
  ⟨(x &&& tvrMask).toNat, Nat.lt_of_le_of_lt Nat.and_le_right (by decide)⟩

/-- The index `x & TVN_MASK`. -/
def tvnIndex (x : UInt64) : Fin 64 :=
  ⟨(x &&& tvnMask).toNat, Nat.lt_of_le_of_lt Nat.and_le_right (by decide)⟩

/-- `TimerNode`. -/
structure TimerNode (ν η : Type*) where
  expiresAt : UInt64
  handle : η
  next : Option ν := none
  prev : Option ν := none
  headPtr : Option Slot := none

/-- A call of `schedule` made by `tick`: the node that fired, its handle, and `current_tick_` in the
iteration that made the call. -/
structure Firing (ν η : Type*) where
  node : ν
  handle : η
  tick : UInt64

/-- `TimeWheel`: the slots of `tv1_` to `tv5_`, its counters, the memory of the nodes, and the calls
of `schedule` made so far, in order. -/
structure TimeWheel (ν η : Type*) where
  heads : Slot → Option ν
  currentTick : UInt64
  activeTimers : UInt64
  nodes : ν → TimerNode ν η
  fired : List (Firing ν η)

namespace TimeWheel

variable {ν η : Type*} [DecidableEq ν]

/-- An empty wheel, over nodes that are constructed and not linked. -/
def empty (expiresAt : ν → UInt64) (handle : ν → η) : TimeWheel ν η where
  heads _ := none
  currentTick := 0
  activeTimers := 0
  nodes n := { expiresAt := expiresAt n, handle := handle n }
  fired := []

/-- A write to the node `n`. -/
def setNode (w : TimeWheel ν η) (n : ν) (f : TimerNode ν η → TimerNode ν η) : TimeWheel ν η :=
  { w with nodes := Function.update w.nodes n (f (w.nodes n)) }

/-- A write to the node that `p` points to, unless it is null. -/
def setNodeAt (w : TimeWheel ν η) (p : Option ν) (f : TimerNode ν η → TimerNode ν η) :
    TimeWheel ν η :=
  match p with
  | some n => w.setNode n f
  | none => w

/-- A write to the slot `s`. -/
def setHead (w : TimeWheel ν η) (s : Slot) (p : Option ν) : TimeWheel ν η :=
  { w with heads := Function.update w.heads s p }

/-! ## The operations -/

/-- The slot that `add_timer` selects. -/
def slotFor (expires currentTick : UInt64) : Slot :=
  let idx := expires - currentTick
  if idx < tvrSize then .tv1 (tvrIndex expires)
  else if idx < 1 <<< (tvrBits + tvnBits) then .tvn .tv2 (tvnIndex (expires >>> tvrBits))
  else if idx < 1 <<< (tvrBits + 2 * tvnBits) then
    .tvn .tv3 (tvnIndex (expires >>> (tvrBits + tvnBits)))
  else if idx < 1 <<< (tvrBits + 3 * tvnBits) then
    .tvn .tv4 (tvnIndex (expires >>> (tvrBits + 2 * tvnBits)))
  else .tvn .tv5 (tvnIndex (expires >>> (tvrBits + 3 * tvnBits)))

/-- `TimeWheel::add_timer`. -/
def addTimer (w : TimeWheel ν η) (node : ν) : TimeWheel ν η :=
  let w := { w with activeTimers := w.activeTimers + 1 }
  let head := slotFor (w.nodes node).expiresAt w.currentTick
  -- The node is linked in front of the first one of its slot, if there is one.
  let first := w.heads head
  let w := w.setNode node ({ · with next := first })
  let w := w.setNodeAt first ({ · with prev := some node })
  let w := w.setNode node ({ · with prev := none })
  let w := w.setNode node ({ · with headPtr := some head })
  w.setHead head (some node)

/-- The branches of `TimeWheel::remove_timer` on `prev`: what links to the node links to `next`. -/
def linkPast (w : TimeWheel ν η) (node : ν) (prev : Option ν) (headPtr : Option Slot)
    (next : Option ν) : TimeWheel ν η :=
  match prev, headPtr with
  | some p, _ => w.setNode p ({ · with next := next })
  -- The slot is only written if the node is its first one.
  | none, some s => if w.heads s = some node then w.setHead s next else w
  | none, none => w

/-- `TimeWheel::remove_timer`. -/
def removeTimer (w : TimeWheel ν η) (node : ν) : TimeWheel ν η :=
  let next := (w.nodes node).next
  let prev := (w.nodes node).prev
  let headPtr := (w.nodes node).headPtr
  -- Only a node with a `head_ptr` is counted.
  let w := if headPtr.isSome then { w with activeTimers := w.activeTimers - 1 } else w
  let w := w.linkPast node prev headPtr next
  let w := w.setNodeAt next ({ · with prev := prev })
  w.setNode node ({ · with headPtr := none, prev := none, next := none })

/-- The loop of `TimeWheel::cascade`, at the node `curr`. -/
def cascadeLoop : ℕ → TimeWheel ν η → Option ν → Option (TimeWheel ν η)
  | _, w, none => some w
  | 0, _, some _ => none
  | fuel + 1, w, some curr =>
    -- The link is read before `add_timer` overwrites it.
    let next := (w.nodes curr).next
    cascadeLoop fuel (w.addTimer curr) next

/-- `TimeWheel::cascade`. -/
def cascade (fuel : ℕ) (w : TimeWheel ν η) (tv : Tv) (index : Fin 64) :
    Option (TimeWheel ν η) :=
  let curr := w.heads (.tvn tv index)
  cascadeLoop fuel (w.setHead (.tvn tv index) none) curr

/-- The calls of `cascade` that an iteration of `TimeWheel::tick` starts with. -/
def cascades (fuel : ℕ) (w : TimeWheel ν η) : Option (TimeWheel ν η) :=
  let index := tvrIndex w.currentTick
  if index = 0 ∧ 0 < w.currentTick then do
    let i2 := tvnIndex (w.currentTick >>> tvrBits)
    let w ← w.cascade fuel .tv2 i2
    if i2 = 0 then do
      let i3 := tvnIndex (w.currentTick >>> (tvrBits + tvnBits))
      let w ← w.cascade fuel .tv3 i3
      if i3 = 0 then do
        let i4 := tvnIndex (w.currentTick >>> (tvrBits + 2 * tvnBits))
        let w ← w.cascade fuel .tv4 i4
        if i4 = 0 then do
          let i5 := tvnIndex (w.currentTick >>> (tvrBits + 3 * tvnBits))
          w.cascade fuel .tv5 i5
        else some w
      else some w
    else some w
  else some w

/-- The loop of `TimeWheel::tick` over the slot that is due, at the node `curr`. `current` says
whether `Scheduler::current()` is there to schedule the handles. -/
def fireLoop (current : Bool) : ℕ → TimeWheel ν η → Option ν → Option (TimeWheel ν η)
  | _, w, none => some w
  | 0, _, some _ => none
  | fuel + 1, w, some curr =>
    let next := (w.nodes curr).next
    -- The count of active timers and the other links of the node are left as they are.
    let w := w.setNode curr ({ · with headPtr := none })
    let w := if current then
        { w with fired := w.fired ++ [⟨curr, (w.nodes curr).handle, w.currentTick⟩] }
      else w
    fireLoop current fuel w next

/-- An iteration of the outer loop of `TimeWheel::tick`. -/
def tickBody (current : Bool) (fuel : ℕ) (w : TimeWheel ν η) : Option (TimeWheel ν η) := do
  let index := tvrIndex w.currentTick
  let w ← w.cascades fuel
  -- What is due is in the slot by now, where the cascades have put it.
  let curr := w.heads (.tv1 index)
  let w ← fireLoop current fuel (w.setHead (.tv1 index) none) curr
  some { w with currentTick := w.currentTick + 1 }

/-- The outer loop of `TimeWheel::tick`, each inner loop with the bound `walk`. -/
def tickLoop (current : Bool) (walk : ℕ) (time : UInt64) :
    ℕ → TimeWheel ν η → Option (TimeWheel ν η)
  | 0, w => if w.currentTick < time then none else some w
  | fuel + 1, w =>
    if w.currentTick < time then do
      let w ← w.tickBody current walk
      tickLoop current walk time fuel w
    else some w

/-- `TimeWheel::tick`. -/
def tick (current : Bool) (fuel : ℕ) (w : TimeWheel ν η) (time : UInt64) :
    Option (TimeWheel ν η) :=
  w.tickLoop current fuel time fuel

/-- `TimeWheel::next_timeout`. -/
def nextTimeout (w : TimeWheel ν η) (time : UInt64) : UInt64 :=
  if w.activeTimers = 0 then -1
  else
    match (List.range 256).findSome? fun i =>
        w.heads (.tv1 (tvrIndex (w.currentTick + UInt64.ofNat i))) with
    | some n =>
      -- Of the slot that is found, only the first node is read.
      let expires := (w.nodes n).expiresAt
      if expires > time then expires - time else 0
    -- There are timers, but none of `tv1_`.
    | none => 50

end TimeWheel

end Novaio
