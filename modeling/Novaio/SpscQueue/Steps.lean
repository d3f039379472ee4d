import Novaio.Lib.Path
import Novaio.SpscQueue.Basic

/-!
# The atomic steps of a queue

The threads that call `SpscQueue::push` and the thread that calls `SpscQueue::pop` take their atomic
loads, atomic stores and accesses to a slot in any order. Nothing in `push` keeps two threads apart.

`Consistent` is what the queue relies on: at most one thread is between the write of its value and
its store to the tail, and it is at the tail. A write that is in turn (`InTurn`) keeps it
(`consistent_step`). Consumption alone then leads to a queue that is drained (`exists_drain`).
-/

namespace Novaio

open Transition

/-- Where a thread is in `push`: before it, after the load of the tail, after the load of the head
and the test, or after the write to the slot. -/
inductive PushPc (α : Type*) where
  | idle
  | tailLoaded (tail : UInt64) (item : α)
  | admitted (tail : UInt64) (item : α)
  | constructed (tail : UInt64) (item : α)

/-- Where the consumer is in `pop`: before it, after the load of the head, after the load of the
tail and the test, after the move, after the destruction of the slot's object, or after the
return. -/
inductive PopPc (α : Type*) where
  | idle
  | headLoaded (head : UInt64)
  | nonempty (head : UInt64)
  | movedOut (head : UInt64) (item : α)
  | destroyed (head : UInt64) (item : α)
  | returned (item : α)

/-- The value is written, and the tail is not stored yet. -/
def PushPc.Constructed {α : Type*} : PushPc α → Prop
  | constructed _ _ => True
  | idle | tailLoaded _ _ | admitted _ _ => False

/-- The number of slots in use whose value is taken. -/
def PopPc.taken {α : Type*} : PopPc α → ℕ
  | movedOut _ _ | destroyed _ _ => 1
  | idle | headLoaded _ | nonempty _ | returned _ => 0

/-- The value that is taken and not yet used by the caller of `pop`. -/
def PopPc.inHand {α : Type*} : PopPc α → List α
  | movedOut _ item | destroyed _ item | returned item => [item]
  | idle | headLoaded _ | nonempty _ => []

/-- A queue, the threads that push to it and the one that pops. `accepted` lists the values for
which `push` has returned true, and `consumed` those that the caller of `pop` has used. -/
structure Channel (ι α : Type*) where
  queue : SpscQueue α
  pushPc : ι → PushPc α
  popPc : PopPc α
  accepted : List α
  consumed : List α

/-- A step: the call of `push` with the load of the tail, the next step of a call of `push`, or the
next step of the consumer, which calls `pop` again and again. -/
inductive ChannelOp (ι α : Type*) where
  | push (thread : ι) (item : α)
  | pushNext (thread : ι)
  | popNext

namespace Channel

variable {ι α : Type*}

/-- A queue as constructed, and no thread at work. -/
def new : Channel ι α := ⟨.new, fun _ => .idle, .idle, [], []⟩

/-- The thread is at a place in `push`. -/
def pushAt [DecidableEq ι] (c : Channel ι α) (i : ι) (pc : PushPc α) : Channel ι α :=
  { c with pushPc := Function.update c.pushPc i pc }

/-- What a step does. A pop of a slot without a value is undefined, and no step. -/
def step [DecidableEq ι] (c : Channel ι α) : ChannelOp ι α → Option (Channel ι α)
  | .push i item =>
    match c.pushPc i with
    | .idle => some (c.pushAt i (.tailLoaded c.queue.tail item))
    | _ => none
  | .pushNext i =>
    match c.pushPc i with
    | .idle => none
    | .tailLoaded tail item =>
      -- The head is loaded and the test is made, on the tail that was loaded before.
      some (c.pushAt i (if c.queue.Full tail c.queue.head then .idle else .admitted tail item))
    | .admitted tail item =>
      some { c.pushAt i (.constructed tail item) with queue := c.queue.setSlot tail (.live item) }
    | .constructed tail item =>
      -- The tail that is stored is the one that was loaded, whatever it is now.
      some { c.pushAt i .idle with
        queue := c.queue.storeTail (tail + 1)
        accepted := c.accepted ++ [item] }
  | .popNext =>
    match c.popPc with
    | .idle => some { c with popPc := .headLoaded c.queue.head }
    | .headLoaded head =>
      -- The tail is loaded and compared.
      some { c with popPc := if head = c.queue.tail then .idle else .nonempty head }
    | .nonempty head =>
      match c.queue.slot head with
      | .live item =>
        some { c with queue := c.queue.setSlot head .moved, popPc := .movedOut head item }
      | _ => none
    | .movedOut head item =>
      some { c with queue := c.queue.setSlot head .raw, popPc := .destroyed head item }
    | .destroyed head item =>
      some { c with queue := c.queue.storeHead (head + 1), popPc := .returned item }
    | .returned item => some { c with popPc := .idle, consumed := c.consumed ++ [item] }

/-- The consumer has nothing in hand, and the queue is empty. -/
def Drained (c : Channel ι α) : Prop := c.popPc.inHand = [] ∧ c.queue.head = c.queue.tail

/-- A write to a slot is in turn where the tail is as the thread loaded it, no other thread has
written its value without having stored the tail, and there is room. -/
def InTurn (c : Channel ι α) : ChannelOp ι α → Prop
  | .pushNext i =>
    match c.pushPc i with
    | .admitted tail _ =>
      tail = c.queue.tail ∧ (∀ j ≠ i, ¬ (c.pushPc j).Constructed) ∧
        ¬ c.queue.Full tail c.queue.head
    | _ => True
  | .push _ _ | .popNext => True

end Channel

/-- A step of the threads. -/
def channelStep {ι α : Type*} [DecidableEq ι] (c : Channel ι α) (op : ChannelOp ι α)
    (c' : Channel ι α) : Prop :=
  c.step op = some c'

namespace Channel

variable {ι α : Type*}

/-- What the consumer has read agrees with the queue, which it alone advances at the head. -/
def Reads (c : Channel ι α) (items : List α) : Prop :=
  match c.popPc with
  | .headLoaded head | .movedOut head _ | .destroyed head _ => head = c.queue.head
  | .nonempty head => head = c.queue.head ∧ items ≠ []
  | .idle | .returned _ => True

/-- The queue holds `items`, each thread that has written its value is the only one and is at the
tail, and nothing that was accepted is lost or used twice. -/
structure Consistent (c : Channel ι α) (items : List α) : Prop where
  holds : c.queue.Holds c.popPc.taken items
  reads : c.Reads items
  written : ∀ i tail item, c.pushPc i = .constructed tail item →
    tail = c.queue.tail ∧ c.popPc.taken + items.length < c.queue.capacity ∧
      c.queue.slot tail = .live item
  alone : ∀ i j, (c.pushPc i).Constructed → (c.pushPc j).Constructed → i = j
  accepted_eq : c.accepted = c.consumed ++ c.popPc.inHand ++ items

variable {c c' : Channel ι α} {items : List α}

/-- The start is consistent. -/
theorem new_consistent : (new : Channel ι α).Consistent [] where
  holds := SpscQueue.new_holds
  reads := trivial
  written _ _ _ h := nomatch h
  alone _ _ h := h.elim
  accepted_eq := rfl

/-- A consistent queue is drained when it holds nothing and nothing is in hand. -/
theorem Consistent.drained_iff (h : c.Consistent items) :
    c.Drained ↔ c.popPc.inHand = [] ∧ items = [] := by
  unfold Drained
  rw [h.holds.head_eq_tail_iff]
  constructor
  · rintro ⟨hin, hz⟩
    exact ⟨hin, List.length_eq_zero_iff.mp (by omega)⟩
  · rintro ⟨hin, rfl⟩
    refine ⟨hin, ?_⟩
    cases hpc : c.popPc <;> simp_all [PopPc.inHand, PopPc.taken]

section

variable [DecidableEq ι]

/-- The producer is at its new place. -/
@[simp]
theorem pushAt_self (c : Channel ι α) (i : ι) (pc : PushPc α) :
    (c.pushAt i pc).pushPc i = pc := by
  simp [Channel.pushAt]

/-- A thread that goes to a place where its value is not written. -/
theorem Consistent.pushAt (h : c.Consistent items) (i : ι) {pc : PushPc α}
    (hpc : ¬ pc.Constructed) : (c.pushAt i pc).Consistent items := by
  have hother : ∀ j, ((c.pushAt i pc).pushPc j).Constructed →
      (c.pushAt i pc).pushPc j = c.pushPc j := by
    intro j hj
    apply Function.update_of_ne
    rintro rfl
    exact hpc (by simpa [Channel.pushAt] using hj)
  refine ⟨h.holds, h.reads, ?_, ?_, h.accepted_eq⟩
  · intro j tail item hj
    have hc := hother j (by rw [hj]; trivial)
    exact h.written j tail item (hc ▸ hj)
  · intro j k hj hk
    exact h.alone j k (hother j hj ▸ hj) (hother k hk ▸ hk)

/-- A write in turn. -/
theorem Consistent.construct (h : c.Consistent items) {i : ι} {item : α}
    (hothers : ∀ j ≠ i, ¬ (c.pushPc j).Constructed)
    (hfull : ¬ c.queue.Full c.queue.tail c.queue.head) :
    Consistent { c.pushAt i (.constructed c.queue.tail item) with
      queue := c.queue.setSlot c.queue.tail (.live item) } items := by
  have hroom : c.popPc.taken + items.length < c.queue.capacity := by
    have := h.holds.size_le
    have := mt h.holds.full_iff.mpr hfull
    omega
  have hone : ∀ j, (Function.update c.pushPc i (.constructed c.queue.tail item) j).Constructed →
      j = i := by
    intro j hj
    by_contra hne
    rw [Function.update_of_ne hne] at hj
    exact hothers j hne hj
  refine ⟨h.holds.setSlot_tail hroom _, h.reads, ?_, ?_, h.accepted_eq⟩
  · intro j tail item' hj
    obtain rfl := hone j (by
      show (PushPc.Constructed _)
      rw [show Function.update c.pushPc i _ j = _ from hj]
      trivial)
    obtain ⟨rfl, rfl⟩ : c.queue.tail = tail ∧ item = item' := by
      simpa [Channel.pushAt] using hj
    exact ⟨rfl, hroom, SpscQueue.slot_setSlot_self _ _ _⟩
  · intro j k hj hk
    rw [hone j hj, hone k hk]

/-- A store to the tail. -/
theorem Consistent.storeTail (h : c.Consistent items) {i : ι} {tail : UInt64} {item : α}
    (hi : c.pushPc i = .constructed tail item) :
    Consistent { c.pushAt i .idle with
      queue := c.queue.storeTail (tail + 1)
      accepted := c.accepted ++ [item] } (items ++ [item]) := by
  obtain ⟨rfl, hroom, hslot⟩ := h.written i tail item hi
  have hnone : ∀ j, ¬ (Function.update c.pushPc i .idle j).Constructed := by
    intro j hj
    rcases eq_or_ne j i with rfl | hne
    · rw [Function.update_self] at hj
      exact hj
    · rw [Function.update_of_ne hne] at hj
      exact hne (h.alone j i hj (by rw [hi]; trivial))
  refine ⟨h.holds.storeTail hroom hslot, ?_, ?_, ?_, ?_⟩
  · have hr := h.reads
    unfold Reads at hr ⊢
    dsimp only [Channel.pushAt]
    cases hpc : c.popPc <;> simp only [hpc] at hr ⊢ <;> simp_all [SpscQueue.storeTail]
  · intro j t x hj
    exact absurd (by rw [show Function.update c.pushPc i .idle j = _ from hj]; trivial) (hnone j)
  · intro j k hj
    exact absurd hj (hnone j)
  · show c.accepted ++ [item] = c.consumed ++ c.popPc.inHand ++ (items ++ [item])
    rw [h.accepted_eq, List.append_assoc]

end

/-- The move out of the slot of the head. -/
theorem Consistent.moveOut {item : α} (h : c.Consistent (item :: items))
    (hpc : c.popPc = .nonempty c.queue.head) :
    Consistent { c with
      queue := c.queue.setSlot c.queue.head .moved
      popPc := .movedOut c.queue.head item } items := by
  have htaken : c.popPc.taken = 0 := by rw [hpc]; rfl
  have hholds := h.holds
  rw [htaken] at hholds
  refine ⟨hholds.take.setSlot_head _, rfl, ?_, h.alone, ?_⟩
  · intro j tail x hj
    obtain ⟨rfl, hroom, hslot⟩ := h.written j tail x hj
    rw [htaken, List.length_cons] at hroom
    have hsize := hholds.size_eq
    rw [List.length_cons] at hsize
    refine ⟨rfl, show 1 + items.length < c.queue.capacity by omega, ?_⟩
    rw [← hslot]
    exact SpscQueue.slot_setSlot_head_tail _ _ (by omega) (by omega)
  · rw [h.accepted_eq, hpc]
    simp [PopPc.inHand]

/-- The destruction of the object in the slot of the head. -/
theorem Consistent.destroy {item : α} (h : c.Consistent items)
    (hpc : c.popPc = .movedOut c.queue.head item) :
    Consistent { c with
      queue := c.queue.setSlot c.queue.head .raw
      popPc := .destroyed c.queue.head item } items := by
  have htaken : c.popPc.taken = 1 := by rw [hpc]; rfl
  have hholds := h.holds
  rw [htaken] at hholds
  refine ⟨hholds.setSlot_head _, rfl, ?_, h.alone, ?_⟩
  · intro j tail x hj
    obtain ⟨rfl, hroom, hslot⟩ := h.written j tail x hj
    rw [htaken] at hroom
    have hsize := hholds.size_eq
    refine ⟨rfl, hroom, ?_⟩
    rw [← hslot]
    exact SpscQueue.slot_setSlot_head_tail _ _ (by omega) (by omega)
  · rw [h.accepted_eq, hpc]
    rfl

/-- The store to the head. -/
theorem Consistent.storeHead {item : α} (h : c.Consistent items)
    (hpc : c.popPc = .destroyed c.queue.head item) :
    Consistent { c with
      queue := c.queue.storeHead (c.queue.head + 1)
      popPc := .returned item } items := by
  have htaken : c.popPc.taken = 1 := by rw [hpc]; rfl
  have hholds := h.holds
  rw [htaken] at hholds
  refine ⟨hholds.storeHead, trivial, ?_, h.alone, ?_⟩
  · intro j tail x hj
    obtain ⟨rfl, hroom, hslot⟩ := h.written j tail x hj
    rw [htaken] at hroom
    exact ⟨rfl, show 0 + items.length < c.queue.capacity by omega, hslot⟩
  · rw [h.accepted_eq, hpc]
    rfl

/-- The use of the value that `pop` returned. -/
theorem Consistent.consume {item : α} (h : c.Consistent items) (hpc : c.popPc = .returned item) :
    Consistent { c with popPc := .idle, consumed := c.consumed ++ [item] } items := by
  have htaken : c.popPc.taken = 0 := by rw [hpc]; rfl
  refine ⟨?_, trivial, ?_, h.alone, ?_⟩
  · have hholds := h.holds
    rw [htaken] at hholds
    exact hholds
  · intro j tail x hj
    have hw := h.written j tail x hj
    rw [htaken] at hw
    exact hw
  · rw [h.accepted_eq, hpc]
    simp [PopPc.inHand]

/-- The consumer goes to a place where it has taken no value. -/
theorem Consistent.popAt {pc : PopPc α} (h : c.Consistent items) (htaken : c.popPc.taken = 0)
    (hin : c.popPc.inHand = []) (htaken' : pc.taken = 0) (hin' : pc.inHand = [])
    (hreads : Reads { c with popPc := pc } items) :
    Consistent { c with popPc := pc } items := by
  refine ⟨?_, hreads, ?_, h.alone, ?_⟩
  · show c.queue.Holds pc.taken items
    rw [htaken', ← htaken]
    exact h.holds
  · intro j tail x hj
    have hw := h.written j tail x hj
    rw [htaken] at hw
    exact ⟨hw.1, htaken'.symm ▸ hw.2.1, hw.2.2⟩
  · show c.accepted = c.consumed ++ pc.inHand ++ items
    rw [hin', ← hin]
    exact h.accepted_eq

/-- The test for an empty queue, on the head and the tail. -/
theorem Consistent.loadTail (h : c.Consistent items) (hpc : c.popPc = .headLoaded c.queue.head) :
    Consistent { c with
      popPc := if c.queue.head = c.queue.tail then .idle else .nonempty c.queue.head } items := by
  have hempty := h.holds.head_eq_tail_iff
  rw [hpc] at hempty
  by_cases he : c.queue.head = c.queue.tail
  · rw [if_pos he]
    exact h.popAt (by rw [hpc]; rfl) (by rw [hpc]; rfl) rfl rfl trivial
  · rw [if_neg he]
    refine h.popAt (by rw [hpc]; rfl) (by rw [hpc]; rfl) rfl rfl ⟨rfl, ?_⟩
    rintro rfl
    exact he (hempty.mpr rfl)

/-- How many steps the consumer takes to drain what there is, and a few more. -/
def toDrain (c : Channel ι α) (items : List α) : ℕ :=
  7 * items.length +
    match c.popPc with
    | .nonempty _ => 0
    | .headLoaded _ => 1
    | .idle => 2
    | .returned _ => 3
    | .destroyed _ _ => 4
    | .movedOut _ _ => 5

/-- The consumer always has a step, which keeps the queue consistent and, unless the queue is
drained, leaves fewer steps to take. -/
theorem Consistent.popNext [DecidableEq ι] (h : c.Consistent items) :
    ∃ c' items', c.step .popNext = some c' ∧ c'.Consistent items' ∧ c'.accepted = c.accepted ∧
      (¬ c.Drained → c'.toDrain items' < c.toDrain items) := by
  have hreads := h.reads
  unfold Reads at hreads
  cases hpc : c.popPc with
  | idle =>
    refine ⟨{ c with popPc := .headLoaded c.queue.head }, items, by simp only [step, hpc], ?_, rfl,
      fun _ => by simp [toDrain, hpc]⟩
    exact h.popAt (by rw [hpc]; rfl) (by rw [hpc]; rfl) rfl rfl rfl
  | headLoaded head =>
    simp only [hpc] at hreads
    subst hreads
    refine ⟨_, items, by simp only [step, hpc], h.loadTail hpc, rfl, ?_⟩
    · intro hnot
      -- A queue that is not drained has a value to take.
      have he : c.queue.head ≠ c.queue.tail := fun he => hnot ⟨by rw [hpc]; rfl, he⟩
      simp [toDrain, hpc, he]
  | nonempty head =>
    simp only [hpc] at hreads
    obtain ⟨rfl, hne⟩ := hreads
    obtain ⟨item, rest, rfl⟩ := List.exists_cons_of_ne_nil hne
    have hholds := h.holds
    rw [hpc] at hholds
    refine ⟨_, rest, ?_, h.moveOut hpc, rfl, fun _ => ?_⟩
    · simp only [step, hpc, hholds.slot_head]
    · simp only [toDrain, hpc, List.length_cons]
      omega
  | movedOut head item =>
    simp only [hpc] at hreads
    subst hreads
    exact ⟨_, items, by simp only [step, hpc], h.destroy hpc, rfl, fun _ => by simp [toDrain, hpc]⟩
  | destroyed head item =>
    simp only [hpc] at hreads
    subst hreads
    exact ⟨_, items, by simp only [step, hpc], h.storeHead hpc, rfl,
      fun _ => by simp [toDrain, hpc]⟩
  | returned item =>
    exact ⟨_, items, by simp only [step, hpc], h.consume hpc, rfl, fun _ => by simp [toDrain, hpc]⟩

section

variable [DecidableEq ι]

/-- A step keeps the queue consistent, unless it is a write that is not in turn. -/
theorem consistent_step {op : ChannelOp ι α} (h : ∃ items, c.Consistent items)
    (hturn : c.InTurn op) (hstep : channelStep c op c') : ∃ items, c'.Consistent items := by
  obtain ⟨items, h⟩ := h
  unfold channelStep at hstep
  cases op with
  | push i item =>
    cases hpc : c.pushPc i with
    | idle =>
      simp only [step, hpc, Option.some.injEq] at hstep
      subst hstep
      exact ⟨items, h.pushAt i id⟩
    | tailLoaded tail x | admitted tail x | constructed tail x => simp [step, hpc] at hstep
  | pushNext i =>
    cases hpc : c.pushPc i with
    | idle => simp [step, hpc] at hstep
    | tailLoaded tail item =>
      simp only [step, hpc, Option.some.injEq] at hstep
      subst hstep
      refine ⟨items, h.pushAt i ?_⟩
      split_ifs <;> exact id
    | admitted tail item =>
      simp only [InTurn, hpc] at hturn
      simp only [step, hpc, Option.some.injEq] at hstep
      obtain ⟨rfl, hothers, hfull⟩ := hturn
      subst hstep
      exact ⟨items, h.construct hothers hfull⟩
    | constructed tail item =>
      simp only [step, hpc, Option.some.injEq] at hstep
      subst hstep
      exact ⟨items ++ [item], h.storeTail hpc⟩
  | popNext =>
    obtain ⟨d, items', hd, hc, -, -⟩ := h.popNext
    obtain rfl := Option.some.inj (hd.symm.trans hstep)
    exact ⟨items', hc⟩

/-- A run whose writes are all in turn keeps the queue consistent. -/
theorem consistent_run {l : List (ChannelOp ι α × Channel ι α)} (h : ∃ items, c.Consistent items)
    (hl : Path channelStep c l) (hturn : Meets InTurn c l) :
    ∀ x ∈ l, ∃ items, x.2.Consistent items :=
  (hl.invariant_of_meets (C := InTurn) (I := fun d => ∃ items, d.Consistent items)
    (fun _ _ _ => consistent_step) h hturn).1

/-- The consumer alone drains a consistent queue. -/
theorem exists_drain (h : c.Consistent items) :
    ∃ l, Path channelStep c l ∧ (∀ x ∈ l, x.1 = .popNext) ∧ (last c l).Drained ∧
      (∃ items', (last c l).Consistent items') ∧ (last c l).accepted = c.accepted := by
  induction hn : c.toDrain items using Nat.strongRecOn generalizing c items with
  | ind n ih =>
    by_cases hd : c.Drained
    · exact ⟨[], trivial, by simp, hd, ⟨items, h⟩, rfl⟩
    · obtain ⟨d, items', hstep, hc, hacc, hlt⟩ := h.popNext
      obtain ⟨l, hl, hpop, hdrained, hlast, hacc'⟩ := ih _ (hn ▸ hlt hd) hc rfl
      exact ⟨(.popNext, d) :: l, ⟨hstep, hl⟩, by simpa using hpop, hdrained, hlast,
        hacc'.trans hacc⟩

end

end Channel

end Novaio
