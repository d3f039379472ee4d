import Novaio.Lib.Fifo
import Novaio.SpscQueue.Steps

/-!
# One producer

With a single thread that pushes, `SpscQueue` refines the bounded first-in first-out queue. A value
is put in by the store to the tail and taken out by the store to the head. A push refuses at its
load of the head, and a pop finds the queue empty at its load of the tail. Neither waits for the
other (`Promises`).

`Single` adds to `Consistent` what the producer has read, and that every slot other than those in
use is raw memory.
-/

namespace Novaio

open Transition

/-- The value that is taken out of its slot, while the head is not stored yet. -/
def PopPc.held {α : Type*} : PopPc α → List α
  | movedOut _ item | destroyed _ item => [item]
  | idle | headLoaded _ | nonempty _ | returned _ => []

namespace Channel

variable {α : Type*}

/-- The queue of a capacity as constructed, and no thread at work. -/
def ofCapacity {ι : Type*} (capacity : ℕ) (hpow : ∃ k, capacity = 2 ^ k)
    (hle : capacity ≤ 2 ^ 63) : Channel ι α :=
  ⟨.ofCapacity capacity hpow hle, fun _ => .idle, .idle, [], []⟩

/-- The values that `pop` has returned. -/
def popped {ι : Type*} (c : Channel ι α) : List α :=
  c.consumed ++
    match c.popPc with
    | .returned item => [item]
    | _ => []

/-- The values accepted that `pop` has not taken out. -/
def stored {ι : Type*} (c : Channel ι α) : List α := c.accepted.drop c.popped.length

/-- What the bounded queue sees of a step, by where it leads. A push that is back after the test has
returned false, and one that is back after the store to the tail has returned true. A pop that is
back after the test has found nothing, and the store to the head leads to the value returned. -/
def outcome {ι : Type*} (c : Channel ι α) : ChannelOp ι α → Channel ι α → Option (Fifo.Op α)
  | .push _ _, _ => none
  | .pushNext i, c' =>
    match c.pushPc i, c'.pushPc i with
    | .tailLoaded _ _, .idle => some .refuse
    | .constructed _ item, .idle => some (.enqueue item)
    | _, _ => none
  | .popNext, c' =>
    match c.popPc, c'.popPc with
    | .headLoaded _, .idle => some .empty
    | .destroyed _ _, .returned item => some (.dequeue item)
    | _, _ => none

/-- What the bounded queue sees of a step that is taken. -/
def event {ι : Type*} [DecidableEq ι] (c : Channel ι α) (op : ChannelOp ι α) :
    Option (Fifo.Op α) := (c.step op).bind (c.outcome op)

/-- It is the outcome of the step. -/
theorem event_eq {ι : Type*} [DecidableEq ι] {c c' : Channel ι α} {op : ChannelOp ι α}
    (hstep : channelStep c op c') : c.event op = c.outcome op c' := by
  rw [event, show c.step op = some c' from hstep, Option.bind_some]

/-- The value whose object a step of `pop` destroys. -/
def destroys {ι : Type*} (c : Channel ι α) : ChannelOp ι α → Option α
  | .popNext =>
    match c.popPc with
    | .movedOut _ item => some item
    | _ => none
  | .push _ _ | .pushNext _ => none

/-- The values whose objects `pop` has destroyed. -/
def destroyed {ι : Type*} (c : Channel ι α) : List α :=
  c.popped ++
    match c.popPc with
    | .destroyed _ item => [item]
    | _ => []

/-- No call of `push` or `pop` is in progress. -/
def Quiet {ι : Type*} (c : Channel ι α) : Prop := (∀ i, c.pushPc i = .idle) ∧ c.popPc = .idle

/-- What the producer has read agrees with the queue, and a slot that is not in use is raw. -/
structure Single (c : Channel Unit α) (items : List α) : Prop where
  consistent : c.Consistent items
  loaded : ∀ tail item, c.pushPc () = .tailLoaded tail item → tail = c.queue.tail
  admitted : ∀ tail item, c.pushPc () = .admitted tail item →
    tail = c.queue.tail ∧ c.popPc.taken + items.length < c.queue.capacity
  placed : ∀ j, c.queue.buffer j ≠ .raw →
    (∃ i < items.length, (c.queue.head.toNat + c.popPc.taken + i) % c.queue.capacity = j) ∨
    ((c.pushPc ()).Constructed ∧ c.queue.tail.toNat % c.queue.capacity = j) ∨
    c.popPc.taken = 1 ∧ c.queue.head.toNat % c.queue.capacity = j ∧
      ∃ head item, c.popPc = .movedOut head item
  moved : ∀ head item, c.popPc = .movedOut head item → c.queue.slot c.queue.head = .moved

variable {c c' : Channel Unit α} {items : List α}

/-- The start of a single producer. -/
theorem ofCapacity_single (capacity : ℕ) (hpow : ∃ k, capacity = 2 ^ k) (hle : capacity ≤ 2 ^ 63) :
    (ofCapacity capacity hpow hle : Channel Unit α).Single [] where
  consistent :=
    { holds := SpscQueue.ofCapacity_holds capacity hpow hle
      reads := trivial
      written := fun _ _ _ h => nomatch h
      alone := fun _ _ h => h.elim
      accepted_eq := rfl }
  loaded _ _ h := nomatch h
  admitted _ _ h := nomatch h
  placed _ h := absurd rfl h
  moved _ _ h := nomatch h

/-- What is stored is what is held in hand and what the queue holds. -/
theorem Consistent.stored_eq {ι : Type*} {c : Channel ι α} (h : c.Consistent items) :
    c.stored = c.popPc.held ++ items := by
  have hacc : c.accepted = c.popped ++ (c.popPc.held ++ items) := by
    rw [h.accepted_eq]
    unfold popped
    cases c.popPc <;> simp [PopPc.inHand, PopPc.held]
  unfold stored
  rw [hacc, List.drop_left]

/-- What is held in hand is counted by the slots taken. -/
theorem length_held (pc : PopPc α) : pc.held.length = pc.taken := by
  cases pc <;> rfl

/-- A producer that has passed the test is at the tail, and there still is room. -/
theorem Single.not_full (h : c.Single items) {tail : UInt64} {item : α}
    (hpc : c.pushPc () = .admitted tail item) :
    tail = c.queue.tail ∧ ¬ c.queue.Full c.queue.tail c.queue.head := by
  obtain ⟨rfl, hroom⟩ := h.admitted tail item hpc
  refine ⟨rfl, fun hfull => ?_⟩
  have := h.consistent.holds.full_iff.mp hfull
  omega

/-- The slot at which the producer is about to construct is raw. -/
theorem Single.slot_tail_raw (h : c.Single items)
    (hroom : c.popPc.taken + items.length < c.queue.capacity)
    (hpc : ¬ (c.pushPc ()).Constructed) : c.queue.slot c.queue.tail = .raw := by
  have hsize := h.consistent.holds.size_eq
  have htail := c.queue.slot_tail
  by_contra hne
  unfold SpscQueue.slot at hne
  rw [SpscQueue.and_mask, ← htail, hsize] at hne
  rcases h.placed _ hne with ⟨i, hi, hj⟩ | ⟨hc, -⟩ | ⟨ht, hj, -⟩
  · rw [Nat.add_assoc] at hj
    have := Ring.slot_injective (by omega) hroom hj
    omega
  · exact hpc hc
  · have hj' : (c.queue.head.toNat + 0) % c.queue.capacity =
        (c.queue.head.toNat + (c.popPc.taken + items.length)) % c.queue.capacity := by
      rw [Nat.add_zero]
      exact hj
    have := Ring.slot_injective (by omega) hroom hj'
    omega

/-! ## The steps of the producer -/

/-- The producer goes between two places where it has not written. -/
theorem Single.pushAt (h : c.Single items) {pc : PushPc α} (hold : ¬ (c.pushPc ()).Constructed)
    (hpc : ¬ pc.Constructed)
    (hloaded : ∀ tail item, pc = .tailLoaded tail item → tail = c.queue.tail)
    (hadmitted : ∀ tail item, pc = .admitted tail item →
      tail = c.queue.tail ∧ c.popPc.taken + items.length < c.queue.capacity) :
    (c.pushAt () pc).Single items := by
  have hself : (c.pushAt () pc).pushPc () = pc := pushAt_self _ _ _
  refine ⟨h.consistent.pushAt () hpc, by rwa [hself], by rwa [hself], fun j hj => ?_, h.moved⟩
  rcases h.placed j hj with hin | ⟨hc, -⟩ | hmoved
  · exact .inl hin
  · exact absurd hc hold
  · exact .inr (.inr hmoved)

/-- The producer writes its value. -/
theorem Single.construct (h : c.Single items) {tail : UInt64} {item : α}
    (hpc : c.pushPc () = .admitted tail item) :
    Single { c.pushAt () (.constructed tail item) with
      queue := c.queue.setSlot tail (.live item) } items := by
  obtain ⟨rfl, hfull⟩ := h.not_full hpc
  have hself : (c.pushAt () (.constructed c.queue.tail item)).pushPc () =
      .constructed c.queue.tail item := pushAt_self _ _ _
  refine ⟨h.consistent.construct (fun _ hj => absurd rfl hj) hfull, ?_, ?_, fun j hj => ?_, ?_⟩
  · intro tail x hx
    rw [hself] at hx
    simp at hx
  · intro tail x hx
    rw [hself] at hx
    simp at hx
  · rcases eq_or_ne j (c.queue.tail.toNat % c.queue.capacity) with rfl | hne
    · exact .inr (.inl ⟨by rw [hself]; trivial, rfl⟩)
    · -- Another slot has what it had.
      have hbuf : (c.queue.setSlot c.queue.tail (.live item)).buffer j = c.queue.buffer j := by
        apply Function.update_of_ne
        rwa [SpscQueue.and_mask]
      rw [show (c.queue.setSlot c.queue.tail (.live item)).buffer j ≠ .raw ↔ _ from by rw [hbuf]]
        at hj
      rcases h.placed j hj with hin | ⟨hc, -⟩ | hmoved
      · exact .inl hin
      · rw [hpc] at hc
        exact hc.elim
      · exact .inr (.inr hmoved)
  · intro head x hx
    have hx' : c.popPc = .movedOut head x := hx
    -- The slot of the head is another one, as there is room.
    have hsize := h.consistent.holds.size_eq
    have hroom := (h.admitted _ item hpc).2
    rw [hx', show (PopPc.movedOut head x).taken = 1 from rfl] at hsize hroom
    exact (SpscQueue.slot_setSlot_tail_head _ _ (by omega) (by omega)).trans (h.moved head x hx')

/-- The producer stores the tail. -/
theorem Single.storeTail (h : c.Single items) {tail : UInt64} {item : α}
    (hpc : c.pushPc () = .constructed tail item) :
    Single { c.pushAt () .idle with
      queue := c.queue.storeTail (tail + 1)
      accepted := c.accepted ++ [item] } (items ++ [item]) := by
  have hself : (c.pushAt () .idle).pushPc () = .idle := pushAt_self _ _ _
  refine ⟨h.consistent.storeTail hpc, ?_, ?_, fun j hj => ?_, h.moved⟩
  · intro t x hx
    rw [hself] at hx
    simp at hx
  · intro t x hx
    rw [hself] at hx
    simp at hx
  · rcases h.placed j hj with ⟨i, hi, hin⟩ | ⟨-, hj'⟩ | hmoved
    · refine .inl ⟨i, ?_, hin⟩
      rw [List.length_append]
      omega
    · refine .inl ⟨items.length, by simp, ?_⟩
      rw [← hj', ← c.queue.slot_tail, h.consistent.holds.size_eq]
      show (c.queue.head.toNat + c.popPc.taken + items.length) % c.queue.capacity = _
      rw [Nat.add_assoc]
    · exact .inr (.inr hmoved)

/-! ## The steps of the consumer -/

/-- The consumer goes between two places where it has taken no value. -/
theorem Single.popAt (h : c.Single items) {pc : PopPc α}
    (hc : Consistent { c with popPc := pc } items)
    (htaken : c.popPc.taken = 0) (htaken' : pc.taken = 0) :
    Single { c with popPc := pc } items := by
  refine ⟨hc, h.loaded, ?_, fun j hj => ?_, ?_⟩
  · intro t x hx
    have ha := h.admitted t x hx
    rw [htaken] at ha
    rwa [htaken']
  · rcases h.placed j hj with hin | hc | ⟨ht, -⟩
    · rw [htaken] at hin
      left
      rwa [htaken']
    · exact .inr (.inl hc)
    · omega
  · rintro head x rfl
    simp [PopPc.taken] at htaken'

/-- The consumer moves the first value out of its slot. -/
theorem Single.moveOut {item : α} (h : c.Single (item :: items))
    (hpc : c.popPc = .nonempty c.queue.head) :
    Single { c with
      queue := c.queue.setSlot c.queue.head .moved
      popPc := .movedOut c.queue.head item } items := by
  have htaken : c.popPc.taken = 0 := by rw [hpc]; rfl
  refine ⟨h.consistent.moveOut hpc, h.loaded, ?_, fun j hj => ?_,
    fun _ _ _ => SpscQueue.slot_setSlot_self _ _ _⟩
  · intro t x hx
    have ha := h.admitted t x hx
    rw [htaken, List.length_cons] at ha
    exact ⟨ha.1, show 1 + items.length < c.queue.capacity by omega⟩
  · rcases eq_or_ne (c.queue.head.toNat % c.queue.capacity) j with heq | hne
    · exact .inr (.inr ⟨rfl, heq, _, item, rfl⟩)
    · have hbuf : (c.queue.setSlot c.queue.head .moved).buffer j = c.queue.buffer j := by
        apply Function.update_of_ne
        rw [SpscQueue.and_mask]
        exact hne.symm
      rcases h.placed j (hbuf ▸ hj) with ⟨i, hi, hin⟩ | hc | ⟨ht, -⟩
      · -- The first position is the one taken.
        rw [htaken, Nat.add_zero] at hin
        obtain ⟨k, rfl⟩ : ∃ k, i = k + 1 := by
          refine ⟨i - 1, ?_⟩
          have : i ≠ 0 := by
            rintro rfl
            exact hne hin
          omega
        rw [List.length_cons] at hi
        refine .inl ⟨k, by omega, ?_⟩
        rw [← hin]
        show (c.queue.head.toNat + 1 + k) % c.queue.capacity = _
        congr 1
        omega
      · exact .inr (.inl hc)
      · omega

/-- The consumer destroys the object in the slot. -/
theorem Single.destroy {item : α} (h : c.Single items)
    (hpc : c.popPc = .movedOut c.queue.head item) :
    Single { c with
      queue := c.queue.setSlot c.queue.head .raw
      popPc := .destroyed c.queue.head item } items := by
  have htaken : c.popPc.taken = 1 := by rw [hpc]; rfl
  refine ⟨h.consistent.destroy hpc, h.loaded, ?_, fun j hj => ?_, fun _ _ hx => nomatch hx⟩
  · intro t x hx
    have ha := h.admitted t x hx
    rw [htaken] at ha
    exact ha
  · rcases eq_or_ne (c.queue.head.toNat % c.queue.capacity) j with rfl | hne
    · refine absurd ?_ hj
      have := SpscQueue.slot_setSlot_self c.queue c.queue.head .raw
      unfold SpscQueue.slot at this
      rwa [SpscQueue.and_mask] at this
    · have hbuf : (c.queue.setSlot c.queue.head .raw).buffer j = c.queue.buffer j := by
        apply Function.update_of_ne
        rw [SpscQueue.and_mask]
        exact hne.symm
      rcases h.placed j (hbuf ▸ hj) with hin | hc | ⟨-, hj', -⟩
      · rw [htaken] at hin
        exact .inl hin
      · exact .inr (.inl hc)
      · exact absurd hj' hne

/-- The consumer stores the head. -/
theorem Single.storeHead {item : α} (h : c.Single items)
    (hpc : c.popPc = .destroyed c.queue.head item) :
    Single { c with
      queue := c.queue.storeHead (c.queue.head + 1)
      popPc := .returned item } items := by
  have htaken : c.popPc.taken = 1 := by rw [hpc]; rfl
  refine ⟨h.consistent.storeHead hpc, h.loaded, ?_, fun j hj => ?_, fun _ _ hx => nomatch hx⟩
  · intro t x hx
    have ha := h.admitted t x hx
    rw [htaken] at ha
    exact ⟨ha.1, show 0 + items.length < c.queue.capacity by omega⟩
  · rcases h.placed j hj with ⟨i, hi, hin⟩ | hc | ⟨-, -, head, x, hx⟩
    · refine .inl ⟨i, hi, ?_⟩
      rw [htaken] at hin
      rw [← hin]
      show ((c.queue.head + 1).toNat + 0 + i) % c.queue.capacity = _
      calc ((c.queue.head + 1).toNat + 0 + i) % c.queue.capacity
          = ((c.queue.head.toNat + 1) % 2 ^ 64 + i) % c.queue.capacity := by
            rw [UInt64.toNat_add, UInt64.toNat_one, Nat.add_zero]
        _ = (c.queue.head.toNat + 1 + i) % c.queue.capacity := by
            rw [Nat.add_mod, Nat.mod_mod_of_dvd _ c.queue.capacity_dvd, ← Nat.add_mod]
    · exact .inr (.inl hc)
    · rw [hpc] at hx
      simp at hx

/-- The consumer's caller uses the value. -/
theorem Single.consume {item : α} (h : c.Single items) (hpc : c.popPc = .returned item) :
    Single { c with popPc := .idle, consumed := c.consumed ++ [item] } items := by
  have htaken : c.popPc.taken = 0 := by rw [hpc]; rfl
  refine ⟨h.consistent.consume hpc, h.loaded, ?_, fun j hj => ?_, fun _ _ hx => nomatch hx⟩
  · intro t x hx
    have ha := h.admitted t x hx
    rw [htaken] at ha
    exact ha
  · rcases h.placed j hj with hin | hc | ⟨ht, -⟩
    · rw [htaken] at hin
      exact .inl hin
    · exact .inr (.inl hc)
    · omega

/-! ## The refinement -/

/-- The queue of the capacity, with a single producer, stores `l`. -/
def Stores (capacity : ℕ) (c : Channel Unit α) (l : List α) : Prop :=
  c.queue.capacity = capacity ∧ ∃ items, c.Single items ∧ l = c.popPc.held ++ items

/-- A step of the producer refines a step of the bounded queue. -/
theorem pushNext_refines (h : c.Single items) (hstep : channelStep c (.pushNext ()) c') :
    ∃ l', Stores c.queue.capacity c' l' ∧
      StutterStep (Fifo.step c.queue.capacity) (c.popPc.held ++ items) (c.event (.pushNext ()))
        l' := by
  have hlen := length_held c.popPc
  rw [event_eq hstep]
  unfold channelStep at hstep
  cases hpc : c.pushPc () with
  | idle => simp [step, hpc] at hstep
  | tailLoaded tail item =>
    obtain rfl := h.loaded tail item hpc
    -- The test on the counters loaded is a test on the queue, and refuses the value or not.
    have hfull := h.consistent.holds.full_iff
    have hle := h.consistent.holds.size_le
    have hstored : (c.popPc.held ++ items).length = c.popPc.taken + items.length := by
      rw [List.length_append, hlen]
    have hnot : ¬ (c.pushPc ()).Constructed := by
      rw [hpc]
      exact id
    simp only [step, hpc, Option.some.injEq] at hstep
    subst hstep
    by_cases hf : c.queue.Full c.queue.tail c.queue.head
    · rw [if_pos hf]
      have houtcome : c.outcome (.pushNext ()) (c.pushAt () .idle) = some .refuse := by
        simp [outcome, hpc]
      rw [houtcome]
      refine ⟨c.popPc.held ++ items, ⟨rfl, items, h.pushAt hnot id (fun _ _ hx => ?_)
        (fun _ _ hx => ?_), rfl⟩, hstored.trans (hfull.mp hf), rfl⟩
      · simp at hx
      · simp at hx
    · rw [if_neg hf]
      have houtcome : c.outcome (.pushNext ()) (c.pushAt () (.admitted c.queue.tail item)) =
          none := by simp [outcome, hpc]
      rw [houtcome]
      refine ⟨c.popPc.held ++ items, ⟨rfl, items, h.pushAt hnot id (fun _ _ hx => ?_)
        (fun _ _ hx => ?_), rfl⟩, rfl⟩
      · simp at hx
      · obtain ⟨rfl, -⟩ := PushPc.admitted.inj hx
        have := mt hfull.mpr hf
        exact ⟨rfl, by omega⟩
  | admitted tail item =>
    have houtcome := fun d : Channel Unit α => show c.outcome (.pushNext ()) d = none by
      simp [outcome, hpc]
    simp only [step, hpc, Option.some.injEq] at hstep
    subst hstep
    rw [houtcome]
    exact ⟨_, ⟨rfl, items, h.construct hpc, rfl⟩, rfl⟩
  | constructed tail item =>
    obtain ⟨-, hroom, -⟩ := h.consistent.written () tail item hpc
    simp only [step, hpc, Option.some.injEq] at hstep
    have houtcome : c.outcome (.pushNext ()) c' = some (.enqueue item) := by
      rw [← hstep]
      simp [outcome, hpc, Channel.pushAt]
    rw [houtcome]
    subst hstep
    refine ⟨_, ⟨rfl, _, h.storeTail hpc, rfl⟩, ?_, (List.append_assoc _ _ _).symm⟩
    rw [List.length_append, hlen]
    exact hroom

/-- A step of the consumer refines a step of the bounded queue. -/
theorem popNext_refines (h : c.Single items) (hstep : channelStep c .popNext c') :
    ∃ l', Stores c.queue.capacity c' l' ∧
      StutterStep (Fifo.step c.queue.capacity) (c.popPc.held ++ items) (c.event .popNext) l' := by
  have hreads := h.consistent.reads
  have hholds := h.consistent.holds
  rw [event_eq hstep]
  unfold Reads at hreads
  unfold channelStep at hstep
  cases hpc : c.popPc with
  | idle =>
    have houtcome : c.outcome .popNext c' = none := by simp [outcome, hpc]
    rw [houtcome]
    simp only [step, hpc, Option.some.injEq] at hstep
    subst hstep
    refine ⟨items, ⟨rfl, items, h.popAt ?_ (by rw [hpc]; rfl) rfl, rfl⟩, rfl⟩
    exact h.consistent.popAt (by rw [hpc]; rfl) (by rw [hpc]; rfl) rfl rfl rfl
  | headLoaded head =>
    simp only [hpc] at hreads hholds
    subst hreads
    have hempty := hholds.head_eq_tail_iff
    simp only [step, hpc, Option.some.injEq] at hstep
    subst hstep
    refine ⟨items, ⟨rfl, items, h.popAt (h.consistent.loadTail hpc) (by rw [hpc]; rfl) ?_, ?_⟩, ?_⟩
    · split_ifs <;> rfl
    · dsimp only
      split_ifs <;> rfl
    · by_cases he : c.queue.head = c.queue.tail
      · have hzero := hempty.mp he
        simp only [outcome, hpc, if_pos he]
        exact ⟨List.length_eq_zero_iff.mp (show items.length = 0 by omega), rfl⟩
      · simp only [outcome, hpc, if_neg he]
        rfl
  | nonempty head =>
    have houtcome : c.outcome .popNext c' = none := by simp [outcome, hpc]
    rw [houtcome]
    simp only [hpc] at hreads hholds
    obtain ⟨rfl, hne⟩ := hreads
    obtain ⟨item, rest, rfl⟩ := List.exists_cons_of_ne_nil hne
    simp only [step, hpc, hholds.slot_head, Option.some.injEq] at hstep
    subst hstep
    exact ⟨_, ⟨rfl, rest, h.moveOut hpc, rfl⟩, rfl⟩
  | movedOut head item =>
    have houtcome : c.outcome .popNext c' = none := by simp [outcome, hpc]
    rw [houtcome]
    simp only [hpc] at hreads
    subst hreads
    simp only [step, hpc, Option.some.injEq] at hstep
    subst hstep
    exact ⟨_, ⟨rfl, items, h.destroy hpc, rfl⟩, rfl⟩
  | destroyed head item =>
    simp only [hpc] at hreads
    subst hreads
    simp only [step, hpc, Option.some.injEq] at hstep
    have houtcome : c.outcome .popNext c' = some (.dequeue item) := by
      rw [← hstep]
      simp [outcome, hpc]
    rw [houtcome]
    subst hstep
    exact ⟨items, ⟨rfl, items, h.storeHead hpc, rfl⟩, rfl⟩
  | returned item =>
    have houtcome : c.outcome .popNext c' = none := by simp [outcome, hpc]
    rw [houtcome]
    simp only [step, hpc, Option.some.injEq] at hstep
    subst hstep
    exact ⟨items, ⟨rfl, items, h.consume hpc, rfl⟩, rfl⟩

/-- The step lemma: a step refines a step of the bounded queue. -/
theorem step_refines {capacity : ℕ} {op : ChannelOp Unit α} {l : List α} (h : Stores capacity c l)
    (hstep : channelStep c op c') :
    ∃ l', Stores capacity c' l' ∧ StutterStep (Fifo.step capacity) l (c.event op) l' := by
  obtain ⟨rfl, items, hs, rfl⟩ := h
  cases op with
  | push i item =>
    rw [event_eq hstep]
    unfold channelStep at hstep
    cases hpc : c.pushPc () with
    | idle =>
      simp only [step, hpc, Option.some.injEq] at hstep
      subst hstep
      refine ⟨_, ⟨rfl, items, hs.pushAt (by rw [hpc]; exact id) id ?_ ?_, rfl⟩, rfl⟩
      · rintro t x hx
        exact (PushPc.tailLoaded.inj hx).1.symm
      · rintro t x hx
        simp at hx
    | tailLoaded | admitted | constructed => simp [step, hpc] at hstep
  | pushNext i => exact pushNext_refines hs hstep
  | popNext => exact popNext_refines hs hstep

/-- The histories, step by step: the values accepted are those put in, the values popped are those
taken out, and the objects destroyed are those that `pop` destroys. -/
theorem histories_step {ι : Type*} [DecidableEq ι] {c c' : Channel ι α} {op : ChannelOp ι α}
    (hstep : channelStep c op c') :
    c'.accepted = c.accepted ++ ((c.event op).bind Fifo.Op.enqueued).toList ∧
      c'.popped = c.popped ++ ((c.event op).bind Fifo.Op.dequeued).toList ∧
      c'.destroyed = c.destroyed ++ (c.destroys op).toList := by
  rw [event_eq hstep]
  unfold channelStep at hstep
  cases op with
  | push i item =>
    cases hpc : c.pushPc i with
    | idle =>
      simp only [step, hpc, Option.some.injEq] at hstep
      subst hstep
      simp [outcome, destroys, destroyed, popped, Channel.pushAt]
    | tailLoaded | admitted | constructed => simp [step, hpc] at hstep
  | pushNext i =>
    cases hpc : c.pushPc i with
    | idle => simp [step, hpc] at hstep
    | tailLoaded =>
      simp only [step, hpc, Option.some.injEq] at hstep
      subst hstep
      simp only [outcome, destroys, destroyed, popped, Channel.pushAt, hpc]
      split_ifs <;> simp [Fifo.Op.enqueued, Fifo.Op.dequeued]
    | admitted | constructed =>
      simp only [step, hpc, Option.some.injEq] at hstep
      subst hstep
      simp [outcome, destroys, destroyed, popped, Channel.pushAt, hpc, Fifo.Op.enqueued,
        Fifo.Op.dequeued]
  | popNext =>
    cases hpc : c.popPc with
    | headLoaded head =>
      simp only [step, hpc, Option.some.injEq] at hstep
      subst hstep
      simp only [outcome, destroys, destroyed, popped, hpc]
      split_ifs <;> simp [Fifo.Op.enqueued, Fifo.Op.dequeued]
    | nonempty head =>
      simp only [step, hpc] at hstep
      split at hstep
      · obtain rfl := Option.some.inj hstep
        simp [outcome, destroys, destroyed, popped, hpc]
      · simp at hstep
    | idle | movedOut | destroyed | returned =>
      simp only [step, hpc, Option.some.injEq] at hstep
      subst hstep
      simp [outcome, destroys, destroyed, popped, hpc, Fifo.Op.enqueued, Fifo.Op.dequeued]

/-- What `push` promises in a state, by the place of the producer in it: it always has a next step.
At its load of the head it refuses a full queue and no other, it constructs in raw memory, and its
store to the tail accepts the value that it was given. -/
structure PushPromises (capacity : ℕ) (c : Channel Unit α) : Prop where
  begins (item : α) : c.pushPc () = .idle → ∃ c', channelStep c (.push () item) c' ∧
    c'.pushPc () = .tailLoaded c.queue.tail item ∧ c'.accepted = c.accepted
  tests (tail : UInt64) (item : α) : c.pushPc () = .tailLoaded tail item →
    ∃ c', channelStep c (.pushNext ()) c' ∧ c'.accepted = c.accepted ∧
      c'.pushPc () = if c.stored.length = capacity then .idle else .admitted tail item
  constructs (tail : UInt64) (item : α) : c.pushPc () = .admitted tail item →
    c.queue.slot tail = .raw ∧ ∃ c', channelStep c (.pushNext ()) c' ∧
      c'.accepted = c.accepted ∧ c'.pushPc () = .constructed tail item ∧
      c'.queue.slot tail = .live item
  accepts (tail : UInt64) (item : α) : c.pushPc () = .constructed tail item →
    ∃ c', channelStep c (.pushNext ()) c' ∧ c'.pushPc () = .idle ∧
      c'.accepted = c.accepted ++ [item]

/-- What `pop` promises in a state, by the place of the consumer in it: it always has a next step.
At its load of the tail it finds nothing in an empty queue and in no other, it moves the first value
out of its slot, destroys the object that is left, and returns the value. -/
structure PopPromises (c : Channel Unit α) : Prop where
  begins : c.popPc = .idle → ∃ c', channelStep c .popNext c' ∧ c'.popped = c.popped ∧
    c'.popPc = .headLoaded c.queue.head
  tests (head : UInt64) : c.popPc = .headLoaded head → ∃ c', channelStep c .popNext c' ∧
    c'.popped = c.popped ∧ (c.stored = [] → c'.popPc = .idle) ∧
    (c.stored ≠ [] → c'.popPc = .nonempty head)
  moves (head : UInt64) : c.popPc = .nonempty head → ∃ item,
    c.queue.slot head = .live item ∧ c.stored.head? = some item ∧
      ∃ c', channelStep c .popNext c' ∧ c'.popped = c.popped ∧ c'.popPc = .movedOut head item
  destroys (head : UInt64) (item : α) : c.popPc = .movedOut head item →
    c.queue.slot head = .moved ∧ ∃ c', channelStep c .popNext c' ∧ c'.popped = c.popped ∧
      c'.popPc = .destroyed head item ∧ c'.queue.slot head = .raw
  returns (head : UInt64) (item : α) : c.popPc = .destroyed head item →
    ∃ c', channelStep c .popNext c' ∧ c'.popPc = .returned item ∧ c'.popped = c.popped ++ [item]
  ends (item : α) : c.popPc = .returned item → ∃ c', channelStep c .popNext c' ∧
    c'.popped = c.popped ∧ c'.popPc = .idle

/-- What the queue promises in a state, with a single producer. A step of one side leaves the other
where it is, so that a call returns after four steps of its own, or five. Taken alone, a push
accepts its value unless the queue is full, and a pop returns the first value unless there is none.
When no call is in progress, the destructor destroys the objects of the values stored. -/
structure Promises (capacity : ℕ) (c : Channel Unit α) : Prop where
  push : PushPromises capacity c
  pop : PopPromises c
  pushPc_of_pop (c' : Channel Unit α) : channelStep c .popNext c' → c'.pushPc = c.pushPc
  popPc_of_push (op : ChannelOp Unit α) (c' : Channel Unit α) : op ≠ .popNext →
    channelStep c op c' → c'.popPc = c.popPc
  pushes (item : α) : c.pushPc () = .idle → ∃ c', Reachable channelStep c c' ∧
    c'.pushPc () = .idle ∧ c'.popPc = c.popPc ∧
    c'.accepted = c.accepted ++ if c.stored.length = capacity then [] else [item]
  pops : c.popPc = .idle → ∃ c', Reachable channelStep c c' ∧ c'.popPc = .idle ∧
    c'.pushPc = c.pushPc ∧ c'.popped = c.popped ++ c.stored.head?.toList
  destructor : c.Quiet → (c.queue.destroyAll capacity).1 = c.stored.map .live ∧
    (c.queue.destroyAll capacity).2.head = (c.queue.destroyAll capacity).2.tail

/-- The values stored are as many as the slots in use. -/
theorem Single.length_stored (h : c.Single items) :
    c.stored.length = c.popPc.taken + items.length := by
  rw [h.consistent.stored_eq, List.length_append, length_held]

/-- `push` keeps its promises. -/
theorem Single.pushPromises (h : c.Single items) : PushPromises c.queue.capacity c := by
  have hfull : c.queue.Full c.queue.tail c.queue.head ↔ c.stored.length = c.queue.capacity := by
    rw [h.length_stored]
    exact h.consistent.holds.full_iff
  constructor
  case begins =>
    intro item hpc
    refine ⟨c.pushAt () (.tailLoaded c.queue.tail item), ?_, pushAt_self _ _ _, rfl⟩
    simp only [channelStep, step, hpc]
  case tests =>
    intro tail item hpc
    obtain rfl := h.loaded tail item hpc
    refine ⟨c.pushAt () (if c.queue.Full c.queue.tail c.queue.head then .idle
      else .admitted c.queue.tail item), ?_, rfl, ?_⟩
    · simp only [channelStep, step, hpc]
    · rw [pushAt_self]
      exact if_congr hfull rfl rfl
  case constructs =>
    intro tail item hpc
    obtain ⟨rfl, hroom⟩ := h.admitted tail item hpc
    refine ⟨h.slot_tail_raw hroom (by rw [hpc]; exact id),
      { c.pushAt () (.constructed c.queue.tail item) with
        queue := c.queue.setSlot c.queue.tail (.live item) }, ?_, rfl,
      pushAt_self c () (.constructed c.queue.tail item), SpscQueue.slot_setSlot_self _ _ _⟩
    simp only [channelStep, step, hpc]
  case accepts =>
    intro tail item hpc
    refine ⟨{ c.pushAt () .idle with
      queue := c.queue.storeTail (tail + 1)
      accepted := c.accepted ++ [item] }, ?_, pushAt_self c () .idle, rfl⟩
    simp only [channelStep, step, hpc]

/-- `pop` keeps its promises. -/
theorem Single.popPromises (h : c.Single items) : PopPromises c := by
  have hholds := h.consistent.holds
  have hreads := h.consistent.reads
  have hstored := h.consistent.stored_eq
  unfold Reads at hreads
  constructor
  case begins =>
    intro hpc
    refine ⟨{ c with popPc := .headLoaded c.queue.head }, ?_, by simp [popped, hpc], rfl⟩
    simp only [channelStep, step, hpc]
  case tests =>
    intro head hpc
    simp only [hpc] at hreads hholds hstored
    subst hreads
    have hempty : c.queue.head = c.queue.tail ↔ c.stored = [] := by
      rw [hholds.head_eq_tail_iff, hstored]
      simp [PopPc.held, PopPc.taken]
    let pc : PopPc α := if c.queue.head = c.queue.tail then .idle else .nonempty c.queue.head
    refine ⟨{ c with popPc := pc }, ?_, ?_, fun hnil => if_pos (hempty.mpr hnil),
      fun hne => if_neg fun heq => hne (hempty.mp heq)⟩
    · simp only [channelStep, step, hpc, pc]
    · unfold popped
      simp only [hpc, pc]
      split_ifs <;> rfl
  case moves =>
    intro head hpc
    simp only [hpc] at hreads hholds hstored
    obtain ⟨rfl, hne⟩ := hreads
    obtain ⟨item, rest, rfl⟩ := List.exists_cons_of_ne_nil hne
    refine ⟨item, hholds.slot_head, by rw [hstored]; rfl,
      { c with
        queue := c.queue.setSlot c.queue.head .moved
        popPc := .movedOut c.queue.head item }, ?_, by simp [popped, hpc], rfl⟩
    simp only [channelStep, step, hpc, hholds.slot_head]
  case destroys =>
    intro head item hpc
    simp only [hpc] at hreads
    subst hreads
    refine ⟨h.moved _ item hpc,
      { c with
        queue := c.queue.setSlot c.queue.head .raw
        popPc := .destroyed c.queue.head item }, ?_, by simp [popped, hpc], rfl,
      SpscQueue.slot_setSlot_self _ _ _⟩
    simp only [channelStep, step, hpc]
  case returns =>
    intro head item hpc
    refine ⟨{ c with
      queue := c.queue.storeHead (head + 1)
      popPc := .returned item }, ?_, rfl, by simp [popped, hpc]⟩
    simp only [channelStep, step, hpc]
  case ends =>
    intro item hpc
    refine ⟨{ c with popPc := .idle, consumed := c.consumed ++ [item] }, ?_, by simp [popped, hpc],
      rfl⟩
    simp only [channelStep, step, hpc]

/-- A step of `pop` leaves the producer where it is. -/
theorem pop_frame (hstep : channelStep c .popNext c') :
    c'.pushPc = c.pushPc ∧ c'.accepted = c.accepted := by
  unfold channelStep at hstep
  cases hpc : c.popPc with
  | nonempty head =>
    simp only [step, hpc] at hstep
    split at hstep
    · rw [← Option.some.inj hstep]
      exact ⟨rfl, rfl⟩
    · simp at hstep
  | idle | headLoaded | movedOut | destroyed | returned =>
    simp only [step, hpc, Option.some.injEq] at hstep
    rw [← hstep]
    exact ⟨rfl, rfl⟩

/-- A step of `push` leaves the consumer where it is. -/
theorem push_frame {op : ChannelOp Unit α} (hop : op ≠ .popNext) (hstep : channelStep c op c') :
    c'.popPc = c.popPc ∧ c'.popped = c.popped := by
  unfold channelStep at hstep
  cases op with
  | push i item =>
    cases hpc : c.pushPc i <;> simp only [step, hpc, Option.some.injEq, reduceCtorEq] at hstep
    rw [← hstep]
    exact ⟨rfl, rfl⟩
  | pushNext i =>
    cases hpc : c.pushPc i <;> simp only [step, hpc, Option.some.injEq, reduceCtorEq] at hstep <;>
      rw [← hstep] <;> exact ⟨rfl, rfl⟩
  | popNext => exact (hop rfl).elim

/-- A step leads to a state with a single producer. -/
theorem Single.exists_single (h : c.Single items) {op : ChannelOp Unit α}
    (hstep : channelStep c op c') :
    c'.queue.capacity = c.queue.capacity ∧ ∃ items', c'.Single items' := by
  have hstores : Stores c.queue.capacity c _ := ⟨rfl, items, h, rfl⟩
  obtain ⟨l', ⟨hcap, items', hs, -⟩, -⟩ := step_refines hstores hstep
  exact ⟨hcap, items', hs⟩

/-- A push by itself returns, and has accepted its value unless the queue is full. -/
theorem Single.pushes (h : c.Single items) (item : α) (hpc : c.pushPc () = .idle) :
    ∃ c', Reachable channelStep c c' ∧ c'.pushPc () = .idle ∧ c'.popPc = c.popPc ∧
      c'.accepted = c.accepted ++
        if c.stored.length = c.queue.capacity then [] else [item] := by
  obtain ⟨c₁, hstep₁, hpc₁, hacc₁⟩ := h.pushPromises.begins item hpc
  obtain ⟨hcap₁, items₁, h₁⟩ := h.exists_single hstep₁
  obtain ⟨hpop₁, hpopped₁⟩ := push_frame (by simp) hstep₁
  have hstored₁ : c₁.stored = c.stored := by rw [stored, stored, hacc₁, hpopped₁]
  obtain ⟨c₂, hstep₂, hacc₂, hpc₂⟩ := h₁.pushPromises.tests _ item hpc₁
  obtain ⟨hcap₂, items₂, h₂⟩ := h₁.exists_single hstep₂
  obtain ⟨hpop₂, -⟩ := push_frame (by simp) hstep₂
  have hreach₂ : Reachable channelStep c c₂ := ((Reachable.refl _ c).step hstep₁).step hstep₂
  rw [hstored₁, hcap₁] at hpc₂
  by_cases hfull : c.stored.length = c.queue.capacity
  · rw [if_pos hfull] at hpc₂ ⊢
    exact ⟨c₂, hreach₂, hpc₂, hpop₂.trans hpop₁, by rw [hacc₂, hacc₁, List.append_nil]⟩
  · rw [if_neg hfull] at hpc₂ ⊢
    obtain ⟨-, c₃, hstep₃, hacc₃, hpc₃, -⟩ := h₂.pushPromises.constructs _ item hpc₂
    obtain ⟨hcap₃, items₃, h₃⟩ := h₂.exists_single hstep₃
    obtain ⟨hpop₃, -⟩ := push_frame (by simp) hstep₃
    obtain ⟨c₄, hstep₄, hpc₄, hacc₄⟩ := h₃.pushPromises.accepts _ item hpc₃
    obtain ⟨hpop₄, -⟩ := push_frame (by simp) hstep₄
    exact ⟨c₄, (hreach₂.step hstep₃).step hstep₄, hpc₄,
      hpop₄.trans (hpop₃.trans (hpop₂.trans hpop₁)), by rw [hacc₄, hacc₃, hacc₂, hacc₁]⟩

/-- A pop by itself returns the first value, unless there is none. -/
theorem Single.pops (h : c.Single items) (hpc : c.popPc = .idle) :
    ∃ c', Reachable channelStep c c' ∧ c'.popPc = .idle ∧ c'.pushPc = c.pushPc ∧
      c'.popped = c.popped ++ c.stored.head?.toList := by
  obtain ⟨c₁, hstep₁, hpopped₁, hpc₁⟩ := h.popPromises.begins hpc
  obtain ⟨-, items₁, h₁⟩ := h.exists_single hstep₁
  obtain ⟨hpush₁, hacc₁⟩ := pop_frame hstep₁
  have hstored₁ : c₁.stored = c.stored := by rw [stored, stored, hacc₁, hpopped₁]
  obtain ⟨c₂, hstep₂, hpopped₂, hempty, hnonempty⟩ := h₁.popPromises.tests _ hpc₁
  obtain ⟨-, items₂, h₂⟩ := h₁.exists_single hstep₂
  obtain ⟨hpush₂, hacc₂⟩ := pop_frame hstep₂
  have hstored₂ : c₂.stored = c.stored := by rw [stored, hacc₂, hpopped₂, ← stored, hstored₁]
  have hreach₂ : Reachable channelStep c c₂ := ((Reachable.refl _ c).step hstep₁).step hstep₂
  rw [hstored₁] at hempty hnonempty
  by_cases hnil : c.stored = []
  · exact ⟨c₂, hreach₂, hempty hnil, hpush₂.trans hpush₁, by simp [hpopped₂, hpopped₁, hnil]⟩
  · obtain ⟨item, -, hhead, c₃, hstep₃, hpopped₃, hpc₃⟩ :=
      h₂.popPromises.moves _ (hnonempty hnil)
    obtain ⟨-, items₃, h₃⟩ := h₂.exists_single hstep₃
    obtain ⟨-, c₄, hstep₄, hpopped₄, hpc₄, -⟩ := h₃.popPromises.destroys _ item hpc₃
    obtain ⟨-, items₄, h₄⟩ := h₃.exists_single hstep₄
    obtain ⟨c₅, hstep₅, hpc₅, hpopped₅⟩ := h₄.popPromises.returns _ item hpc₄
    obtain ⟨-, items₅, h₅⟩ := h₄.exists_single hstep₅
    obtain ⟨c₆, hstep₆, hpopped₆, hpc₆⟩ := h₅.popPromises.ends item hpc₅
    have hpush : c₆.pushPc = c.pushPc := by
      rw [(pop_frame hstep₆).1, (pop_frame hstep₅).1, (pop_frame hstep₄).1, (pop_frame hstep₃).1,
        hpush₂, hpush₁]
    refine ⟨c₆, (((hreach₂.step hstep₃).step hstep₄).step hstep₅).step hstep₆, hpc₆, hpush, ?_⟩
    rw [hpopped₆, hpopped₅, hpopped₄, hpopped₃, hpopped₂, hpopped₁, ← hstored₂, hhead]
    rfl

/-- A queue with a single producer keeps its promises. -/
theorem Single.promises (h : c.Single items) : Promises c.queue.capacity c where
  push := h.pushPromises
  pop := h.popPromises
  pushPc_of_pop _ hstep := (pop_frame hstep).1
  popPc_of_push _ _ hop hstep := (push_frame hop hstep).1
  pushes := h.pushes
  pops := h.pops
  destructor := by
    -- The destructor runs while nobody is in `pop`.
    rintro ⟨-, hpc⟩
    have hholds := h.consistent.holds
    have hstored := h.consistent.stored_eq
    rw [hpc] at hholds hstored
    rw [hstored]
    exact hholds.destroyAll_eq _ (by have := hholds.size_le; simpa [PopPc.taken] using this)

end Channel

open Channel

/-- In every run of one producer and one consumer on a queue of any capacity, the queue keeps its
promises, and what the run shows of it is a run of the bounded first-in first-out queue: it takes in
the values accepted, gives out the values popped, and ends with the values stored. So the values
popped are the first of those accepted, and there are never more stored than the capacity. Every
value accepted is destroyed once, by a pop in the order of acceptance, or else it is still
stored. -/
theorem spsc_refines_fifo {α : Type*} (capacity : ℕ) (hpow : ∃ k, capacity = 2 ^ k)
    (hle : capacity ≤ 2 ^ 63) (l : List (ChannelOp Unit α × Channel Unit α))
    (hl : Path channelStep (ofCapacity capacity hpow hle) l) :
    let c₀ : Channel Unit α := ofCapacity capacity hpow hle
    let c := last c₀ l
    Promises capacity c ∧
      (∃ m, Path (Fifo.step capacity) [] m ∧ m.map Prod.fst = trace Channel.event c₀ l ∧
        (m.map Prod.fst).filterMap Fifo.Op.enqueued = c.accepted ∧
        (m.map Prod.fst).filterMap Fifo.Op.dequeued = c.popped ∧ last [] m = c.stored) ∧
      c.accepted = c.popped ++ c.stored ∧ c.stored.length ≤ capacity ∧
      (c.Quiet → trace Channel.destroys c₀ l ++ c.stored = c.accepted) := by
  intro c₀ c
  obtain ⟨m, hm, htrace, hcap, items, hs, hlast⟩ := hl.simulation (R := Stores capacity)
    (L := Channel.event) (fun _ _ _ _ h hstep => step_refines h hstep)
    ⟨rfl, [], ofCapacity_single capacity hpow hle, rfl⟩
  have hpromises := hs.promises
  rw [hcap] at hpromises
  -- The abstract queue ends with what is stored.
  have hend : last [] m = c.stored := hlast.trans hs.consistent.stored_eq.symm
  have hin : (m.map Prod.fst).filterMap Fifo.Op.enqueued = c.accepted := by
    have := hl.trace_eq (f := Channel.accepted) fun _ _ _ hstep => (histories_step hstep).1
    rw [htrace, filterMap_trace]
    exact this.symm
  have hout : (m.map Prod.fst).filterMap Fifo.Op.dequeued = c.popped := by
    have := hl.trace_eq (f := Channel.popped) fun _ _ _ hstep => (histories_step hstep).2.1
    rw [htrace, filterMap_trace]
    exact this.symm
  have hacc : c.accepted = c.popped ++ c.stored := by
    have := Fifo.enqueued_eq hm
    rw [← hin, ← hout, ← hend]
    exact this
  have hlen : c.stored.length ≤ capacity := by
    have := Fifo.length_le hm (Nat.zero_le _)
    rw [← hend]
    exact this
  refine ⟨hpromises, ⟨m, hm, htrace, hin, hout, hend⟩, hacc, hlen, fun hquiet => ?_⟩
  -- What has been popped has been destroyed, once the consumer is done with it.
  have hd := hl.trace_eq (f := Channel.destroyed) fun _ _ _ hstep => (histories_step hstep).2.2
  have hp : c.destroyed = c.popped := by
    unfold destroyed
    rw [hquiet.2, List.append_nil]
  have hd' : c.popped = trace Channel.destroys c₀ l := hp.symm.trans hd
  rw [← hd', hacc]

/-- A queue of capacity one: a push, a push that is refused, the pop of the value, and a pop that
finds nothing. -/
theorem spsc_refines_fifo_one :
    ∃ l : List (ChannelOp Unit ℕ × Channel Unit ℕ),
      l.map Prod.fst = [.push () 5, .pushNext (), .pushNext (), .pushNext (), .push () 6,
        .pushNext (), .popNext, .popNext, .popNext, .popNext, .popNext, .popNext, .popNext,
        .popNext] ∧
      Path channelStep (ofCapacity 1 ⟨0, rfl⟩ Nat.one_le_two_pow) l ∧
      trace Channel.event (ofCapacity 1 ⟨0, rfl⟩ Nat.one_le_two_pow) l =
        [.enqueue 5, .refuse, .dequeue 5, .empty] ∧
      (last (ofCapacity 1 ⟨0, rfl⟩ Nat.one_le_two_pow) l).popped = [5] ∧
      (last (ofCapacity 1 ⟨0, rfl⟩ Nat.one_le_two_pow) l).accepted =
        (last (ofCapacity 1 ⟨0, rfl⟩ Nat.one_le_two_pow) l).popped ++
          (last (ofCapacity 1 ⟨0, rfl⟩ Nat.one_le_two_pow) l).stored ∧
      Promises 1 (last (ofCapacity 1 ⟨0, rfl⟩ Nat.one_le_two_pow) l) := by
  have hrun : ∃ l : List (ChannelOp Unit ℕ × Channel Unit ℕ),
      l.map Prod.fst = [.push () 5, .pushNext (), .pushNext (), .pushNext (), .push () 6,
        .pushNext (), .popNext, .popNext, .popNext, .popNext, .popNext, .popNext, .popNext,
        .popNext] ∧
      Path channelStep (ofCapacity 1 ⟨0, rfl⟩ Nat.one_le_two_pow) l ∧
      trace Channel.event (ofCapacity 1 ⟨0, rfl⟩ Nat.one_le_two_pow) l =
        [.enqueue 5, .refuse, .dequeue 5, .empty] ∧
      (last (ofCapacity 1 ⟨0, rfl⟩ Nat.one_le_two_pow) l).popped = [5] := by
    refine ⟨[(_, _), (_, _), (_, _), (_, _), (_, _), (_, _), (_, _), (_, _), (_, _), (_, _), (_, _),
      (_, _), (_, _), (_, _)], rfl, ⟨rfl, rfl, rfl, rfl, rfl, rfl, rfl, rfl, rfl, rfl, rfl, rfl,
      rfl, rfl, trivial⟩, ?_, ?_⟩
    · rfl
    · rfl
  obtain ⟨l, hops, hl, htrace, hpopped⟩ := hrun
  obtain ⟨hpromises, -, hacc, -⟩ := spsc_refines_fifo 1 ⟨0, rfl⟩ Nat.one_le_two_pow l hl
  exact ⟨l, hops, hl, htrace, hpopped, hacc, hpromises⟩

end Novaio
