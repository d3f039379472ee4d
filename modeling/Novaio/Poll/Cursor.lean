import Mathlib.Data.List.Infix
import Novaio.Lib.Fifo
import Novaio.Poll.Basic

/-!
# What `poll` takes from the queue

The completions pending are those between the place that the loop has come to and the tail, while
the head stays where it was when `poll` was called. So the kernel never writes over an entry that is
pending, and the queue with the loop refines the bounded first-in first-out queue, in which the
kernel puts completions in and the loop takes them out (`Poller.refines_fifo`).

`Poller.Counted` is the invariant: the loop has taken no more entries than it has seen, and its
`advanced` counts those that it has taken since the head was stored.
-/

namespace Novaio

open Transition

/-! ## The completion queue -/

namespace CompletionQueue

/-- The number of entries posted. -/
def ready (q : CompletionQueue) : ℕ := q.before q.ktail

/-- The entries posted, from the `k`-th on. -/
def rest (q : CompletionQueue) (k : ℕ) : List IoUringCqe :=
  Ring.window q.entries q.cqes (q.khead.toNat + k) (q.ready - k)

variable {q q' : CompletionQueue}

/-- Masking is reduction modulo the number of entries. -/
theorem and_mask (q : CompletionQueue) (x : ℕ) : x &&& q.mask = x % q.entries :=
  Ring.and_sub_one q.power_of_two x

/-- The counters wrap at a multiple of the number of entries. -/
theorem entries_dvd (q : CompletionQueue) : q.entries ∣ 2 ^ 32 :=
  Ring.dvd_two_pow q.power_of_two (by have := q.entries_le; omega)

/-- A counter that is ahead of the head. -/
theorem before_add (q : CompletionQueue) (n : UInt32) : q.before (q.khead + n) = n.toNat := by
  unfold before
  rw [UInt32.toNat_add]
  exact Ring.count_add q.khead.toNat_lt n.toNat_lt

/-- A counter is known by how far it is ahead of the head. -/
theorem eq_of_before_eq {tail n : UInt32} (h : q.before tail = n.toNat) : tail = q.khead + n := by
  apply UInt32.toNat_inj.mp
  have hcount := Ring.add_count q.khead.toNat_lt tail.toNat_lt
  rw [← before, h] at hcount
  rw [UInt32.toNat_add, ← hcount]

/-- The entry of a counter that is ahead of the head. -/
theorem entry_add (q : CompletionQueue) (n : UInt32) :
    q.entry (q.khead + n) = q.cqes ((q.khead.toNat + n.toNat) % q.entries) := by
  unfold entry
  rw [and_mask, UInt32.toNat_add, Nat.mod_mod_of_dvd _ q.entries_dvd]

/-- The first of the entries that are left. -/
theorem rest_eq_cons {n : UInt32} (hlt : n.toNat < q.ready) :
    q.rest n.toNat = q.entry (q.khead + n) :: q.rest (n.toNat + 1) := by
  have hsucc : q.ready - n.toNat = q.ready - (n.toNat + 1) + 1 := by omega
  unfold rest
  rw [entry_add, hsucc, Ring.window_succ_left, Nat.add_assoc]

/-- The number of the entries that are left. -/
@[simp]
theorem length_rest (q : CompletionQueue) (k : ℕ) : (q.rest k).length = q.ready - k :=
  Ring.length_window _ _ _ _

/-- What is posted is behind the entries that are left, and what is before a counter stays. -/
theorem post_spec {cqe : IoUringCqe} (h : q.post cqe = some q') :
    q'.entries = q.entries ∧ q'.khead = q.khead ∧ q.ready < q.entries ∧ q'.ready = q.ready + 1 ∧
      ∀ k ≤ q.ready, q'.rest k = q.rest k ++ [cqe] := by
  obtain ⟨hroom, h⟩ := Option.ite_none_right_eq_some.mp h
  obtain rfl := Option.some.inj h
  have hready : q.ready < q.entries := by rwa [UInt32.toNat_sub] at hroom
  have hcap := q.entries_le
  have hsucc : Ring.count (2 ^ 32) q.khead.toNat (q.ktail + 1).toNat = q.ready + 1 := by
    rw [UInt32.toNat_add]
    refine Ring.count_succ_right q.khead.toNat_lt q.ktail.toNat_lt ?_
    show q.ready + 1 < 2 ^ 32
    omega
  refine ⟨rfl, rfl, hready, hsucc, fun k hk => ?_⟩
  -- The slot written is the one that follows the entries that are left.
  have hslot : q.ktail.toNat % q.entries = (q.khead.toNat + k + (q.ready - k)) % q.entries := by
    rw [show q.khead.toNat + k + (q.ready - k) = q.khead.toNat + q.ready by omega]
    exact (Ring.slot_add_count q.entries_dvd q.khead.toNat_lt q.ktail.toNat_lt).symm
  show Ring.window q.entries (Function.update q.cqes (q.ktail.toNat &&& q.mask) cqe)
    (q.khead.toNat + k) (Ring.count (2 ^ 32) q.khead.toNat (q.ktail + 1).toNat - k) = _
  rw [hsucc, and_mask, hslot, show q.ready + 1 - k = q.ready - k + 1 by omega]
  exact Ring.window_push (by omega)

/-- Advancing the head leaves out the entries that it passes. -/
theorem advance_spec {n : UInt32} (hn : n.toNat ≤ q.ready) :
    (q.advance n).ready = q.ready - n.toNat ∧ (q.advance n).rest 0 = q.rest n.toNat := by
  have hlt : q.ready < 2 ^ 32 := Ring.count_lt (by decide)
  have hready : (q.advance n).ready = q.ready - n.toNat := by
    show Ring.count (2 ^ 32) (q.khead + n).toNat q.ktail.toNat = _
    have htail : q.ktail.toNat =
        ((q.khead.toNat + n.toNat) % 2 ^ 32 + (q.ready - n.toNat)) % 2 ^ 32 := by
      rw [Nat.mod_add_mod, show q.khead.toNat + n.toNat + (q.ready - n.toNat) =
        q.khead.toNat + q.ready by omega]
      exact (Ring.add_count q.khead.toNat_lt q.ktail.toNat_lt).symm
    rw [UInt32.toNat_add, htail]
    exact Ring.count_add (Nat.mod_lt _ (by decide)) (by omega)
  refine ⟨hready, ?_⟩
  unfold rest
  rw [hready, Nat.sub_zero, Nat.add_zero]
  show Ring.window q.entries q.cqes (q.khead + n).toNat _ = _
  rw [UInt32.toNat_add, Ring.window_mod q.entries_dvd]

end CompletionQueue

/-! ## The counters of the loop -/

namespace Poller

/-- The number of entries from the head on that the loop has taken. -/
def taken (p : Poller) : ℕ :=
  match p.pc with
  | .outside => 0
  | .loop | .advance => p.advanced.toNat
  | .callback _ _ | .inbox | .task => p.advanced.toNat + 1

/-- The number of entries from the head on that the loop has seen. -/
def seen (p : Poller) : ℕ :=
  match p.pc with
  | .outside => p.cq.ready
  | _ => p.cq.before p.tail

/-- The completions posted and not taken. -/
def pending (p : Poller) : List IoUringCqe := p.cq.rest p.taken

/-- What holds of the counters in every state. -/
structure Counted (p : Poller) : Prop where
  ready_le : p.cq.ready ≤ p.cq.entries
  seen_le : p.seen ≤ p.cq.ready
  taken_le : p.taken ≤ p.seen
  head_eq : p.pc ≠ .outside → p.head = p.cq.khead + p.advanced
  passed : p.pc = .advance → p.taken = p.seen

/-- The completion that a step of the loop takes. -/
def takes (p : Poller) : PollOp → Option IoUringCqe
  | .next reload =>
    match p.pc with
    | .loop => if p.head ≠ p.loadTail reload then some (p.cq.entry p.head) else none
    | _ => none
  | _ => none

end Poller

/-- The completion that a step posts. -/
def PollOp.posted : PollOp → Option IoUringCqe
  | .post cqe => some cqe
  | _ => none

namespace Poller

/-- What the bounded queue sees of a step. -/
def event (p : Poller) (op : PollOp) : Option (Fifo.Op IoUringCqe) :=
  match op.posted with
  | some cqe => some (.enqueue cqe)
  | none => (p.takes op).map .dequeue

/-- The pending completions that the loop has seen. -/
def due (p : Poller) : List IoUringCqe := p.pending.take (p.seen - p.taken)

/-- The counter of the first entry that is pending. -/
def position (p : Poller) : UInt32 := p.cq.khead + UInt32.ofNat p.taken

/-- What a step does to the queue and the counters. -/
structure Moves (p : Poller) (op : PollOp) (p' : Poller) : Prop where
  counted : p'.Counted
  entries_eq : p'.cq.entries = p.cq.entries
  pending_step : StutterStep (Fifo.step p.cq.entries) p.pending (p.event op) p'.pending
  due_prefix : p.due <+: (p.takes op).toList ++ p'.due
  position_eq : p'.position = p.position + UInt32.ofNat (p.takes op).toList.length

variable {p p' : Poller} {op : PollOp}

/-! ### Steps that leave the counters alone -/

/-- A poller whose counters are those of another one. -/
structure SameCounters (p p' : Poller) : Prop where
  cq : p'.cq = p.cq
  tail : p'.tail = p.tail
  taken : p'.taken = p.taken
  head : p.head = p.cq.khead + p.advanced → p'.head = p.cq.khead + p'.advanced
  outside : p'.pc = .outside ↔ p.pc = .outside
  advance : p'.pc = .advance → p.pc = .advance

/-- The entries seen are those before the tail that is loaded. -/
theorem seen_of_ne_outside (hpc : p.pc ≠ .outside) : p.seen = p.cq.before p.tail := by
  unfold seen
  split
  · exact absurd ‹_› hpc
  · rfl

/-- Outside of `poll` all that is posted counts as seen. -/
theorem seen_of_outside (hpc : p.pc = .outside) : p.seen = p.cq.ready := by
  unfold seen
  rw [hpc]

/-- The entries seen depend on the counters alone. -/
theorem SameCounters.seen_eq (h : SameCounters p p') : p'.seen = p.seen := by
  by_cases hpc : p.pc = .outside
  · rw [seen_of_outside hpc, seen_of_outside (h.outside.mpr hpc), h.cq]
  · rw [seen_of_ne_outside hpc, seen_of_ne_outside (mt h.outside.mp hpc), h.cq, h.tail]

/-- A step that neither takes nor posts a completion and leaves the counters alone. -/
theorem Counted.moves_of_same (h : p.Counted) (hsame : SameCounters p p')
    (htakes : p.takes op = none) (hposted : op.posted = none) : Moves p op p' := by
  have hpending : p'.pending = p.pending := by rw [pending, hsame.cq, hsame.taken]; rfl
  constructor
  case counted =>
    constructor
    case ready_le => rw [hsame.cq]; exact h.ready_le
    case seen_le => rw [hsame.seen_eq, hsame.cq]; exact h.seen_le
    case taken_le => rw [hsame.seen_eq, hsame.taken]; exact h.taken_le
    case head_eq =>
      intro hpc
      rw [hsame.cq]
      exact hsame.head (h.head_eq (mt hsame.outside.mpr hpc))
    case passed =>
      intro hpc
      rw [hsame.seen_eq, hsame.taken]
      exact h.passed (hsame.advance hpc)
  case entries_eq => rw [hsame.cq]
  case pending_step =>
    rw [event, hposted, htakes]
    exact hpending
  case due_prefix =>
    rw [htakes, due, due, hpending, hsame.seen_eq, hsame.taken]
    exact List.prefix_rfl
  case position_eq =>
    rw [htakes, position, position, hsame.cq, hsame.taken]
    exact (UInt32.add_zero _).symm

/-- In the code that the loop calls, `advanced` does not count the entry taken last. -/
theorem Counted.advanced_lt (h : p.Counted) (htaken : p.taken = p.advanced.toNat + 1) :
    p.advanced.toNat + 1 < 2 ^ 32 := by
  have hready := h.ready_le
  have hseen := h.seen_le
  have htaken' := h.taken_le
  have hcap := p.cq.entries_le
  omega

/-- One more entry is counted. -/
theorem toNat_advanced_add_one (hlt : p.advanced.toNat + 1 < 2 ^ 32) :
    (p.advanced + 1).toNat = p.advanced.toNat + 1 := by
  rw [UInt32.toNat_add]
  exact Nat.mod_eq_of_lt hlt

/-- The code that the loop calls returns to it. -/
theorem Counted.same_count (h : p.Counted) (htaken : p.taken = p.advanced.toNat + 1)
    (hout : p.pc ≠ .outside) : SameCounters p p.count where
  cq := rfl
  tail := rfl
  taken := (toNat_advanced_add_one (h.advanced_lt htaken)).trans htaken.symm
  head hhead := by
    show p.head + 1 = p.cq.khead + (p.advanced + 1)
    rw [hhead, UInt32.add_assoc]
  outside := iff_of_false nofun hout
  advance := nofun

/-! ### Steps that take a completion -/

/-- A poller that has taken one more entry. -/
structure TookOne (p p' : Poller) : Prop where
  cq : p'.cq = p.cq
  tail : p'.tail = p.tail
  taken : p'.taken = p.advanced.toNat + 1
  head : p.head = p.cq.khead + p.advanced → p'.head = p.cq.khead + p'.advanced
  outside : p'.pc ≠ .outside
  advance : p'.pc ≠ .advance

/-- An entry is taken and counted. -/
theorem TookOne.count {q : Poller} (hlt : p.advanced.toNat + 1 < 2 ^ 32) (hcq : q.cq = p.cq)
    (htail : q.tail = p.tail) (hhead : q.head = p.head) (hadvanced : q.advanced = p.advanced) :
    TookOne p q.count where
  cq := hcq
  tail := htail
  taken := by
    show (q.advanced + 1).toNat = _
    rw [hadvanced]
    exact toNat_advanced_add_one hlt
  head h := by
    show q.head + 1 = p.cq.khead + (q.advanced + 1)
    rw [hhead, hadvanced, h, UInt32.add_assoc]
  outside := nofun
  advance := nofun

/-- The branch for an operation takes one entry. -/
theorem tookOne_complete (hlt : p.advanced.toNat + 1 < 2 ^ 32) (ctx : BitVec 64)
    (result : IoResult) : TookOne p (p.complete ctx result) := by
  unfold complete
  dsimp only
  split_ifs <;> exact .count hlt rfl rfl rfl rfl

/-- The body of the loop takes one entry. -/
theorem tookOne_handle (hlt : p.advanced.toNat + 1 < 2 ^ 32) (cqe : IoUringCqe) :
    TookOne p (p.handle cqe) := by
  unfold handle
  dsimp only
  split_ifs
  · have h := tookOne_complete (p := { p with metrics := p.metrics.recordIoEvent }) hlt
      (cqe.userData &&& ~~~tagMask) cqe.result
    exact ⟨h.cq, h.tail, h.taken, h.head, h.outside, h.advance⟩
  · exact ⟨rfl, rfl, rfl, id, nofun, nofun⟩
  · exact .count hlt rfl rfl rfl rfl
  · exact ⟨rfl, rfl, rfl, id, nofun, nofun⟩
  · exact .count hlt rfl rfl rfl rfl

/-- At the condition of the loop. -/
theorem taken_of_loop (hpc : p.pc = .loop) : p.taken = p.advanced.toNat := by
  unfold taken
  rw [hpc]

/-- The loop has come to the tail that it has loaded if and only if it has taken what it has
seen. -/
theorem Counted.head_eq_tail_iff (h : p.Counted) (hpc : p.pc = .loop) :
    p.head = p.tail ↔ p.taken = p.seen := by
  have hout : p.pc ≠ .outside := by simp [hpc]
  rw [seen_of_ne_outside hout, taken_of_loop hpc, h.head_eq hout]
  constructor
  · intro heq
    rw [← heq, CompletionQueue.before_add]
  · intro heq
    exact (CompletionQueue.eq_of_before_eq heq.symm).symm

/-- The tail is loaded again, or not. -/
theorem Counted.reload (h : p.Counted) (hpc : p.pc = .loop) (reload : Bool) :
    { p with tail := p.loadTail reload }.Counted ∧
      p.seen ≤ { p with tail := p.loadTail reload }.seen := by
  have hout : p.pc ≠ .outside := by simp [hpc]
  cases reload with
  | false => exact ⟨h, le_refl _⟩
  | true =>
    have hseen : { p with tail := p.loadTail true }.seen = p.cq.ready := seen_of_ne_outside hout
    have hle : p.seen ≤ { p with tail := p.loadTail true }.seen := hseen.symm ▸ h.seen_le
    refine ⟨?_, hle⟩
    constructor
    case ready_le => exact h.ready_le
    case seen_le => exact hseen.le
    case taken_le => exact le_trans h.taken_le hle
    case head_eq => exact h.head_eq
    case passed => exact fun hadvance => absurd (hpc.symm.trans hadvance) nofun

/-- Where the tail has been loaded again, the loop ends if and only if nothing is pending. -/
theorem Counted.head_eq_ktail_iff (h : p.Counted) (hpc : p.pc = .loop) :
    p.head = p.loadTail true ↔ p.pending = [] := by
  obtain ⟨hq, -⟩ := h.reload hpc true
  have hiff := hq.head_eq_tail_iff hpc
  have hseen : { p with tail := p.loadTail true }.seen = p.cq.ready :=
    seen_of_ne_outside (by simp [hpc])
  rw [hseen] at hiff
  have hle : p.taken ≤ p.cq.ready := le_trans h.taken_le h.seen_le
  rw [← List.length_eq_zero_iff, pending, CompletionQueue.length_rest]
  refine hiff.trans ?_
  show p.taken = p.cq.ready ↔ p.cq.ready - p.taken = 0
  omega

/-- The loop takes the first of the completions that are pending. -/
theorem Counted.moves_handled (h : p.Counted) (hpc : p.pc = .loop) {reload : Bool}
    (hne : p.head ≠ p.loadTail reload) :
    Moves p (.next reload)
      ({ p with tail := p.loadTail reload }.handle (p.cq.entry p.head)) := by
  obtain ⟨hq, hseen⟩ := h.reload hpc reload
  set q : Poller := { p with tail := p.loadTail reload }
  have hout : p.pc ≠ .outside := by simp [hpc]
  have htaken : q.taken = p.advanced.toNat := taken_of_loop (p := q) hpc
  have htaken' : p.taken = p.advanced.toNat := taken_of_loop hpc
  have htakes : p.takes (.next reload) = some (p.cq.entry p.head) := by simp [takes, hpc, hne]
  have hhead : p.head = p.cq.khead + p.advanced := h.head_eq hout
  -- There is one more that the loop has seen.
  have hlt : p.advanced.toNat < q.seen := by
    have hne' := mt (hq.head_eq_tail_iff hpc).mpr hne
    have := hq.taken_le
    omega
  have hready : q.seen ≤ p.cq.ready := hq.seen_le
  have hcap : p.cq.ready ≤ 2 ^ 31 := le_trans h.ready_le p.cq.entries_le
  have htook := tookOne_handle (p := q) (show p.advanced.toNat + 1 < 2 ^ 32 by omega)
    (p.cq.entry p.head)
  set p' := q.handle (p.cq.entry p.head)
  have hcq : p'.cq = p.cq := htook.cq
  have hcount : p'.taken = p.advanced.toNat + 1 := htook.taken
  have hseen' : p'.seen = q.seen := by
    rw [seen_of_ne_outside htook.outside, seen_of_ne_outside (p := q) hout, htook.cq, htook.tail]
  have hpending : p.pending = p.cq.entry p.head :: p'.pending := by
    rw [pending, pending, hcq, hcount, htaken', hhead,
      CompletionQueue.rest_eq_cons (by omega : p.advanced.toNat < p.cq.ready)]
  constructor
  case counted =>
    constructor
    case ready_le => rw [hcq]; exact h.ready_le
    case seen_le => rw [hseen', hcq]; exact hready
    case taken_le => rw [hseen', hcount]; exact hlt
    case head_eq => exact fun _ => hcq.symm ▸ htook.head hhead
    case passed => exact fun hadvance => absurd hadvance htook.advance
  case entries_eq => rw [hcq]
  case pending_step =>
    rw [event, htakes]
    exact hpending
  case due_prefix =>
    have hdue : p.due <+: p.pending.take (q.seen - p.taken) := List.take_prefix_take_left (by omega)
    rw [hpending, show q.seen - p.taken = p'.seen - p'.taken + 1 by omega,
      List.take_succ_cons] at hdue
    rw [htakes]
    exact hdue
  case position_eq =>
    rw [htakes]
    calc p'.position = p.cq.khead + UInt32.ofNat (p.advanced.toNat + 1) := by
          rw [position, hcq, hcount]
      _ = p.cq.khead + UInt32.ofNat p.advanced.toNat + 1 := by
          rw [UInt32.ofNat_add, UInt32.add_assoc]
          rfl
      _ = p.position + 1 := by rw [position, htaken']

/-! ### The other steps of `poll` -/

/-- Nothing is due where the loop has taken what it has seen. -/
theorem due_eq_nil (h : p.seen ≤ p.taken) : p.due = [] := by
  unfold due
  rw [Nat.sub_eq_zero_of_le h, List.take_zero]

/-- `poll` is called. -/
theorem Counted.moves_entered (h : p.Counted) (hpc : p.pc = .outside) :
    Moves p (.enter true)
      { p with pc := .loop, head := p.cq.khead, tail := p.cq.ktail, advanced := 0 } := by
  set p' : Poller :=
    { p with pc := .loop, head := p.cq.khead, tail := p.cq.ktail, advanced := 0 }
  have htaken : p.taken = 0 := by simp [taken, hpc]
  have hseen : p'.seen = p.seen := (seen_of_outside hpc).symm
  have hpending : p'.pending = p.pending := by rw [pending, pending, htaken]; rfl
  constructor
  case counted =>
    constructor
    case ready_le => exact h.ready_le
    case seen_le => exact le_refl _
    case taken_le => exact Nat.zero_le _
    case head_eq => exact fun _ => (UInt32.add_zero _).symm
    case passed => exact nofun
  case entries_eq => rfl
  case pending_step => exact hpending
  case due_prefix =>
    show p.due <+: p'.due
    rw [due, due, hpending, hseen, htaken]
    exact List.prefix_rfl
  case position_eq =>
    show p.cq.khead + UInt32.ofNat 0 = p.position + 0
    rw [position, htaken, UInt32.add_zero]

/-- The loop ends. -/
theorem Counted.moves_exhausted (h : p.Counted) (hpc : p.pc = .loop) {reload : Bool}
    (heq : p.head = p.loadTail reload) :
    Moves p (.next reload) { p with tail := p.loadTail reload, pc := .advance } := by
  obtain ⟨hq, hseen⟩ := h.reload hpc reload
  have htakes : p.takes (.next reload) = none := by simp [takes, hpc, heq]
  -- All that the loop has seen is taken.
  have hpassed := (hq.head_eq_tail_iff hpc).mp heq
  have htaken : p.taken = p.advanced.toNat := taken_of_loop hpc
  set q : Poller := { p with tail := p.loadTail reload }
  set p' : Poller := { p with tail := p.loadTail reload, pc := .advance }
  have htaken' : p'.taken = p.taken := htaken.symm
  have hqtaken : q.taken = p.taken := rfl
  have hseen' : p'.seen = q.seen := (seen_of_ne_outside (p := q) (by simp [q, hpc])).symm
  have hpending : p'.pending = p.pending := by rw [pending, pending, htaken']
  constructor
  case counted =>
    constructor
    case ready_le => exact h.ready_le
    case seen_le => exact hseen' ▸ hq.seen_le
    case taken_le => exact (htaken'.trans hpassed).le.trans hseen'.ge
    case head_eq => exact fun _ => h.head_eq (by simp [hpc])
    case passed => exact fun _ => (htaken'.trans hpassed).trans hseen'.symm
  case entries_eq => rfl
  case pending_step =>
    rw [event, htakes]
    exact hpending
  case due_prefix =>
    rw [due_eq_nil (by omega)]
    exact List.nil_prefix
  case position_eq =>
    rw [htakes, position, position, htaken']
    exact (UInt32.add_zero _).symm

/-- The head is stored, and `poll` returns. -/
theorem Counted.moves_finished (h : p.Counted) (hpc : p.pc = .advance) :
    Moves p .advance
      { p with
        pc := .outside
        cq := if 0 < p.advanced then p.cq.advance p.advanced else p.cq } := by
  have htaken : p.taken = p.advanced.toNat := by simp [taken, hpc]
  have hpassed := h.passed hpc
  -- Where nothing has been taken, the head would be stored as it is.
  have hcq : (if 0 < p.advanced then p.cq.advance p.advanced else p.cq) =
      p.cq.advance p.advanced := by
    split_ifs with hpos
    · rfl
    · have hzero : p.advanced = 0 := not_not.mp (mt UInt32.pos_iff_ne_zero.mpr hpos)
      rw [hzero, CompletionQueue.advance, UInt32.add_zero]
  rw [hcq]
  have hle : p.advanced.toNat ≤ p.cq.ready := htaken ▸ le_trans h.taken_le h.seen_le
  obtain ⟨hready, hrest⟩ := CompletionQueue.advance_spec hle
  set p' : Poller := { p with pc := .outside, cq := p.cq.advance p.advanced }
  have hpending : p'.pending = p.pending := by
    rw [pending, pending, htaken]
    exact hrest
  constructor
  case counted =>
    constructor
    case ready_le =>
      show (p.cq.advance p.advanced).ready ≤ p.cq.entries
      have := h.ready_le
      omega
    case seen_le => exact le_refl _
    case taken_le => exact Nat.zero_le _
    case head_eq => exact fun hout => absurd rfl hout
    case passed => exact nofun
  case entries_eq => rfl
  case pending_step => exact hpending
  case due_prefix =>
    rw [due_eq_nil hpassed.ge]
    exact List.nil_prefix
  case position_eq =>
    show p.cq.khead + p.advanced + UInt32.ofNat 0 = p.position + 0
    rw [position, htaken, UInt32.ofNat_toNat]
    rfl

/-! ### The kernel -/

/-- A completion is posted behind those that are pending. -/
theorem Counted.moves_posted (h : p.Counted) {cqe : IoUringCqe} {cq : CompletionQueue}
    (hpost : p.cq.post cqe = some cq) : Moves p (.post cqe) { p with cq := cq } := by
  obtain ⟨hentries, hkhead, hroom, hready, hrest⟩ := CompletionQueue.post_spec hpost
  set p' : Poller := { p with cq := cq }
  have htaken : p'.taken = p.taken := rfl
  have hbefore : ∀ tail, cq.before tail = p.cq.before tail := by
    intro tail
    unfold CompletionQueue.before
    rw [hkhead]
  have hle : p.taken ≤ p.cq.ready := le_trans h.taken_le h.seen_le
  have hpending : p'.pending = p.pending ++ [cqe] := hrest p.taken hle
  -- The entry is seen only outside of the loop.
  have hseen : p.seen ≤ p'.seen ∧ p'.seen ≤ cq.ready := by
    by_cases hpc : p.pc = .outside
    · rw [seen_of_outside hpc, seen_of_outside (p := p') hpc, hready]
      exact ⟨Nat.le_succ _, le_refl _⟩
    · have hsame : p'.seen = p.seen := by
        rw [seen_of_ne_outside hpc, seen_of_ne_outside (p := p') hpc]
        exact hbefore p.tail
      rw [hsame, hready]
      exact ⟨le_refl _, Nat.le_succ_of_le h.seen_le⟩
  constructor
  case counted =>
    constructor
    case ready_le =>
      show cq.ready ≤ cq.entries
      rw [hready, hentries]
      exact hroom
    case seen_le => exact hseen.2
    case taken_le => exact le_trans h.taken_le hseen.1
    case head_eq =>
      intro hpc
      show p.head = cq.khead + p.advanced
      rw [hkhead]
      exact h.head_eq hpc
    case passed =>
      intro hpc
      have hout : p.pc ≠ .outside := fun hout => absurd (hout.symm.trans hpc) nofun
      have hsame : p'.seen = p.seen := by
        rw [seen_of_ne_outside hout, seen_of_ne_outside (p := p') hout]
        exact hbefore p.tail
      rw [hsame]
      exact h.passed hpc
  case entries_eq => exact hentries
  case pending_step =>
    refine ⟨?_, hpending⟩
    unfold pending
    rw [CompletionQueue.length_rest]
    omega
  case due_prefix =>
    show p.due <+: p'.due
    rw [due, due, hpending]
    have hlonger : p.pending <+: p.pending ++ [cqe] := List.prefix_append _ _
    exact (List.IsPrefix.take hlonger _).trans (List.take_prefix_take_left (by omega))
  case position_eq =>
    show cq.khead + UInt32.ofNat p.taken = p.position + 0
    rw [hkhead, UInt32.add_zero]
    rfl

/-! ### All steps -/

/-- A task is in the code that the loop calls, as `process_inbox` is. -/
theorem sameCounters_invoke (hpc : p.pc = .inbox)
    (task : UniqueTask (Closure (BitVec 64) Unit)) : SameCounters p (p.invoke task) := by
  have hout : p.pc ≠ .outside := by simp [hpc]
  unfold invoke
  split
  · exact ⟨rfl, rfl, rfl, id, Iff.rfl, id⟩
  · refine ⟨rfl, rfl, ?_, id, iff_of_false nofun hout, nofun⟩
    simp [taken, hpc]
  · exact ⟨rfl, rfl, rfl, id, Iff.rfl, id⟩

/-- What every step does to the queue and the counters. -/
theorem Counted.moves (h : p.Counted) (hstep : pollStep p op p') : Moves p op p' := by
  cases StepCase.of_step hstep with
  | entered hpc => exact h.moves_entered hpc
  | noScheduler hpc => exact h.moves_of_same ⟨rfl, rfl, rfl, id, Iff.rfl, id⟩ rfl rfl
  | handled reload hpc hne => exact h.moves_handled hpc hne
  | exhausted reload hpc heq => exact h.moves_exhausted hpc heq
  | popped task inbox hpc hpop =>
    have hsame := sameCounters_invoke (p := { p with
      inbox := inbox, metrics := p.metrics.recordInboxProcessed }) hpc task
    refine h.moves_of_same ⟨hsame.cq, hsame.tail, hsame.taken, hsame.head, hsame.outside,
      hsame.advance⟩ rfl rfl
  | drained inbox hpc hpop =>
    exact h.moves_of_same (h.same_count (by simp [taken, hpc]) (by simp [hpc])) rfl rfl
  | returned op result hpc =>
    exact h.moves_of_same (h.same_count (by simp [taken, hpc]) (by simp [hpc])) rfl rfl
  | taskReturned hpc =>
    have hout : p.pc ≠ .outside := by simp [hpc]
    have htaken : ({ p with pc := .inbox } : Poller).taken = p.taken := by simp [taken, hpc]
    exact h.moves_of_same ⟨rfl, rfl, htaken, id, iff_of_false nofun hout, nofun⟩ rfl rfl
  | finished hpc => exact h.moves_finished hpc
  | ran contexts queue huser => exact h.moves_of_same ⟨rfl, rfl, rfl, id, Iff.rfl, id⟩ rfl rfl
  | dispatched inbox => exact h.moves_of_same ⟨rfl, rfl, rfl, id, Iff.rfl, id⟩ rfl rfl
  | posted cqe cq hpost => exact h.moves_posted hpost

end Poller

/-! ## Runs -/

section Runs

variable {p : Poller} {l : List (PollOp × Poller)}

/-- The completions that the loop takes in a run, in order. -/
def handled (p : Poller) (l : List (PollOp × Poller)) : List IoUringCqe := trace Poller.takes p l

/-- The completions that the kernel posts in a run, in order. -/
def posted (l : List (PollOp × Poller)) : List IoUringCqe :=
  (l.map Prod.fst).filterMap PollOp.posted

/-- The completions that a step and the run after it take. -/
theorem handled_cons (p : Poller) (x : PollOp × Poller) (l : List (PollOp × Poller)) :
    handled p (x :: l) = (p.takes x.1).toList ++ handled x.2 l := rfl

/-- The counters are in order throughout. -/
theorem Poller.Counted.path (h : p.Counted) (hl : Path pollStep p l) :
    (∀ x ∈ l, x.2.Counted) ∧ (last p l).Counted :=
  hl.invariant (fun _ _ _ hs hstep => (hs.moves hstep).counted) h

/-- A step takes what the bounded queue sees taken. -/
theorem event_dequeued (p : Poller) (op : PollOp) :
    (p.event op).bind Fifo.Op.dequeued = p.takes op := by
  cases op with
  | post cqe => rfl
  | next reload =>
    show ((p.takes (.next reload)).map _).bind _ = _
    cases p.takes (.next reload) <;> rfl
  | _ => rfl

/-- A step posts what the bounded queue sees put in. -/
theorem event_enqueued (p : Poller) (op : PollOp) :
    (p.event op).bind Fifo.Op.enqueued = op.posted := by
  cases op with
  | post cqe => rfl
  | next reload =>
    show ((p.takes (.next reload)).map _).bind _ = _
    cases p.takes (.next reload) <;> rfl
  | _ => rfl

/-- The completion queue with the loop is a bounded first-in first-out queue of the pending
completions. -/
theorem Poller.refines_fifo (h : p.Counted) (hl : Path pollStep p l) :
    ∃ m, Path (Fifo.step p.cq.entries) p.pending m ∧ m.map Prod.fst = trace Poller.event p l ∧
      (last p l).pending = last p.pending m := by
  obtain ⟨m, hm, htrace, -, -, hlast⟩ := hl.simulation
    (R := fun s u => s.Counted ∧ s.cq.entries = p.cq.entries ∧ s.pending = u)
    (fun s op t u hR hstep => by
      obtain ⟨hs, hentries, rfl⟩ := hR
      have hmoves := hs.moves hstep
      exact ⟨t.pending, ⟨hmoves.counted, hmoves.entries_eq.trans hentries, rfl⟩,
        hentries ▸ hmoves.pending_step⟩) ⟨h, rfl, rfl⟩
  exact ⟨m, hm, htrace, hlast⟩

/-- What is pending and what is posted is taken in order, or still pending. -/
theorem pending_append_posted (h : p.Counted) (hl : Path pollStep p l) :
    p.pending ++ posted l = handled p l ++ (last p l).pending := by
  obtain ⟨m, hm, htrace, hlast⟩ := p.refines_fifo h hl
  have hfifo := Fifo.enqueued_eq hm
  rw [htrace, filterMap_trace, filterMap_trace] at hfifo
  simp only [event_dequeued, event_enqueued] at hfifo
  rw [hlast, handled, ← hfifo, posted, trace_of_label]

/-- What is due at the start is taken first. -/
theorem due_prefix (h : p.Counted) (hl : Path pollStep p l) :
    p.due <+: handled p l ++ (last p l).due := by
  induction l generalizing p with
  | nil => exact List.prefix_rfl
  | cons x l ih =>
    have hmoves := h.moves hl.1
    have hrest := ih hmoves.counted hl.2
    rw [handled_cons, List.append_assoc]
    exact hmoves.due_prefix.trans ((List.prefix_append_right_inj _).mpr hrest)

/-- The loop moves by one entry with every completion that it takes. -/
theorem position_eq (h : p.Counted) (hl : Path pollStep p l) :
    (last p l).position = p.position + UInt32.ofNat (handled p l).length := by
  induction l generalizing p with
  | nil => exact (UInt32.add_zero _).symm
  | cons x l ih =>
    have hmoves := h.moves hl.1
    calc (last x.2 l).position
        = x.2.position + UInt32.ofNat (handled x.2 l).length := ih hmoves.counted hl.2
      _ = p.position + UInt32.ofNat (p.takes x.1).toList.length
          + UInt32.ofNat (handled x.2 l).length := by rw [hmoves.position_eq]
      _ = p.position + UInt32.ofNat (handled p (x :: l)).length := by
          rw [UInt32.add_assoc, ← UInt32.ofNat_add, ← List.length_append, ← handled_cons]

end Runs

end Novaio
