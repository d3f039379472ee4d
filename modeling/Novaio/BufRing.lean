import Mathlib.Data.List.Perm.Basic
import Mathlib.Data.List.Range
import Mathlib.Data.Multiset.AddSub
import Novaio.Lib.Path
import Novaio.Lib.Ring

/-!
# The provided-buffer ring

`IoEngine` of `src/io_engine.cpp` lends the kernel `bufRingSize` blocks of one allocation through
a ring of entries that it shares with the kernel. `setupProvidedBufferRing` fills the ring once,
each block at its own offset from the tail `0`, and publishes all entries. From then on the kernel
takes entries at its head, and `returnBuffer` gives a block back.

`returnBuffer` passes the tail as the offset, so the entry goes to the slot of `2 * tail`, while
advancing the tail publishes the slot of `tail`. The two agree only when the tail is a multiple of
the ring's size. `InPlace` is the exact condition under which a return publishes what it should,
and `returnBuffer_conserved_iff` is the step lemma that says so.
-/

namespace Novaio

open Transition

/-! ## The ring as liburing lays it out -/

/-- `BUF_RING_SIZE` of `io_engine.hpp`. -/
def bufRingSize : ℕ := 2048

/-- `BUF_BLOCK_SIZE` of `io_engine.hpp`. -/
def bufBlockSize : ℕ := 2048

/-- `struct io_uring_buf`, an entry of the ring. -/
structure BufEntry where
  addr : ℕ
  len : ℕ
  bid : UInt16

/-- `struct io_uring_buf_ring`: the entries and the tail that the application advances. -/
structure BufRing where
  bufs : ℕ → BufEntry
  tail : UInt16

/-- `ioUringBufRingMask`. -/
def ioUringBufRingMask (ringEntries : ℕ) : ℕ := ringEntries - 1

/-- `ioUringBufRingAdd`: writes the entry `bufOffset` slots past the tail. -/
def ioUringBufRingAdd (br : BufRing) (addr len : ℕ) (bid : UInt16) (mask bufOffset : ℕ) :
    BufRing :=
  let buf := (br.tail.toNat + bufOffset) &&& mask
  { br with bufs := Function.update br.bufs buf ⟨addr, len, bid⟩ }

/-- `ioUringBufRingAdvance`: publishes the next `count` slots. -/
def ioUringBufRingAdvance (br : BufRing) (count : UInt16) : BufRing :=
  { br with tail := br.tail + count }

/-! ## `IoEngine`'s use of it -/

/-- `IoEngine::get_buffer`, the address of a block. -/
def getBuffer (bufferBase : ℕ) (bufferId : UInt16) : ℕ :=
  bufferBase + bufferId.toNat * bufBlockSize

/-- The loop of `IoEngine::setup_provided_buffer_ring`, over the ids below `n`. -/
def addBuffers (bufferBase : ℕ) (br : BufRing) (n : ℕ) : BufRing :=
  (List.range n).foldl (fun br i =>
    ioUringBufRingAdd br (bufferBase + i * bufBlockSize) bufBlockSize (UInt16.ofNat i)
      (ioUringBufRingMask bufRingSize) i) br

/-- `IoEngine::setup_provided_buffer_ring`, over the entries `mem` that the ring's memory holds
before. `io_uring_buf_ring_init` clears the tail. -/
def setupProvidedBufferRing (bufferBase : ℕ) (mem : ℕ → BufEntry) : BufRing :=
  ioUringBufRingAdvance (addBuffers bufferBase ⟨mem, 0⟩ bufRingSize)
    (UInt16.ofNat bufRingSize)

/-- `IoEngine::return_buffer`. -/
def returnBuffer (bufferBase : ℕ) (br : BufRing) (bufferId : UInt16) : BufRing :=
  -- The offset passed is the tail itself, which the helper adds to the tail once more.
  ioUringBufRingAdvance
    (ioUringBufRingAdd br (getBuffer bufferBase bufferId) bufBlockSize bufferId
      (ioUringBufRingMask bufRingSize) br.tail.toNat) 1

/-! ## Runs of the kernel and the application -/

/-- The ring, the kernel's head, and the ids that the application holds: those that the kernel
selected and that have not been returned since. -/
structure BufState where
  ring : BufRing
  head : UInt16
  held : List UInt16

/-- A step: the kernel selects the entry at its head, or the application returns a buffer. -/
inductive BufOp where
  | select
  | returnBuffer (bufferId : UInt16)

/-- The slot that the counter value `pos` addresses. -/
abbrev slot (pos : ℕ) : ℕ := pos % bufRingSize

/-- The step that `op` is, where it can be taken: the kernel selects only behind the tail, and the
application returns only what it holds. -/
def bufStep (bufferBase : ℕ) (s : BufState) (op : BufOp) (t : BufState) : Prop :=
  match op with
  | .select => s.head ≠ s.ring.tail ∧
      t = ⟨s.ring, s.head + 1, s.held ++ [(s.ring.bufs (slot s.head.toNat)).bid]⟩
  | .returnBuffer bid => bid ∈ s.held ∧
      t = ⟨returnBuffer bufferBase s.ring bid, s.head, s.held.erase bid⟩

/-- The state after the setup, with nothing selected. -/
def bufStart (bufferBase : ℕ) (mem : ℕ → BufEntry) : BufState :=
  ⟨setupProvidedBufferRing bufferBase mem, 0, []⟩

/-- The number of published entries. -/
def BufState.pending (s : BufState) : ℕ :=
  Ring.count (2 ^ 16) s.head.toNat s.ring.tail.toNat

/-- The ids of the published entries, at the positions from the head to the tail. -/
def BufState.published (s : BufState) : List UInt16 :=
  Ring.window bufRingSize (fun i => (s.ring.bufs i).bid) s.head.toNat s.pending

/-- All ids, in the order of the setup. -/
def bufferIds : List UInt16 := (List.range bufRingSize).map UInt16.ofNat

/-- Each of the `bufRingSize` ids is in exactly one place: held by the application, or present
once among the published entries. -/
def Conserved (s : BufState) : Prop :=
  ∀ bid : UInt16, bid.toNat < bufRingSize → s.held.count bid + s.published.count bid = 1

/-- What a return needs of the state before it. Either the tail is at slot `0`, where the slot
written is the one published. Or the stale entry of the slot published makes up for the entry
written elsewhere: it names the buffer returned, or, where the slot written is itself published,
the buffer whose entry is overwritten there. -/
def InPlace (s : BufState) : BufOp → Prop
  | .select => True
  | .returnBuffer bid =>
    let published := slot s.ring.tail.toNat
    let written := slot (2 * s.ring.tail.toNat)
    published = 0 ∨
      if ∃ i < s.pending, slot (s.head.toNat + i) = written
      then (s.ring.bufs published).bid = (s.ring.bufs written).bid
      else (s.ring.bufs published).bid = bid

/-! ## The setup -/

/-- Masking with the ring's mask is reduction modulo its size. -/
@[simp]
theorem and_mask (x : ℕ) : x &&& ioUringBufRingMask bufRingSize = slot x :=
  Nat.and_two_pow_sub_one_eq_mod x 11

/-- Adding a buffer does not move the tail. -/
@[simp]
theorem ioUringBufRingAdd_tail (br : BufRing) (addr len : ℕ) (bid : UInt16) (mask off : ℕ) :
    (ioUringBufRingAdd br addr len bid mask off).tail = br.tail := rfl

/-- The setup's loop over one more id. -/
theorem addBuffers_succ (bufferBase : ℕ) (br : BufRing) (n : ℕ) :
    addBuffers bufferBase br (n + 1) =
      ioUringBufRingAdd (addBuffers bufferBase br n) (bufferBase + n * bufBlockSize) bufBlockSize
        (UInt16.ofNat n) (ioUringBufRingMask bufRingSize) n := by
  simp [addBuffers, List.range_succ]

/-- The setup's loop does not move the tail. -/
@[simp]
theorem addBuffers_tail (bufferBase : ℕ) (br : BufRing) (n : ℕ) :
    (addBuffers bufferBase br n).tail = br.tail := by
  induction n with
  | zero => rfl
  | succ n ih => rw [addBuffers_succ, ioUringBufRingAdd_tail, ih]

/-- The setup's loop over the ids below `n` leaves in each of the first `n` slots the entry of the
block with the slot's own number. -/
theorem addBuffers_bufs (bufferBase : ℕ) (mem : ℕ → BufEntry) {n : ℕ} (hn : n ≤ bufRingSize)
    {i : ℕ} (hi : i < n) :
    (addBuffers bufferBase ⟨mem, 0⟩ n).bufs i =
      ⟨getBuffer bufferBase (UInt16.ofNat i), bufBlockSize, UInt16.ofNat i⟩ := by
  induction n with
  | zero => omega
  | succ n ih =>
    have hslot : slot n = n := Nat.mod_eq_of_lt hn
    simp only [addBuffers_succ, ioUringBufRingAdd, addBuffers_tail, and_mask, UInt16.toNat_zero,
      Nat.zero_add]
    rw [hslot]
    rcases Nat.lt_succ_iff_lt_or_eq.mp hi with h | rfl
    · rw [Function.update_of_ne (by omega), ih (by omega) h]
    · have hmod : i % 65536 = i := Nat.mod_eq_of_lt (by unfold bufRingSize at hn; omega)
      simp [getBuffer, hmod]

/-- The tail after the setup. -/
theorem setup_tail (bufferBase : ℕ) (mem : ℕ → BufEntry) :
    (setupProvidedBufferRing bufferBase mem).tail = 2048 := by
  unfold setupProvidedBufferRing ioUringBufRingAdvance
  rw [addBuffers_tail]
  rfl

/-- The entries after the setup. -/
theorem setup_bufs (bufferBase : ℕ) (mem : ℕ → BufEntry) {i : ℕ} (hi : i < bufRingSize) :
    (setupProvidedBufferRing bufferBase mem).bufs i =
      ⟨getBuffer bufferBase (UInt16.ofNat i), bufBlockSize, UInt16.ofNat i⟩ := by
  unfold setupProvidedBufferRing ioUringBufRingAdvance
  rw [addBuffers_bufs bufferBase mem (le_refl _) hi]

/-- After the setup every entry is published. -/
theorem bufStart_pending (bufferBase : ℕ) (mem : ℕ → BufEntry) :
    (bufStart bufferBase mem).pending = bufRingSize := by
  unfold BufState.pending bufStart
  dsimp only
  rw [setup_tail]
  decide

/-- After the setup the ids are published in order. -/
theorem bufStart_published (bufferBase : ℕ) (mem : ℕ → BufEntry) :
    (bufStart bufferBase mem).published = bufferIds := by
  unfold BufState.published Ring.window bufferIds
  rw [bufStart_pending]
  apply List.map_congr_left
  intro i hi
  have hi' : i < bufRingSize := List.mem_range.mp hi
  unfold bufStart
  dsimp only
  rw [UInt16.toNat_zero, Nat.zero_add, Nat.mod_eq_of_lt hi', setup_bufs bufferBase mem hi']

/-! ## One step -/

/-- The ids are those below the ring's size. -/
theorem mem_bufferIds {bid : UInt16} : bid ∈ bufferIds ↔ bid.toNat < bufRingSize := by
  simp only [bufferIds, List.mem_map, List.mem_range]
  constructor
  · rintro ⟨i, hi, rfl⟩
    have hmod : i % 65536 = i := Nat.mod_eq_of_lt (by unfold bufRingSize at hi; omega)
    simpa [hmod] using hi
  · intro h
    exact ⟨bid.toNat, h, UInt16.ofNat_toNat⟩

/-- No id is listed twice. -/
theorem nodup_bufferIds : bufferIds.Nodup := by
  apply List.Nodup.map_on _ List.nodup_range
  intro i hi j hj h
  rw [List.mem_range] at hi hj
  unfold bufRingSize at hi hj
  have h' := congrArg UInt16.toNat h
  simp only [UInt16.toNat_ofNat'] at h'
  omega

/-- What every step keeps, whether or not it returns a buffer in place: the application and the
published entries account for the ring's size, every entry offers the block of its own id, and
every id is one of the ring's. -/
structure WellFormed (bufferBase : ℕ) (s : BufState) : Prop where
  total : s.pending + s.held.length = bufRingSize
  entries : ∀ i < bufRingSize, (s.ring.bufs i).addr = getBuffer bufferBase (s.ring.bufs i).bid ∧
    (s.ring.bufs i).len = bufBlockSize ∧ (s.ring.bufs i).bid.toNat < bufRingSize
  held : ∀ bid ∈ s.held, bid.toNat < bufRingSize

/-- The published ids are the ring's. -/
theorem WellFormed.published {bufferBase : ℕ} {s : BufState} (h : WellFormed bufferBase s)
    {bid : UInt16} (hb : bid ∈ s.published) : bid.toNat < bufRingSize := by
  obtain ⟨i, -, rfl⟩ := List.mem_map.mp hb
  exact (h.entries _ (Nat.mod_lt _ (by decide))).2.2

/-- In a well-formed state, each id is in exactly one place when the ids held and published are
the ring's, in some order. -/
theorem conserved_iff_perm {bufferBase : ℕ} {s : BufState} (h : WellFormed bufferBase s) :
    Conserved s ↔ (s.held ++ s.published).Perm bufferIds := by
  rw [List.perm_iff_count]
  constructor
  · intro hc bid
    rw [List.count_append]
    by_cases hb : bid.toNat < bufRingSize
    · rw [hc bid hb, List.count_eq_one_of_mem nodup_bufferIds (mem_bufferIds.mpr hb)]
    · rw [List.count_eq_zero_of_not_mem (fun hm => hb (h.held bid hm)),
        List.count_eq_zero_of_not_mem (fun hm => hb (h.published hm)),
        List.count_eq_zero_of_not_mem (fun hm => hb (mem_bufferIds.mp hm))]
  · intro hp bid hb
    rw [← List.count_append, hp bid]
    exact List.count_eq_one_of_mem nodup_bufferIds (mem_bufferIds.mpr hb)

/-- The state after the setup is well formed. -/
theorem bufStart_wellFormed (bufferBase : ℕ) (mem : ℕ → BufEntry) :
    WellFormed bufferBase (bufStart bufferBase mem) := by
  refine ⟨?_, ?_, ?_⟩
  · rw [bufStart_pending]
    rfl
  · intro i hi
    unfold bufStart
    dsimp only
    rw [setup_bufs bufferBase mem hi]
    exact ⟨rfl, rfl, mem_bufferIds.mp (List.mem_map_of_mem (List.mem_range.mpr hi))⟩
  · simp [bufStart]

/-- After the setup each id is in exactly one place. -/
theorem bufStart_conserved (bufferBase : ℕ) (mem : ℕ → BufEntry) :
    Conserved (bufStart bufferBase mem) := by
  have hheld : (bufStart bufferBase mem).held = [] := rfl
  rw [conserved_iff_perm (bufStart_wellFormed bufferBase mem), bufStart_published, hheld,
    List.nil_append]

/-- What a selection does: the first published id becomes held, and the rest stay published. -/
theorem select_published {s : BufState} (h : s.head ≠ s.ring.tail) :
    let t : BufState :=
      ⟨s.ring, s.head + 1, s.held ++ [(s.ring.bufs (slot s.head.toNat)).bid]⟩
    t.pending + 1 = s.pending ∧
      s.published = (s.ring.bufs (slot s.head.toNat)).bid :: t.published := by
  intro t
  have hh : s.head.toNat < 2 ^ 16 := s.head.toNat_lt
  have ht : s.ring.tail.toNat < 2 ^ 16 := s.ring.tail.toNat_lt
  have hpos : 0 < s.pending := by
    rw [Nat.pos_iff_ne_zero]
    intro h0
    exact h (UInt16.toNat_inj.mp ((Ring.count_eq_zero_iff hh ht).mp h0))
  have hhead : t.head.toNat = (s.head.toNat + 1) % 2 ^ 16 := by
    simp [t, UInt16.toNat_add]
  have hpending : t.pending + 1 = s.pending := by
    unfold BufState.pending
    rw [hhead]
    exact Ring.count_succ_left hh ht hpos
  refine ⟨hpending, ?_⟩
  unfold BufState.published
  rw [← hpending, Ring.window_succ_left, hhead,
    Ring.window_mod (by decide : bufRingSize ∣ 2 ^ 16)]

/-- A selection keeps the state well formed and moves no id out of its one place. -/
theorem select_conserved {bufferBase : ℕ} {s t : BufState} (hw : WellFormed bufferBase s)
    (hstep : bufStep bufferBase s .select t) :
    WellFormed bufferBase t ∧ (Conserved s → Conserved t) := by
  obtain ⟨hne, rfl⟩ := hstep
  obtain ⟨hpending, hpub⟩ := select_published hne
  have hbid := (hw.entries (slot s.head.toNat) (Nat.mod_lt _ (by decide))).2.2
  have hw' : WellFormed bufferBase
      ⟨s.ring, s.head + 1, s.held ++ [(s.ring.bufs (slot s.head.toNat)).bid]⟩ := by
    refine ⟨?_, hw.entries, ?_⟩
    · have := hw.total
      simp only [List.length_append, List.length_singleton]
      omega
    · intro bid hb
      rcases List.mem_append.mp hb with hb | hb
      · exact hw.held bid hb
      · rwa [List.mem_singleton.mp hb]
  refine ⟨hw', ?_⟩
  rw [conserved_iff_perm hw, conserved_iff_perm hw']
  intro hp
  rw [hpub] at hp
  simpa [List.append_assoc] using hp

/-- What a return does to the published ids: the entry of the slot written names the buffer
returned, and the slot of the tail is published. -/
theorem return_published {bufferBase : ℕ} {s : BufState} (hw : WellFormed bufferBase s)
    {bid : UInt16} (hb : bid ∈ s.held) :
    let t : BufState := ⟨returnBuffer bufferBase s.ring bid, s.head, s.held.erase bid⟩
    t.pending = s.pending + 1 ∧ t.published =
      Ring.window bufRingSize
        (Function.update (fun i => (s.ring.bufs i).bid) (slot (2 * s.ring.tail.toNat)) bid)
        s.head.toNat (s.pending + 1) := by
  intro t
  have hh : s.head.toNat < 2 ^ 16 := s.head.toNat_lt
  have ht : s.ring.tail.toNat < 2 ^ 16 := s.ring.tail.toNat_lt
  have hlen := List.length_pos_of_mem hb
  have htotal := hw.total
  have htail : t.ring.tail.toNat = (s.ring.tail.toNat + 1) % 2 ^ 16 := by
    simp [t, returnBuffer, ioUringBufRingAdvance, UInt16.toNat_add]
  -- There is room for one more entry, as the id that is returned is not published.
  have hpending : t.pending = s.pending + 1 := by
    unfold BufState.pending
    rw [htail]
    apply Ring.count_succ_right hh ht
    unfold BufState.pending at htotal
    unfold bufRingSize at htotal
    omega
  refine ⟨hpending, ?_⟩
  unfold BufState.published
  rw [hpending]
  apply Ring.window_congr
  intro i _
  simp only [t, returnBuffer, ioUringBufRingAdvance, ioUringBufRingAdd, and_mask, ← two_mul]
  rcases eq_or_ne ((s.head.toNat + i) % bufRingSize) (slot (2 * s.ring.tail.toNat)) with h | h
  · rw [h, Function.update_self, Function.update_self]
  · rw [Function.update_of_ne h, Function.update_of_ne h]

/-- The slot past the published ones is the tail's. -/
theorem slot_tail (s : BufState) :
    (s.head.toNat + s.pending) % bufRingSize = slot s.ring.tail.toNat := by
  have h := Ring.add_count s.head.toNat_lt s.ring.tail.toNat_lt
  rw [slot, ← h, Nat.mod_mod_of_dvd _ (by decide : bufRingSize ∣ 2 ^ 16)]
  rfl

/-- A return keeps the state well formed. -/
theorem return_wellFormed {bufferBase : ℕ} {s : BufState} (hw : WellFormed bufferBase s)
    {bid : UInt16} (hb : bid ∈ s.held) :
    WellFormed bufferBase ⟨returnBuffer bufferBase s.ring bid, s.head, s.held.erase bid⟩ := by
  obtain ⟨hpending, -⟩ := return_published hw hb
  refine ⟨?_, ?_, ?_⟩
  · have hlen := List.length_pos_of_mem hb
    have htotal := hw.total
    rw [hpending]
    dsimp only
    rw [List.length_erase_of_mem hb]
    omega
  · intro i hi
    simp only [returnBuffer, ioUringBufRingAdvance, ioUringBufRingAdd]
    rcases eq_or_ne i ((s.ring.tail.toNat + s.ring.tail.toNat) &&&
      ioUringBufRingMask bufRingSize) with h | h
    · rw [h, Function.update_self]
      exact ⟨rfl, rfl, hw.held bid hb⟩
    · rw [Function.update_of_ne h]
      exact hw.entries i hi
  · intro b hb'
    exact hw.held b (List.mem_of_mem_erase hb')

/-- Lists that share all their elements but one agree, in some order, when that one agrees. -/
theorem cons_perm_cons_iff {a b : UInt16} {l m : List UInt16} (h : l.Perm m) :
    (a :: l).Perm (b :: m) ↔ a = b := by
  rw [← Multiset.coe_eq_coe, ← Multiset.cons_coe, ← Multiset.cons_coe, Multiset.coe_eq_coe.mpr h]
  exact Multiset.cons_inj_left _

/-- The slot written is the slot published only at slot `0`. -/
theorem slot_two_mul_eq_iff (x : ℕ) : slot (2 * x) = slot x ↔ slot x = 0 := by
  unfold slot bufRingSize
  omega

/-- The step lemma of a return: where each id is in one place before it, each id is in one place
after it if and only if the return is in place. -/
theorem return_conserved_iff {bufferBase : ℕ} {s : BufState} (hw : WellFormed bufferBase s)
    (hc : Conserved s) {bid : UInt16} (hb : bid ∈ s.held) :
    Conserved ⟨returnBuffer bufferBase s.ring bid, s.head, s.held.erase bid⟩ ↔
      InPlace s (.returnBuffer bid) := by
  rw [conserved_iff_perm (return_wellFormed hw hb)]
  rw [conserved_iff_perm hw] at hc
  obtain ⟨-, hpub⟩ := return_published hw hb
  rw [hpub]
  have hlen := List.length_pos_of_mem hb
  have hlt : s.pending < bufRingSize := by
    have := hw.total
    omega
  -- The ids before the step, with the one returned in front.
  have hids : bufferIds.Perm (bid :: (s.held.erase bid ++ s.published)) := by
    refine hc.symm.trans ?_
    rw [← List.cons_append]
    exact (List.perm_cons_erase hb).append_right _
  rw [hids.congr_right, Ring.window_succ, slot_tail]
  have hzero := slot_two_mul_eq_iff s.ring.tail.toNat
  have hfresh := slot_tail s
  unfold InPlace BufState.published
  dsimp only
  set f : ℕ → UInt16 := fun i => (s.ring.bufs i).bid with hf
  generalize slot (2 * s.ring.tail.toNat) = w at *
  generalize slot s.ring.tail.toNat = p at *
  by_cases hp : w = p
  · -- The slot written is the slot published.
    subst hp
    rw [← hfresh, Ring.window_update_fresh hlt, Function.update_self, hfresh,
      iff_true_right (.inl (hzero.mp rfl)), ← List.append_assoc]
    exact List.perm_append_singleton _ _
  · rw [or_iff_right (fun h => hp (hzero.mpr h)), Function.update_of_ne (Ne.symm hp)]
    split_ifs with hmem
    · -- The slot written is published already, so its buffer's entry is overwritten.
      obtain ⟨i, hi, rfl⟩ := hmem
      rw [Ring.window_update_mem hi (by omega)]
      have hi' : i < (Ring.window bufRingSize f s.head.toNat s.pending).length := by
        rwa [Ring.length_window]
      have hget : (Ring.window bufRingSize f s.head.toNat s.pending)[i] =
          f ((s.head.toNat + i) % bufRingSize) := by
        simp [Ring.window]
      generalize Ring.window bufRingSize f s.head.toNat s.pending = l at *
      have hset := List.set_perm_cons_eraseIdx hi' bid
      have hold := List.getElem_cons_eraseIdx_perm hi'
      rw [hget] at hold
      have hleft : (s.held.erase bid ++ (l.set i bid ++ [f p])).Perm
          (f p :: bid :: (s.held.erase bid ++ l.eraseIdx i)) :=
        calc s.held.erase bid ++ (l.set i bid ++ [f p])
            = s.held.erase bid ++ l.set i bid ++ [f p] := (List.append_assoc _ _ _).symm
          List.Perm _ (f p :: (s.held.erase bid ++ l.set i bid)) := List.perm_append_singleton _ _
          List.Perm _ (f p :: (s.held.erase bid ++ bid :: l.eraseIdx i)) :=
            (hset.append_left _).cons _
          List.Perm _ (f p :: bid :: (s.held.erase bid ++ l.eraseIdx i)) :=
            List.perm_middle.cons _
      have hright : (bid :: (s.held.erase bid ++ l)).Perm
          (f ((s.head.toNat + i) % bufRingSize) :: bid ::
            (s.held.erase bid ++ l.eraseIdx i)) := by
        generalize f ((s.head.toNat + i) % bufRingSize) = g at hold
        calc List.Perm _ (bid :: (s.held.erase bid ++ g :: l.eraseIdx i)) :=
              (hold.symm.append_left _).cons _
          List.Perm _ (bid :: g :: (s.held.erase bid ++ l.eraseIdx i)) := List.perm_middle.cons _
          List.Perm _ (g :: bid :: (s.held.erase bid ++ l.eraseIdx i)) := .swap _ _ _
      rw [hleft.congr_left, hright.congr_right]
      exact cons_perm_cons_iff (.refl _)
    · -- The slot written is not published, so the slot published is as it was.
      push Not at hmem
      rw [Ring.window_update_of_ne hmem, ← List.append_assoc,
        (List.perm_append_singleton _ _).congr_left]
      exact cons_perm_cons_iff (.refl _)

/-! ## Whole runs -/

/-- Every step keeps the state well formed. -/
theorem bufStep_wellFormed {bufferBase : ℕ} (s : BufState) (op : BufOp) (t : BufState)
    (hw : WellFormed bufferBase s) (hstep : bufStep bufferBase s op t) :
    WellFormed bufferBase t := by
  cases op with
  | select => exact (select_conserved hw hstep).1
  | returnBuffer bid =>
    obtain ⟨hb, rfl⟩ := hstep
    exact return_wellFormed hw hb

/-- Every step, from a state where each id is in one place, leads to such a state if and only if
it is in place. -/
theorem bufStep_conserved_iff {bufferBase : ℕ} (s : BufState) (op : BufOp) (t : BufState)
    (hw : WellFormed bufferBase s) (hc : Conserved s) (hstep : bufStep bufferBase s op t) :
    Conserved t ↔ InPlace s op := by
  cases op with
  | select => exact iff_of_true ((select_conserved hw hstep).2 hc) trivial
  | returnBuffer bid =>
    obtain ⟨hb, rfl⟩ := hstep
    exact return_conserved_iff hw hc hb

/-- In every run from the setup, each buffer is in exactly one place in every state reached if and
only if every return of the run is in place. -/
theorem buffers_conserved_iff (bufferBase : ℕ) (mem : ℕ → BufEntry) (l : List (BufOp × BufState))
    (hl : Path (bufStep bufferBase) (bufStart bufferBase mem) l) :
    (Conserved (bufStart bufferBase mem) ∧ ∀ x ∈ l, Conserved x.2) ↔
      Meets InPlace (bufStart bufferBase mem) l := by
  rw [and_iff_right (bufStart_conserved bufferBase mem)]
  exact hl.always_iff_meets bufStep_wellFormed bufStep_conserved_iff
    (bufStart_wellFormed bufferBase mem) (bufStart_conserved bufferBase mem)

/-- The ids that the setup publishes first. -/
theorem setup_bid (bufferBase : ℕ) (mem : ℕ → BufEntry) {i : ℕ} (hi : i < bufRingSize) :
    ((setupProvidedBufferRing bufferBase mem).bufs i).bid = UInt16.ofNat i := by
  rw [setup_bufs bufferBase mem hi]

/-- A buffer taken and returned right after the setup is back in the ring. -/
theorem buffers_conserved_round_trip :
    ∃ l, Path (bufStep 0) (bufStart 0 fun _ => ⟨0, 0, 0⟩) l ∧
      l.map Prod.fst = [.select, .returnBuffer 0] ∧ ∀ x ∈ l, Conserved x.2 := by
  generalize hmem : (fun _ => ⟨0, 0, 0⟩ : ℕ → BufEntry) = mem
  have htail := setup_tail 0 mem
  have hbid := setup_bid 0 mem (by decide : 0 < bufRingSize)
  have hl : Path (bufStep 0) (bufStart 0 mem)
      [(.select, ⟨setupProvidedBufferRing 0 mem, 1, [0]⟩),
       (.returnBuffer 0, ⟨returnBuffer 0 (setupProvidedBufferRing 0 mem) 0, 1, []⟩)] := by
    refine ⟨⟨?_, ?_⟩, ⟨List.mem_singleton_self _, rfl⟩, trivial⟩
    · simp only [bufStart, htail]
      decide
    · simp only [bufStart, UInt16.toNat_zero, slot, Nat.zero_mod, hbid]
      rfl
  refine ⟨_, hl, rfl, ?_⟩
  refine ((buffers_conserved_iff 0 mem _ hl).mpr ⟨trivial, .inl ?_, trivial⟩).2
  simp only [htail]
  decide

/-- Two buffers taken and then returned in order: the second return publishes the entry of its
buffer twice and overwrites the entry of the next one. -/
theorem buffers_not_conserved :
    ∃ l, Path (bufStep 0) (bufStart 0 fun _ => ⟨0, 0, 0⟩) l ∧
      l.map Prod.fst = [.select, .select, .returnBuffer 0, .returnBuffer 1] ∧
      ¬ Conserved (last (bufStart 0 fun _ => ⟨0, 0, 0⟩) l) := by
  generalize hmem : (fun _ => ⟨0, 0, 0⟩ : ℕ → BufEntry) = mem
  have htail := setup_tail 0 mem
  have hbid0 := setup_bid 0 mem (by decide : 0 < bufRingSize)
  have hbid1 := setup_bid 0 mem (by decide : 1 < bufRingSize)
  have hbid2 := setup_bid 0 mem (by decide : 2 < bufRingSize)
  have hw := bufStart_wellFormed 0 mem
  have hc := bufStart_conserved 0 mem
  generalize hbr : setupProvidedBufferRing 0 mem = br at *
  have hstart : bufStart 0 mem = ⟨br, 0, []⟩ := by rw [← hbr]; rfl
  rw [hstart] at hw hc ⊢
  have h1 : bufStep 0 ⟨br, 0, []⟩ .select ⟨br, 1, [0]⟩ := by
    refine ⟨by rw [htail]; exact (by decide : (0 : UInt16) ≠ 2048), ?_⟩
    simp only [UInt16.toNat_zero, slot, Nat.zero_mod, hbid0]
    rfl
  have h2 : bufStep 0 ⟨br, 1, [0]⟩ .select ⟨br, 2, [0, 1]⟩ := by
    refine ⟨by rw [htail]; exact (by decide : (1 : UInt16) ≠ 2048), ?_⟩
    simp only [UInt16.toNat_one, show slot 1 = 1 from rfl, hbid1]
    rfl
  have h3 : bufStep 0 ⟨br, 2, [0, 1]⟩ (.returnBuffer 0) ⟨returnBuffer 0 br 0, 2, [1]⟩ :=
    ⟨List.mem_cons_self, rfl⟩
  have h4 : bufStep 0 ⟨returnBuffer 0 br 0, 2, [1]⟩ (.returnBuffer 1)
      ⟨returnBuffer 0 (returnBuffer 0 br 0) 1, 2, []⟩ := ⟨List.mem_singleton_self _, rfl⟩
  refine ⟨[(_, _), (_, _), (_, _), (_, _)], ⟨h1, h2, h3, h4, trivial⟩, rfl, ?_⟩
  have hw1 := bufStep_wellFormed _ _ _ hw h1
  have hw2 := bufStep_wellFormed _ _ _ hw1 h2
  have hw3 := bufStep_wellFormed _ _ _ hw2 h3
  have hc2 := (select_conserved hw1 h2).2 ((select_conserved hw h1).2 hc)
  have hc3 := (bufStep_conserved_iff _ _ _ hw2 hc2 h3).mpr (.inl (by simp [htail]; decide))
  rw [last, last, last, last, last, bufStep_conserved_iff _ _ _ hw3 hc3 h4]
  -- The tail is now 2049: slot 1 is published, and slot 2, written, is the head's.
  have htail' : (returnBuffer 0 br 0).tail.toNat = 2049 := by
    simp [returnBuffer, ioUringBufRingAdvance, htail]
  have hpos : 0 < BufState.pending ⟨returnBuffer 0 br 0, 2, [1]⟩ := by
    have := hw3.total
    simp only [List.length_singleton] at this
    unfold bufRingSize at this
    omega
  simp only [InPlace, htail']
  rw [if_pos ⟨0, hpos, rfl⟩]
  simp only [returnBuffer, ioUringBufRingAdvance, ioUringBufRingAdd, htail, and_mask]
  rw [Function.update_of_ne (by decide), Function.update_of_ne (by decide)]
  rw [show slot 2049 = 1 from rfl, show slot (2 * 2049) = 2 from rfl, hbid1, hbid2]
  decide

end Novaio
