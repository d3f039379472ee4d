import Novaio.RunQueue

/-!
# Overtaking in the run queue

The handles of the ring come out in the order in which they went in, also across the wrap-around of
the counters. Only the handle in `runnext_` comes out ahead of them, as the first of a batch. So a
batch of 16 takes at least 15 handles from the ring, as far as there are so many, and a handle with
`p` handles ahead of it is out after `p / 15 + 1` batches (`bounded_overtaking`).
-/

namespace Novaio

open Transition

/-- `BATCH_PIPELINE_DEPTH`. -/
def batchPipelineDepth : ℕ := 16

/-- A call of `schedule` with a handle that is not null, or of `try_dequeue_batch` that writes a
batch. -/
inductive BatchOp (η : Type*) where
  | schedule (handle : η)
  | dequeue (batch : List η)

/-- The call is one of `try_dequeue_batch`. -/
def BatchOp.isDequeue {η : Type*} : BatchOp η → Bool
  | schedule _ => false
  | dequeue _ => true

namespace RunQueue

variable {η : Type*} {q q' : RunQueue η} {op : BatchOp η} {l : List (BatchOp η × RunQueue η)}

/-- The effect of a call, as the loop of the scheduler makes it. -/
def batchStep (q : RunQueue η) (op : BatchOp η) (q' : RunQueue η) : Prop :=
  match op with
  | .schedule h => q' = q.schedule (some h)
  | .dequeue batch => q.tryDequeueBatch batchPipelineDepth = (batch, q')

/-- The condition on a call that the ring does not hold more handles than its capacity after it. -/
def Fits (q : RunQueue η) : BatchOp η → Prop
  | .schedule _ => q.runnext ≠ none → q.localQueue.size < q.localQueue.capacity
  | .dequeue _ => True

/-- What a call puts into the ring. -/
def entering (q : RunQueue η) : BatchOp η → List η
  | .schedule h => if q.runnext.isNone then [] else [h]
  | .dequeue _ => []

/-- What a call takes out of the ring: its batch without the handle from `runnext_`. -/
def leaving (q : RunQueue η) : BatchOp η → List η
  | .schedule _ => []
  | .dequeue batch => batch.drop q.runnext.toList.length

/-- A batch is the handle from `runnext_`, if there is one, and the first handles of the ring. -/
theorem tryDequeueBatch_split {batch : List η} (hw : q.localQueue.WellFormed)
    (hstep : q.batchStep (.dequeue batch) q') :
    batch = q.runnext.toList ++ q.leaving (.dequeue batch) ∧ q'.runnext = none ∧
      q.localQueue.slots = (q.leaving (.dequeue batch)).map some ++ q'.localQueue.slots ∧
      q'.localQueue.WellFormed ∧
      min (batchPipelineDepth - 1) q.localQueue.slots.length ≤
        (q.leaving (.dequeue batch)).length := by
  obtain ⟨runnext, ring⟩ := q
  rw [batchStep, tryDequeueBatch] at hstep
  cases runnext with
  | none =>
    obtain ⟨hcat, hwf, hlen⟩ := LocalQueue.popBatch_spec batchPipelineDepth hw
    obtain ⟨rfl, rfl⟩ := Prod.mk.inj hstep
    refine ⟨rfl, rfl, hcat, hwf, ?_⟩
    show _ ≤ (ring.popBatch batchPipelineDepth).1.length
    rw [hlen]
    exact min_le_min_right _ (Nat.sub_le _ 1)
  | some h =>
    obtain ⟨hcat, hwf, hlen⟩ := LocalQueue.popBatch_spec (batchPipelineDepth - 1) hw
    obtain ⟨rfl, rfl⟩ := Prod.mk.inj hstep
    exact ⟨rfl, rfl, hcat, hwf, hlen.ge⟩

/-- The step lemma: what enters the ring is put behind what is in it, and what leaves it is taken
from the front. -/
theorem batchStep_spec (hw : q.localQueue.WellFormed) (hfits : q.Fits op)
    (hstep : q.batchStep op q') :
    q'.localQueue.WellFormed ∧
      q.localQueue.slots ++ (q.entering op).map some =
        (q.leaving op).map some ++ q'.localQueue.slots := by
  cases op with
  | schedule h =>
    obtain rfl := hstep
    refine ⟨schedule_wellFormed hw h, ?_⟩
    cases hnext : q.runnext with
    | none => simp [schedule, entering, leaving, hnext]
    | some g =>
      have hroom : q.localQueue.HasRoom h := .inl (hfits (by simp [hnext]))
      have hpush := LocalQueue.push_slots_of_hasRoom hw hroom
      simp [schedule, entering, leaving, hnext, hpush]
  | dequeue batch =>
    obtain ⟨-, -, hslots, hw', -⟩ := tryDequeueBatch_split hw hstep
    refine ⟨hw', ?_⟩
    rw [← hslots]
    exact List.append_nil _

/-- The run lemma: the handles of the ring come out in the order in which they went in. -/
theorem fifo_run (hw : q.localQueue.WellFormed) (hl : Path batchStep q l) (hfits : Meets Fits q l) :
    (last q l).localQueue.WellFormed ∧
      q.localQueue.slots ++ (collect entering q l).map some =
        (collect leaving q l).map some ++ (last q l).localQueue.slots := by
  induction l generalizing q with
  | nil => exact ⟨hw, List.append_nil _⟩
  | cons x l ih =>
    obtain ⟨hw₁, hstep⟩ := batchStep_spec hw hfits.1 hl.1
    obtain ⟨hw', hrest⟩ := ih hw₁ hl.2 hfits.2
    refine ⟨hw', ?_⟩
    calc q.localQueue.slots ++ (collect entering q (x :: l)).map some
        = q.localQueue.slots ++ (q.entering x.1).map some ++
            (collect entering x.2 l).map some := by
          rw [collect, List.map_append, List.append_assoc]
      _ = (q.leaving x.1).map some ++ (x.2.localQueue.slots ++
            (collect entering x.2 l).map some) := by
          rw [hstep, List.append_assoc]
      _ = (collect leaving q (x :: l)).map some ++ (last x.2 l).localQueue.slots := by
          rw [hrest, collect, List.map_append, List.append_assoc]

/-- In a run with `n` batches, at least 15 handles leave the ring for each batch, as far as there
were so many at the start. -/
theorem leaving_run (hw : q.localQueue.WellFormed) (hl : Path batchStep q l)
    (hfits : Meets Fits q l) :
    min ((batchPipelineDepth - 1) * l.countP (·.1.isDequeue)) q.localQueue.slots.length ≤
      (collect leaving q l).length := by
  induction l generalizing q with
  | nil => simp [collect]
  | cons x l ih =>
    obtain ⟨op, q'⟩ := x
    obtain ⟨hw₁, hstep⟩ := batchStep_spec hw hfits.1 hl.1
    have hrest := ih hw₁ hl.2 hfits.2
    have hlen := congrArg List.length hstep
    rw [List.length_append, List.length_append, List.length_map, List.length_map] at hlen
    rw [collect, List.length_append, List.countP_cons]
    cases op with
    | schedule h =>
      rw [BatchOp.isDequeue, if_neg Bool.false_ne_true, Nat.add_zero]
      simp only [leaving, List.length_nil] at hlen ⊢
      omega
    | dequeue batch =>
      obtain ⟨-, -, -, -, htaken⟩ := tryDequeueBatch_split hw hl.1
      rw [BatchOp.isDequeue, if_pos rfl, Nat.mul_add, Nat.mul_one]
      simp only [entering, List.length_nil] at hlen
      omega

end RunQueue

open RunQueue

/-- In every run from an empty ring, of any capacity up to `2^31` and with any counters, in which it
never holds more than its capacity: the handles of the ring come out in the order in which they
went in. The next batch is the handle from `runnext_`, if there is one, followed by handles from the
front of the ring. And a handle with `p` handles ahead of it in the ring is in one of the next
`p / 15 + 1` batches, whatever is scheduled in between. -/
theorem bounded_overtaking {η : Type*} (q₀ : RunQueue η)
    (hempty : q₀.localQueue.head = q₀.localQueue.tail) (hcap : q₀.localQueue.capacity ≤ 2 ^ 31)
    (l : List (BatchOp η × RunQueue η)) (hl : Path batchStep q₀ l) (hfits : Meets Fits q₀ l) :
    let q := last q₀ l
    (collect entering q₀ l).map some = (collect leaving q₀ l).map some ++ q.localQueue.slots ∧
      (∀ batch q', q.batchStep (.dequeue batch) q' →
        ∃ queued : List η, batch = q.runnext.toList ++ queued ∧ q'.runnext = none ∧
          q.localQueue.slots = queued.map some ++ q'.localQueue.slots) ∧
      ∀ p h, q.localQueue.slots[p]? = some (some h) → ∀ m, Path batchStep q m → Meets Fits q m →
        m.countP (·.1.isDequeue) = p / 15 + 1 →
        (collect leaving q m)[p]? = some h ∧ ∃ batch q', (.dequeue batch, q') ∈ m ∧ h ∈ batch := by
  intro q
  have hsize : q₀.localQueue.size = 0 :=
    (Ring.count_eq_zero_iff (LocalQueue.head_lt _) (LocalQueue.tail_lt _)).mpr (by rw [hempty])
  have hslots : q₀.localQueue.slots = [] := by
    rw [LocalQueue.slots, hsize, Ring.window_zero]
  have hw₀ : q₀.localQueue.WellFormed := ⟨hcap, by rw [hslots]; simp⟩
  obtain ⟨hw, hfifo⟩ : q.localQueue.WellFormed ∧ _ := fifo_run hw₀ hl hfits
  rw [hslots, List.nil_append] at hfifo
  refine ⟨hfifo, fun batch q' hstep => ?_, fun p h hp m hm hfits' hcount => ?_⟩
  · obtain ⟨hbatch, hnone, hsplit, -⟩ := tryDequeueBatch_split hw hstep
    exact ⟨_, hbatch, hnone, hsplit⟩
  · obtain ⟨-, hfifo'⟩ := fifo_run hw hm hfits'
    have htaken := leaving_run hw hm hfits'
    obtain ⟨hlt, -⟩ := List.getElem?_eq_some_iff.mp hp
    have hdepth : batchPipelineDepth - 1 = 15 := rfl
    rw [hcount, hdepth] at htaken
    have hout : p < (collect leaving q m).length := by omega
    -- The handle is at the same place of what is in the ring and of what leaves it.
    have hplace := congrArg (fun slots => slots[p]?) hfifo'
    rw [List.getElem?_append_left hlt, hp, List.getElem?_append_left (by rwa [List.length_map]),
      List.getElem?_map] at hplace
    obtain ⟨g, hg, hgh⟩ := Option.map_eq_some_iff.mp hplace.symm
    obtain rfl := Option.some.inj hgh
    refine ⟨hg, ?_⟩
    obtain ⟨⟨op, q'⟩, hx, t, hmem⟩ := exists_of_mem_collect (List.mem_of_getElem? hg)
    cases op with
    | schedule k => exact (List.not_mem_nil hmem).elim
    | dequeue batch => exact ⟨batch, q', hx, List.mem_of_mem_drop hmem⟩

/-- Three handles are scheduled on a new scheduler. The third one has one handle ahead of it in the
ring, and is in the next batch. -/
theorem bounded_overtaking_three :
    let q : RunQueue ℕ := (((RunQueue.new fun _ => none).schedule (some 1)).schedule
      (some 2)).schedule (some 3)
    ∀ m, Path batchStep q m → Meets Fits q m → m.countP (·.1.isDequeue) = 1 →
      ∃ batch q', (.dequeue batch, q') ∈ m ∧ 3 ∈ batch := by
  intro q m hm hfits hcount
  have hl : Path batchStep (RunQueue.new fun _ => none) [(.schedule 1, _), (.schedule 2, _),
      (.schedule 3, q)] := ⟨rfl, rfl, rfl, trivial⟩
  obtain ⟨-, -, hreturn⟩ := bounded_overtaking _ rfl (by decide) _ hl
    ⟨fun _ => by decide, fun _ => by decide, fun _ => by decide, trivial⟩
  exact (hreturn 1 3 (by decide +kernel) m hm hfits hcount).2

end Novaio
