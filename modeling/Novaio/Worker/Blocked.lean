import Novaio.Lib.Path
import Novaio.TimeWheel.Recount
import Novaio.Worker.Steps

/-!
# A blocked scheduler has nothing to do

A worker waits in `io_uring_wait_cqe` only after its run queue was empty and what it had prepared is
submitted (`Worker.Quiet`). A task that is pushed to its inbox after it has drained it comes with a
notification (`Workers.Notified`): the call of `dispatch_on` that pushed it has not returned, or the
message is prepared on the ring of the caller, in flight, or posted on the ring of the target. The
one call that returns without a message finds no ring, and then the target has not drained its
inbox yet.
-/

namespace Novaio

open Transition

/-! ## The places of the loop -/

namespace LoopPc

variable {κ : Type*}

/-- From this place the loop drains the inbox before it waits, or never waits again. -/
def drains : LoopPc κ → Bool
  | .created | .head | .ticking _ _ | .inbox _ | .task _ | .stopped | .crashed => true
  | _ => false

/-- The last call of `try_dequeue_batch` found nothing. -/
def dequeued : LoopPc κ → Bool
  | .submit | .plan | .wait _ => true
  | _ => false

/-- And what was prepared is submitted. -/
def submitted : LoopPc κ → Bool
  | .plan | .wait _ => true
  | _ => false

end LoopPc

/-! ## One worker -/

namespace Worker

variable {σ κ : Type*} {w w' : Worker σ κ} {running : Bool} {op : WorkerOp κ}

/-- The time that the loop has read last for its ticks. -/
def time (w : Worker σ κ) : UInt64 :=
  match w.pc with
  | .created => 0
  | .ticking _ now => now
  | _ => w.lastTickTime

/-- What holds of the run queue, the submission queue and the time wheel of every worker. -/
structure Quiet (w : Worker σ κ) : Prop where
  wellFormed : w.queue.localQueue.WellFormed
  queue : w.pc.dequeued = true → w.queue.contents = []
  sqes : w.pc.submitted = true → w.engine.sqes = []
  tick : w.wheel.currentTick ≤ w.time
  fresh : w.wheel.currentTick = 0 → w.wheel.Fresh
  count : w.pc = .wait none → w.wheel.activeTimers = 0

/-- The loop goes on, not towards waiting. -/
theorem Quiet.congr (h : Quiet w) (hpc : w'.pc.dequeued = false)
    (hqueue : w'.queue.localQueue.WellFormed) (hwheel : w'.wheel = w.wheel)
    (htime : w'.time = w.time) : Quiet w' := by
  have hsubmitted : w'.pc.submitted = false := by
    cases hpc' : w'.pc <;> rw [hpc'] at hpc <;> first | rfl | exact hpc
  refine ⟨hqueue, fun hd => ?_, fun hs => ?_, ?_, ?_, fun hw => ?_⟩
  · simp [hpc] at hd
  · simp [hsubmitted] at hs
  · rw [hwheel, htime]
    exact h.tick
  · rw [hwheel]
    exact h.fresh
  · simp [hw, LoopPc.dequeued] at hpc

/-- What concerns other threads leaves the worker quiet: its inbox, the completions, and what its
own user code prepares. -/
theorem Quiet.frame (h : Quiet w) (hpc : w'.pc = w.pc) (hqueue : w'.queue = w.queue)
    (hwheel : w'.wheel = w.wheel) (htime : w'.lastTickTime = w.lastTickTime)
    (hsqes : w.pc.submitted = true → w'.engine.sqes = w.engine.sqes) : Quiet w' := by
  have htime' : w'.time = w.time := by
    unfold time
    rw [hpc, htime]
  refine ⟨hqueue ▸ h.wellFormed, fun hd => ?_, fun hs => ?_, ?_, ?_, fun hw => ?_⟩
  · rw [hqueue]
    exact h.queue (hpc ▸ hd)
  · rw [hpc] at hs
    rw [hsqes hs]
    exact h.sqes hs
  · rw [hwheel, htime']
    exact h.tick
  · rw [hwheel]
    exact h.fresh
  · rw [hwheel]
    exact h.count (hpc ▸ hw)

/-- User code is not where the loop waits. -/
theorem not_dequeued_of_user (h : w.pc.user = true) : w.pc.dequeued = false := by
  cases hpc : w.pc <;> simp_all [LoopPc.user, LoopPc.dequeued]

/-- Scheduling handles keeps the queue well formed. -/
theorem schedule_foldl_wellFormed {α : Type*} (f : α → κ) (l : List α)
    (h : w.queue.localQueue.WellFormed) :
    (l.foldl (fun w a => w.schedule (f a)) w).queue.localQueue.WellFormed := by
  induction l generalizing w with
  | nil => exact h
  | cons a l ih => exact ih (RunQueue.schedule_wellFormed h (f a))

/-- Where the loop does not tick, it has read the time for the last tick. -/
theorem time_of_not_ticking (hcreated : w.pc ≠ .created) (h : ∀ t now, w.pc ≠ .ticking t now) :
    w.time = w.lastTickTime := by
  unfold time
  split
  · exact (hcreated ‹_›).elim
  · exact (h _ _ ‹_›).elim
  · rfl

/-- User code runs where the loop does not tick. -/
theorem time_of_user (h : w.pc.user = true) : w.time = w.lastTickTime := by
  refine time_of_not_ticking (ne_created_of_user h) fun t now hpc => ?_
  simp [hpc, LoopPc.user] at h

/-- User code changes neither the place of the loop nor the time wheel. -/
theorem Quiet.user (h : Quiet w) (huser : w.pc.user = true) (hpc : w'.pc = w.pc)
    (hqueue : w'.queue.localQueue.WellFormed) (hwheel : w'.wheel = w.wheel)
    (htime : w'.lastTickTime = w.lastTickTime) : Quiet w' := by
  refine h.congr (by rw [hpc, not_dequeued_of_user huser]) hqueue hwheel ?_
  rw [time_of_user huser, time_of_user (by rwa [hpc]), htime]

/-- A tick, and the coroutines that it schedules. -/
theorem Quiet.fire (h : Quiet w) {fuel : ℕ} {t now : UInt64} {wheel : TimeWheel ℕ κ}
    (hpc : w.pc = .ticking t now) (ht : t ≤ now) (hwheel : w.wheel.tick true fuel t = some wheel) :
    Quiet ((w.fire wheel).goto (.ticking (t + 1) now)) := by
  have htick := TimeWheel.tick_currentTick hwheel
  have hle := h.tick
  have htime : w.time = now := by simp [time, hpc]
  rw [htime, UInt64.le_iff_toNat_le] at hle
  rw [UInt64.le_iff_toNat_le] at ht
  refine ⟨schedule_foldl_wellFormed _ _ h.wellFormed, by simp [LoopPc.dequeued],
    by simp [LoopPc.submitted], ?_, fun hzero => ?_, by simp⟩
  · simp only [goto_wheel, fire_wheel]
    show _ ≤ now
    rw [UInt64.le_iff_toNat_le, htick]
    omega
  · -- A wheel that is at the tick 0 has not ticked.
    simp only [goto_wheel, fire_wheel] at hzero ⊢
    rw [hzero, UInt64.toNat_zero] at htick
    have h0 : w.wheel.currentTick = 0 := UInt64.toNat_inj.mp (by rw [UInt64.toNat_zero]; omega)
    have ht0 : t = 0 := UInt64.toNat_inj.mp (by rw [UInt64.toNat_zero]; omega)
    have hsame : w.wheel = wheel := by
      rw [ht0] at hwheel
      cases fuel <;> simpa [TimeWheel.tick, TimeWheel.tickLoop, h0] using hwheel
    exact hsame ▸ h.fresh h0

/-- The step lemma of one worker, where the clock has not gone back since the last tick. -/
theorem Quiet.step (h : Quiet w) (hstep : StepCase running w op w')
    (hclock : ∀ now, op = .plan now → w.lastTickTime ≤ now) : Quiet w' := by
  cases hstep with
  | init hpc hdepth =>
    refine ⟨h.wellFormed, by simp [LoopPc.dequeued], by simp [LoopPc.submitted], ?_, h.fresh,
      by simp⟩
    have htime : w.time = 0 := by simp [time, hpc]
    exact UInt64.le_trans (htime ▸ h.tick) (UInt64.le_iff_toNat_le.mpr (Nat.zero_le _))
  | startTicks hpc hnow =>
    refine ⟨h.wellFormed, by simp [LoopPc.dequeued], by simp [LoopPc.submitted], ?_, h.fresh,
      by simp⟩
    have htime : w.time = w.lastTickTime := time_of_not_ticking (by simp [hpc]) (by simp [hpc])
    exact UInt64.le_trans (htime ▸ h.tick) (UInt64.le_of_lt hnow)
  | tick hpc ht hwheel => exact h.fire hpc ht hwheel
  | endTicks hpc => exact h.congr rfl h.wellFormed rfl (by simp [time, hpc])
  | popTask polled task inbox hpc hpop =>
    rcases Worker.invoke_cases { w with inbox := inbox } polled task with hw | ⟨k, -, hw⟩ | hw <;>
      rw [hw]
    · exact h.congr (by simp [hpc, LoopPc.dequeued]) h.wellFormed rfl (by simp [time, hpc])
    · exact h.congr (by simp [hpc, LoopPc.dequeued])
        (RunQueue.schedule_wellFormed h.wellFormed k) rfl (by simp [time, hpc])
    · exact h.congr rfl h.wellFormed rfl (by simp [time, hpc])
  | popNone hpc hpop =>
    refine h.congr ?_ h.wellFormed rfl ?_
    · rw [goto_pc]
      split_ifs <;> rfl
    · unfold time
      rw [goto_pc, hpc]
      split_ifs <;> rfl
  | dequeueNone hpc hnone =>
    obtain ⟨hcontents, hwellFormed, hlength⟩ :=
      RunQueue.tryDequeueBatch_spec 16 (by decide) h.wellFormed
    have htime : w.time = w.lastTickTime := time_of_not_ticking (by simp [hpc]) (by simp [hpc])
    -- A batch is empty only if the queue is.
    refine ⟨hwellFormed, fun _ => ?_, by simp [LoopPc.submitted], htime ▸ h.tick, h.fresh, by simp⟩
    have hnil : w.queue.contents = [] := by
      rw [hnone, List.length_nil] at hlength
      exact List.length_eq_zero_iff.mp (by omega)
    rw [hnil, hnone] at hcontents
    simpa using hcontents.symm
  | dequeue hpc hhandles =>
    exact h.congr rfl (RunQueue.tryDequeueBatch_spec 16 (by decide) h.wellFormed).2.1 rfl
      (by simp [time, hpc])
  | planForever hpc htimeout =>
    have htime : w.time = w.lastTickTime := time_of_not_ticking (by simp [hpc]) (by simp [hpc])
    have htick : w.wheel.currentTick ≤ w.lastTickTime := htime ▸ h.tick
    refine ⟨h.wellFormed, fun _ => h.queue (by rw [hpc]; rfl), fun _ => h.sqes (by rw [hpc]; rfl),
      htick, h.fresh, fun _ => ?_⟩
    rcases TimeWheel.nextTimeout_eq_neg_one htimeout with hzero | ⟨rfl, i, n, hhead, hexpires⟩
    · exact hzero
    · -- At the time 0, the wheel has not ticked, and no timer expires that late.
      have h0 := UInt64.le_iff_toNat_le.mp (UInt64.le_trans htick (hclock 0 rfl))
      have hfresh := h.fresh (UInt64.toNat_inj.mp (Nat.le_zero.mp h0))
      have hlt := hfresh.expiresAt i n hhead
      rw [hexpires] at hlt
      exact absurd hlt (by decide)
  | planTimeout hpc =>
    have htime : w.time = w.lastTickTime := time_of_not_ticking (by simp [hpc]) (by simp [hpc])
    have htick : w.wheel.currentTick ≤ w.lastTickTime := htime ▸ h.tick
    exact ⟨h.wellFormed, fun _ => h.queue (by rw [hpc]; rfl), fun _ => h.sqes (by rw [hpc]; rfl),
      htick, h.fresh, by simp⟩
  | poll cqe cqes hpc hcqes =>
    obtain ⟨hw, -⟩ | ⟨ctx, -, _, rfl, ⟨-, hw⟩ | ⟨k, -, hw⟩⟩ | ⟨hw, -⟩ | ⟨k, -, hw⟩ | ⟨-, hw⟩ :=
      Worker.handle_cases { w with engine := { w.engine with cqes := cqes } } cqe <;> rw [hw]
    · exact h.congr (by simp [hpc, LoopPc.dequeued]) h.wellFormed rfl (by simp [time, hpc])
    · exact h.congr (by simp [hpc, LoopPc.dequeued]) h.wellFormed rfl (by simp [time, hpc])
    · exact h.congr (by simp [hpc, LoopPc.dequeued])
        (RunQueue.schedule_wellFormed h.wellFormed k) rfl (by simp [time, hpc])
    · exact h.congr rfl h.wellFormed rfl (by simp [time, hpc])
    · exact h.congr (by simp [hpc, LoopPc.dequeued])
        (RunQueue.schedule_wellFormed h.wellFormed k) rfl (by simp [time, hpc])
    · exact h.congr rfl h.wellFormed rfl (by simp [time, hpc])
  | schedule huser =>
    exact h.user huser rfl (RunQueue.schedule_wellFormed h.wellFormed _) rfl rfl
  | sleepFor huser hnode =>
    have hpc := not_dequeued_of_user huser
    -- The wheel is armed, and it has not ticked if it had not before.
    refine ⟨h.wellFormed, h.queue, h.sqes, ?_, fun hzero => ?_, fun hw => ?_⟩
    · show (w.wheel.arm _ _ _).currentTick ≤ w.time
      rw [(TimeWheel.arm_currentTick _ _ _ _).1]
      exact h.tick
    · have h0 := (TimeWheel.arm_currentTick w.wheel _ _ _).1.symm.trans hzero
      exact (h.fresh h0).arm h0 hnode
    · have hwait : w.pc = .wait none := hw
      simp [hwait, LoopPc.dequeued] at hpc
  | call huser hcall => exact h.user huser rfl h.wellFormed rfl rfl
  | callNull huser hcall =>
    refine h.congr rfl h.wellFormed rfl ?_
    rw [time_of_user huser]
    rfl
  | await huser => exact h.user huser rfl h.wellFormed rfl rfl
  | cancel huser => exact h.user huser rfl h.wellFormed rfl rfl
  | _ hpc => exact h.congr rfl h.wellFormed rfl (by simp [time, hpc])

/-! ## The inbox of one worker -/

/-- A notification is posted on the worker's ring. -/
def HasNotification (w : Worker σ κ) : Prop := ∃ cqe ∈ w.engine.cqes, cqe.userData = .inbox

/-- The inbox is empty when `pop` takes nothing. -/
theorem empty_of_pop {inbox : SpscQueue (UniqueTask (Closure κ Unit))}
    (h : w.inbox.pop = some (none, inbox)) : w.inbox.head = w.inbox.tail := by
  unfold SpscQueue.pop at h
  split_ifs at h with hempty
  · exact hempty
  · split at h <;> simp at h

/-- The step lemma for the inbox of one worker: where something else sees to it, or a notification
is posted, or the loop drains it, that remains so, or the inbox is empty. -/
theorem inbox_step {P : Prop} (hstep : StepCase running w op w')
    (h : w.inbox.head ≠ w.inbox.tail → w.pc.drains = true ∨ w.HasNotification ∨ P)
    (hne : w'.inbox.head ≠ w'.inbox.tail) : w'.pc.drains = true ∨ w'.HasNotification ∨ P := by
  cases hstep with
  | popTask polled task inbox hpc hpop =>
    rcases invoke_pc { w with inbox := inbox } polled task with hpc' | hpc'
    · exact .inl (by rw [hpc', hpc]; rfl)
    · exact .inl (by rw [hpc']; rfl)
  | popNone hpc hpop => exact (hne (empty_of_pop hpop)).elim
  | dequeueNone hpc hnone => exact .inr ((h hne).resolve_left (by simp [hpc, LoopPc.drains]))
  | dequeue hpc hhandles => exact .inr ((h hne).resolve_left (by simp [hpc, LoopPc.drains]))
  | skip hpc => exact .inr ((h hne).resolve_left (by simp [hpc, LoopPc.drains]))
  | resume hpc => exact .inr ((h hne).resolve_left (by simp [hpc, LoopPc.drains]))
  | endBatch hpc => exact .inr ((h hne).resolve_left (by simp [hpc, LoopPc.drains]))
  | planForever hpc htimeout => exact .inr ((h hne).resolve_left (by simp [hpc, LoopPc.drains]))
  | planPoll hpc => exact .inr ((h hne).resolve_left (by simp [hpc, LoopPc.drains]))
  | planTimeout hpc => exact .inr ((h hne).resolve_left (by simp [hpc, LoopPc.drains]))
  | wake hpc => exact .inr ((h hne).resolve_left (by simp [hpc, LoopPc.drains]))
  | timeout hpc => exact .inr ((h hne).resolve_left (by simp [hpc, LoopPc.drains]))
  | poll cqe cqes hpc hcqes =>
    obtain ⟨hinbox, -, -, -, -, hcqes'⟩ :=
      handle_frame { w with engine := { w.engine with cqes := cqes } } cqe
    rw [hinbox] at hne
    -- The completion that is handled is a notification, after which the inbox is drained, or not.
    rcases (h hne).resolve_left (by simp [hpc, LoopPc.drains]) with ⟨cqe', hmem, hdata⟩ | hP
    · rw [hcqes] at hmem
      rcases List.mem_cons.mp hmem with rfl | hmem
      · rcases handle_pc { w with engine := { w.engine with cqes := cqes } } cqe' with
          ⟨-, hno⟩ | hpc'
        · exact (hno hdata).elim
        · exact .inl (by rw [hpc']; rfl)
      · exact .inr (.inl ⟨cqe', by rwa [hcqes'], hdata⟩)
    · exact .inr (.inr hP)
  | schedule huser => exact h hne
  | sleepFor huser hnode => exact h hne
  | call huser hcall =>
    obtain ⟨sqe, hprepared, -⟩ := IoEngine.prepared_of_call hcall
    refine (h hne).imp_right (.imp_left fun hcqe => ?_)
    show ∃ cqe ∈ _, _
    rwa [hprepared.cqes]
  | await huser => exact h hne
  | cancel huser => exact h hne
  | leaveCoroutine hpc => exact .inr ((h hne).resolve_left (by simp [hpc, LoopPc.drains]))
  | leaveCallback hpc => exact .inr ((h hne).resolve_left (by simp [hpc, LoopPc.drains]))
  | _ => exact .inl rfl

/-- The condition on a step that the count of timers has room: for the timer of a coroutine that
starts to sleep, and for those that a tick moves. -/
def Counts (w : Worker σ κ) : WorkerOp κ → Prop
  | .sleepFor _ _ _ _ => w.wheel.activeTimers ≠ -1
  | .tick _ => ∀ t now, w.pc = .ticking t now → w.wheel.Fits t
  | _ => True

/-- The step lemma for the timers of one worker. -/
theorem covered_step (hstep : StepCase running w op w') (hcovered : w.wheel.Covered)
    (hcounts : w.Counts op) : w'.wheel.Covered := by
  cases hstep with
  | tick hpc ht hwheel =>
    rw [goto_wheel, fire_wheel]
    exact hcovered.tick (hcounts _ _ hpc) hwheel
  | popTask polled task inbox hpc hpop => simpa using hcovered
  | poll cqe cqes hpc hcqes => simpa using hcovered
  | sleepFor huser hnode => exact hcovered.arm hnode hcounts _ _
  | _ => exact hcovered

/-- What a worker has prepared stays prepared until it is submitted. -/
theorem mem_sqes_step {sqe : Sqe σ κ} (hstep : StepCase running w op w')
    (h : sqe ∈ w.engine.sqes) : sqe ∈ w'.engine.sqes := by
  cases hstep with
  | popTask polled task inbox hpc hpop => simpa using h
  | tick hpc ht hwheel => simpa using h
  | poll cqe cqes hpc hcqes => simpa using h
  | call huser hcall =>
    obtain ⟨_, hprepared, -⟩ := IoEngine.prepared_of_call hcall
    rw [hprepared.sqes]
    exact List.mem_append_left _ h
  | _ => exact h

end Worker

/-! ## All workers -/

namespace Workers

variable {σ τ κ : Type*} {s t : Workers σ τ κ} {i : σ}

/-- A notification for the worker `i` is under way: a call of `dispatch_on` has not returned, or a
message is prepared or in flight. -/
def Underway (s : Workers σ τ κ) (i : σ) : Prop :=
  (∃ origin, (origin, .msgRing i .inbox) ∈ s.inFlight) ∨
    (∃ j, .msgRing i .inbox ∈ (s.workers j).engine.sqes) ∨ ∃ c, (s.calls c).Targets i

/-- What holds of every runtime: no task is left in an inbox without a notification. -/
structure Awake (s : Workers σ τ κ) : Prop where
  sound : Sound s
  quiet : ∀ i, (s.workers i).Quiet
  notified : ∀ i, (s.workers i).inbox.head ≠ (s.workers i).inbox.tail →
    (s.workers i).pc.drains = true ∨ (s.workers i).HasNotification ∨ s.Underway i

/-- A message stays under way when it is submitted. -/
theorem Underway.mono (h : s.Underway i) (hflight : ∀ e ∈ s.inFlight, e ∈ t.inFlight)
    (hsqes : ∀ j, ∀ sqe ∈ (s.workers j).engine.sqes,
      sqe ∈ (t.workers j).engine.sqes ∨ (some j, sqe) ∈ t.inFlight)
    (hcalls : ∀ c, (s.calls c).Targets i → t.Underway i) : t.Underway i := by
  rcases h with ⟨origin, hmem⟩ | ⟨j, hmem⟩ | ⟨c, hc⟩
  · exact .inl ⟨origin, hflight _ hmem⟩
  · rcases hsqes j _ hmem with hmem | hmem
    · exact .inr (.inl ⟨j, hmem⟩)
    · exact .inl ⟨_, hmem⟩
  · exact hcalls c hc

variable [DecidableEq σ] [DecidableEq τ]

/-- A call of `dispatch_on` goes on. -/
theorem Underway.setCall (h : s.Underway i) (c : σ ⊕ τ) (pc : DispatchPc σ)
    (hc : (s.calls c).Targets i → (s.setCall c pc).Underway i) : (s.setCall c pc).Underway i := by
  refine h.mono (fun _ he => he) (fun _ _ => .inl) fun c' hc' => ?_
  rcases eq_or_ne c' c with rfl | hne
  · exact hc hc'
  · refine .inr (.inr ⟨c', ?_⟩)
    have hcall : (s.setCall c pc).calls c' = s.calls c' := Function.update_of_ne hne _ _
    rwa [hcall]

/-- A call of `dispatch_on` that has not returned. -/
theorem underway_of_call (s : Workers σ τ κ) (c : σ ⊕ τ) {pc : DispatchPc σ} (hpc : pc.Targets i) :
    (s.setCall c pc).Underway i := by
  refine .inr (.inr ⟨c, ?_⟩)
  have hcall : (s.setCall c pc).calls c = pc := Function.update_self _ _ _
  rwa [hcall]

omit [DecidableEq τ] in
/-- A worker changes, and keeps what it has prepared. -/
theorem Underway.setWorker {j : σ} {w : Worker σ κ} (h : s.Underway i)
    (hw : ∀ sqe ∈ (s.workers j).engine.sqes, sqe ∈ w.engine.sqes) :
    (s.setWorker j w).Underway i := by
  refine h.mono (fun _ he => he) (fun k sqe hsqe => .inl ?_) fun c hc => .inr (.inr ⟨c, hc⟩)
  rcases eq_or_ne k j with rfl | hne
  · rw [setWorker_self]
    exact hw sqe hsqe
  · rwa [setWorker_of_ne s w hne]

/-- The conditions on a step that concern what the code relies on: `io_uring_submit` submits every
prepared entry, and the clock does not go back between the last tick and the wait. -/
def Dependable (s : Workers σ τ κ) : WorkersOp σ τ κ → Prop
  | .submit _ ok | .notifyInbox (.inl _) ok | .notifyCoro (.inl _) _ _ ok => ok = true
  | .worker i (.plan now) => (s.workers i).lastTickTime ≤ now
  | _ => True

/-- A step of one worker. -/
theorem Awake.worker (h : Awake s) {op : WorkerOp κ} {w : Worker σ κ}
    (hidle : s.calls (.inl i) = .idle) (hw : Worker.StepCase s.isRunning (s.workers i) op w)
    (hclock : ∀ now, op = .plan now → (s.workers i).lastTickTime ≤ now) :
    Awake (s.setWorker i w) := by
  refine ⟨h.sound.step (.worker i op w hidle hw),
    forall_setWorker h.quiet ((h.quiet i).step hw hclock), fun j hne => ?_⟩
  have hmono (hunder : s.Underway j) : (s.setWorker i w).Underway j :=
    hunder.setWorker fun _ hsqe => Worker.mem_sqes_step hw hsqe
  rcases eq_or_ne j i with rfl | hji
  · rw [setWorker_self] at hne ⊢
    exact (Worker.inbox_step hw (h.notified j) hne).imp_right (.imp_right hmono)
  · rw [setWorker_of_ne s w hji] at hne ⊢
    exact (h.notified j hne).imp_right (.imp_right hmono)

omit [DecidableEq τ] in
/-- What a worker has prepared is submitted. -/
theorem Awake.submit (h : Awake s) {t : Workers σ τ κ} (hsound : Sound t)
    (hpc : (s.workers i).pc = .submit)
    (hworkers : t.workers = (s.setWorker i { s.workers i with
      engine := { (s.workers i).engine with sqes := [] }, pc := .plan }).workers)
    (hflight : t.inFlight = s.inFlight ++ (s.workers i).engine.sqes.map fun sqe => (some i, sqe))
    (hcalls : t.calls = s.calls) : Awake t := by
  have hquiet := h.quiet i
  have htime : (s.workers i).time = (s.workers i).lastTickTime :=
    Worker.time_of_not_ticking (by simp [hpc]) (by simp [hpc])
  have htick : (s.workers i).wheel.currentTick ≤ (s.workers i).lastTickTime := htime ▸ hquiet.tick
  -- After the submission nothing is prepared any more.
  have hplan : ({ s.workers i with
      engine := { (s.workers i).engine with sqes := [] }, pc := .plan } : Worker σ κ).Quiet :=
    ⟨hquiet.wellFormed, fun _ => hquiet.queue (by rw [hpc]; rfl), fun _ => rfl, htick,
      hquiet.fresh, by simp⟩
  refine ⟨hsound, fun j => ?_, fun j hne => ?_⟩
  · rw [hworkers]
    exact forall_setWorker h.quiet hplan j
  · -- What was underway in an entry of the queue is in flight now.
    have hmono (hunder : s.Underway j) : t.Underway j := by
      refine hunder.mono (fun e he => ?_) (fun k sqe hsqe => ?_) fun c hc => ?_
      · rw [hflight]
        exact List.mem_append_left _ he
      · rw [hworkers, hflight]
        rcases eq_or_ne k i with rfl | hki
        · exact .inr (by simp [hsqe])
        · rw [setWorker_of_ne s _ hki]
          exact .inl hsqe
      · exact .inr (.inr ⟨c, by rwa [hcalls]⟩)
    rw [hworkers] at hne ⊢
    rcases eq_or_ne j i with rfl | hji
    · rw [setWorker_self] at hne ⊢
      exact .inr (((h.notified j hne).resolve_left (by simp [hpc, LoopPc.drains])).imp_right hmono)
    · rw [setWorker_of_ne s _ hji] at hne ⊢
      exact (h.notified j hne).imp_right (.imp_right hmono)

omit [DecidableEq τ] in
/-- A message is sent, where `io_uring_submit` submits what is prepared: nothing that is under way
is lost, and the message is. -/
theorem notifyTargetRing_underway (hsound : Sound s) {c : σ ⊕ τ} (hacts : s.acts c = true)
    (target : σ) (data : UserData κ) (ok : Bool) (hok : ∀ i, c = .inl i → ok = true) :
    let t := s.notifyTargetRing c target data ok
    (∀ j, (t.workers j).pc = (s.workers j).pc) ∧ (∀ e ∈ s.inFlight, e ∈ t.inFlight) ∧
      (∀ j, ∀ sqe ∈ (s.workers j).engine.sqes,
        sqe ∈ (t.workers j).engine.sqes ∨ (some j, sqe) ∈ t.inFlight) ∧
      (∀ j, c ≠ .inl j → (t.workers j).engine.sqes = (s.workers j).engine.sqes) ∧
      ((∃ origin, (origin, .msgRing target data) ∈ t.inFlight) ∨
        ∃ j, .msgRing target data ∈ (t.workers j).engine.sqes) := by
  -- A worker prepares the message, or crashes. Another thread submits it.
  obtain ⟨i, rfl, ⟨sqes, submitted, hsqes, hs⟩ | ⟨hnone, -⟩⟩ | ⟨x, rfl, hs⟩ :=
    notifyTargetRing_cases s c target data ok
  · simp only [hs]
    refine ⟨fun j => ?_, fun e he => List.mem_append_left _ he, fun j sqe hsqe => ?_,
      fun j hj => ?_, .inr ⟨i, ?_⟩⟩
    · rcases eq_or_ne j i with rfl | hne
      · simp
      · simp [setWorker_of_ne s _ hne]
    · rcases eq_or_ne j i with rfl | hne
      · rcases hsqes with ⟨rfl, rfl⟩ | ⟨rfl, rfl⟩
        · simp [hsqe]
        · simp [hsqe]
      · simp [setWorker_of_ne s _ hne, hsqe]
    · have hne : j ≠ i := fun heq => hj (heq ▸ rfl)
      simp [setWorker_of_ne s _ hne]
    · simp
  · -- There is room for the message, once the queue has been submitted.
    rw [IoEngine.sendMsgRing_eq_none_iff _ _ _ _ (hsound.depth_pos hacts), hok i rfl] at hnone
    exact absurd hnone.2 (by simp)
  · simp only [hs]
    exact ⟨fun _ => trivial, fun e he => List.mem_append_left _ he, fun j sqe hsqe => .inl hsqe,
      fun _ _ => trivial, .inl ⟨none, by simp⟩⟩

omit [DecidableEq τ] in
/-- A message is sent, and the caller's call goes on. -/
theorem Awake.notify (h : Awake s) {c : σ ⊕ τ} (hacts : s.acts c = true) (target : σ)
    (data : UserData κ) (ok : Bool) (hok : ∀ i, c = .inl i → ok = true) (hsound : Sound t)
    (hworkers : t.workers = (s.notifyTargetRing c target data ok).workers)
    (hflight : t.inFlight = (s.notifyTargetRing c target data ok).inFlight)
    (hcalls : ∀ c' j, (s.calls c').Targets j → t.Underway j) : Awake t := by
  obtain ⟨hpc, hinFlight, hsqes, hothers, -⟩ :=
    notifyTargetRing_underway h.sound hacts target data ok hok
  rw [← hworkers, ← hflight] at hsqes
  rw [← hworkers] at hpc hothers
  rw [← hflight] at hinFlight
  obtain ⟨-, -, hframe⟩ := notifyTargetRing_frame s c target data ok
  rw [← hworkers] at hframe
  refine ⟨hsound, fun j => ?_, fun j hne => ?_⟩
  · obtain ⟨-, hqueue, -, hwheel, htime, -⟩ := hframe j
    refine (h.quiet j).frame (hpc j) hqueue hwheel htime fun hsubmitted => hothers j ?_
    rintro rfl
    have huser : (s.workers j).pc.user = true := hacts
    cases hpc' : (s.workers j).pc <;> simp [hpc', LoopPc.user, LoopPc.submitted] at huser hsubmitted
  · obtain ⟨-, -, hinbox, -, -, -, -, hcqes, -⟩ := hframe j
    rw [hinbox] at hne
    rw [hpc j, Worker.HasNotification, hcqes]
    exact (h.notified j hne).imp_right (.imp_right fun hunder =>
      hunder.mono hinFlight hsqes fun c' hc' => hcalls c' j hc')

omit [DecidableEq σ] [DecidableEq τ] in
/-- The kernel posts completions: what it takes out of flight, it posts. -/
theorem Awake.post (h : Awake s) (hsound : Sound t)
    (hposted : ∀ j, ∃ posted, Posted (s.workers j) (t.workers j) posted)
    (hcalls : t.calls = s.calls)
    (hflight : ∀ e ∈ s.inFlight, e ∈ t.inFlight ∨
      ∀ i, e.2 = .msgRing i .inbox → (t.workers i).HasNotification) : Awake t := by
  refine ⟨hsound, fun j => ?_, fun j hne => ?_⟩
  · obtain ⟨posted, hj⟩ := hposted j
    exact (h.quiet j).frame hj.pc hj.queue hj.wheel hj.lastTickTime fun _ => by rw [hj.engine]
  · obtain ⟨posted, hj⟩ := hposted j
    rw [hj.inbox] at hne
    rw [hj.pc]
    refine (h.notified j hne).imp_right ?_
    rintro (⟨cqe, hcqe, hdata⟩ | ⟨origin, hmem⟩ | ⟨k, hmem⟩ | ⟨c, hc⟩)
    · refine .inl ⟨cqe, ?_, hdata⟩
      rw [hj.engine]
      exact List.mem_append_left _ hcqe
    · rcases hflight _ hmem with hmem | hnotified
      · exact .inr (.inl ⟨origin, hmem⟩)
      · exact .inl (hnotified j rfl)
    · obtain ⟨posted, hk⟩ := hposted k
      exact .inr (.inr (.inl ⟨k, by rwa [hk.engine]⟩))
    · exact .inr (.inr (.inr ⟨c, by rwa [hcalls]⟩))

/-- The step lemma: a runtime stays awake. -/
theorem Awake.step (h : Awake s) {op : WorkersOp σ τ κ} (hstep : StepCase s op t)
    (hdep : Dependable s op) : Awake t := by
  have hsound := h.sound.step hstep
  cases hstep with
  | worker i op w hidle hw =>
    refine h.worker hidle hw ?_
    rintro now rfl
    exact hdep
  | submit i hpc => exact h.submit hsound hpc rfl rfl rfl
  | submitFails i hpc => exact absurd hdep (by simp [Dependable])
  | push c target task inbox hidle hacts hpush =>
    refine ⟨hsound, forall_setWorker h.quiet ((h.quiet target).frame rfl rfl rfl rfl fun _ => rfl),
      fun j hne => ?_⟩
    -- The call that has pushed goes on to notify the target.
    rcases eq_or_ne j target with rfl | hj
    · exact .inr (.inr (underway_of_call _ c rfl))
    · have hsame : (s.setWorker target { s.workers target with inbox := inbox }).workers j =
          s.workers j := setWorker_of_ne s _ hj
      simp only [setCall, hsame] at hne ⊢
      refine (h.notified j hne).imp_right (.imp_right fun hunder => ?_)
      have hpushed : (s.setWorker target { s.workers target with inbox := inbox }).Underway j :=
        hunder.setWorker fun _ hsqe => hsqe
      refine hpushed.setCall c _ fun hc => ?_
      have hnone : ¬ (s.calls c).Targets j := by simp [hidle, DispatchPc.Targets]
      exact (hnone hc).elim
  | pushFull => exact h
  | ringFd c target hcall =>
    refine ⟨hsound, h.quiet, fun j hne =>
      (h.notified j hne).imp_right (.imp_right fun hunder => ?_)⟩
    refine hunder.setCall c _ fun hc => underway_of_call s c ?_
    rwa [hcall] at hc
  | noRing c target hcall hinit =>
    refine ⟨hsound, h.quiet, fun j hne => ?_⟩
    by_cases hj : j = target
    · -- The target has no ring, so that it is still before its loop.
      have hpc : (s.workers j).pc = .created := by
        by_contra hpc
        have := (h.sound.rings j).initialized hpc
        simp [hj, hinit] at this
      exact .inl (show (s.workers j).pc.drains = true by rw [hpc]; rfl)
    · refine (h.notified j hne).imp_right (.imp_right fun hunder => ?_)
      refine hunder.setCall c _ fun hc => ?_
      rw [hcall] at hc
      exact (hj hc.symm).elim
  | notifyInbox c target ok hcall =>
    refine h.notify (h.sound.acts (by simp [hcall])) target .inbox ok ?_ hsound rfl rfl
      fun c' j hc' => ?_
    · rintro i rfl
      exact hdep
    · -- The call is over, and its message is underway.
      have hacts := h.sound.acts (c := c) (by simp [hcall])
      obtain ⟨-, -, -, -, hmessage⟩ := notifyTargetRing_underway h.sound hacts target .inbox ok
        (by rintro i rfl; exact hdep)
      obtain ⟨hcalls, -⟩ := notifyTargetRing_frame s c target .inbox ok
      rcases eq_or_ne c' c with rfl | hne
      · rw [hcall] at hc'
        obtain rfl : target = j := hc'
        exact hmessage.imp_right .inl
      · refine .inr (.inr ⟨c', ?_⟩)
        have hsame : ((s.notifyTargetRing c target .inbox ok).setCall c .idle).calls c' =
            s.calls c' := (Function.update_of_ne hne _ _).trans (congrFun hcalls c')
        rwa [hsame]
  | notifyCoro c target k ok hidle hacts =>
    refine h.notify hacts target (.coro k) ok ?_ hsound rfl rfl fun c' j hc' => ?_
    · rintro i rfl
      exact hdep
    · obtain ⟨hcalls, -⟩ := notifyTargetRing_frame s c target (.coro k) ok
      exact .inr (.inr ⟨c', by rwa [hcalls]⟩)
  | complete n origin sqe result more hentry =>
    obtain ⟨-, -, hcalls, hposted⟩ := completeEntry_posted s origin sqe result
    refine h.post hsound (fun j => ⟨_, hposted j⟩) hcalls fun e he => ?_
    obtain ⟨m, hm⟩ := List.mem_iff_getElem?.mp he
    by_cases hmn : m = n
    · -- The entry that completes, which the kernel posts on the ring of its target.
      right
      intro i hmessage
      rw [hmn, hentry] at hm
      obtain rfl : sqe = .msgRing i .inbox := by
        rw [← hmessage, ← Option.some.inj hm]
      refine ⟨⟨.inbox, ⟨0, 0⟩⟩, ?_, rfl⟩
      show _ ∈ ((s.completeEntry origin (.msgRing i .inbox) result).workers i).engine.cqes
      rw [(hposted i).engine]
      simp [postedOn]
    · exact .inl (List.mem_eraseIdx_iff_getElem?.mpr ⟨m, hmn, hm⟩)
  | completeMore n origin sqe result hentry hsqe =>
    obtain ⟨-, hflight, hcalls, hposted⟩ := completeEntry_posted s origin sqe result
    exact h.post hsound (fun j => ⟨_, hposted j⟩) hcalls fun e he => .inl (by rwa [hflight])
  | stop => exact ⟨hsound, h.quiet, h.notified⟩

/-- The condition on a step that it keeps the count of timers of the worker `i`. -/
def Counts (i : σ) (s : Workers σ τ κ) : WorkersOp σ τ κ → Prop
  | .worker j op => j = i → (s.workers i).Counts op
  | _ => True

omit [DecidableEq τ] in
/-- A worker changes, and its wheel stays the same. -/
theorem covered_setWorker {j : σ} {w : Worker σ κ} (hwheel : w.wheel = (s.workers j).wheel)
    (h : (s.workers i).wheel.Covered) : ((s.setWorker j w).workers i).wheel.Covered := by
  rcases eq_or_ne i j with rfl | hne
  · rwa [setWorker_self, hwheel]
  · rwa [setWorker_of_ne s w hne]

/-- The step lemma for the timers. -/
theorem covered_step {op : WorkersOp σ τ κ} (hstep : StepCase s op t)
    (h : (s.workers i).wheel.Covered) (hcounts : Counts i s op) : (t.workers i).wheel.Covered := by
  cases hstep with
  | worker j op w hcall hw =>
    rcases eq_or_ne i j with rfl | hne
    · rw [setWorker_self]
      exact Worker.covered_step hw h (hcounts rfl)
    · rwa [setWorker_of_ne s w hne]
  | submit j hpc => exact covered_setWorker rfl h
  | submitFails j hpc => exact covered_setWorker rfl h
  | push c target task inbox hcall hacts hpush => exact covered_setWorker rfl h
  | notifyInbox c target ok hcall =>
    obtain ⟨-, -, hframe⟩ := notifyTargetRing_frame s c target .inbox ok
    obtain ⟨-, -, -, hwheel, -⟩ := hframe i
    exact hwheel ▸ h
  | notifyCoro c target k ok hcall hacts =>
    obtain ⟨-, -, hframe⟩ := notifyTargetRing_frame s c target (.coro k) ok
    obtain ⟨-, -, -, hwheel, -⟩ := hframe i
    exact hwheel ▸ h
  | complete n origin sqe result more hentry =>
    have hwheel := ((completeEntry_posted s origin sqe result).2.2.2 i).wheel
    exact hwheel ▸ h
  | completeMore n origin sqe result hentry hsqe =>
    have hwheel := ((completeEntry_posted s origin sqe result).2.2.2 i).wheel
    exact hwheel ▸ h
  | _ => exact h

/-- What a blocked worker has to do: nothing, and what is pushed to its inbox comes with a
notification. -/
structure NothingToDo (s : Workers σ τ κ) (i : σ) : Prop where
  runnext : (s.workers i).queue.runnext = none
  localQueue : (s.workers i).queue.localQueue.head = (s.workers i).queue.localQueue.tail
  sqes : (s.workers i).engine.sqes = []
  activeTimers : (s.workers i).pc = .wait none → (s.workers i).wheel.activeTimers = 0
  inbox : (s.workers i).inbox.head ≠ (s.workers i).inbox.tail →
    (∃ origin, (origin, .msgRing i .inbox) ∈ s.inFlight) ∨
      (∃ j, ¬ (s.workers j).Blocked ∧ .msgRing i .inbox ∈ (s.workers j).engine.sqes) ∨
      ∃ c, (s.calls c).Targets i

omit [DecidableEq σ] [DecidableEq τ] in
/-- A blocked worker of a runtime that is awake has nothing to do. -/
theorem Awake.nothingToDo (h : Awake s) (hblocked : (s.workers i).Blocked) : s.NothingToDo i := by
  have hpc (j : σ) (hj : (s.workers j).Blocked) :
      (s.workers j).pc.dequeued = true ∧ (s.workers j).pc.submitted = true ∧
        (s.workers j).pc.drains = false := by
    obtain ⟨⟨timeout, hpc⟩, -⟩ := hj
    rw [hpc]
    exact ⟨rfl, rfl, rfl⟩
  obtain ⟨hdequeued, -, hdrains⟩ := hpc i hblocked
  have hqueue := (h.quiet i).queue hdequeued
  obtain ⟨hrunnext, hslots⟩ := List.append_eq_nil_iff.mp hqueue
  have hsqes (j : σ) (hj : (s.workers j).Blocked) : (s.workers j).engine.sqes = [] :=
    (h.quiet j).sqes (hpc j hj).2.1
  refine ⟨?_, ?_, hsqes i hblocked, (h.quiet i).count, fun hne => ?_⟩
  · cases hr : (s.workers i).queue.runnext with
    | none => rfl
    | some k => simp [hr] at hrunnext
  · have hsize : (s.workers i).queue.localQueue.size = 0 := by
      rw [← List.length_eq_zero_iff, LocalQueue.slots, Ring.length_window] at hslots
      exact hslots
    exact UInt32.toNat_inj.mp ((Ring.count_eq_zero_iff (LocalQueue.head_lt _)
      (LocalQueue.tail_lt _)).mp hsize)
  · rcases (h.notified i hne).resolve_left (by simp [hdrains]) with ⟨cqe, hcqe, -⟩ | hunder
    · rw [hblocked.2] at hcqe
      exact (List.not_mem_nil hcqe).elim
    · refine hunder.imp_right (.imp_left ?_)
      rintro ⟨j, hmem⟩
      refine ⟨j, fun hj => ?_, hmem⟩
      rw [hsqes j hj] at hmem
      exact List.not_mem_nil hmem

omit [DecidableEq σ] [DecidableEq τ] in
/-- A new runtime is awake. -/
theorem new_awake (buffer : ℕ → Option κ) (expiresAt : ℕ → UInt64) (handle : ℕ → κ) :
    Awake (new buffer expiresAt handle : Workers σ τ κ) := by
  obtain ⟨hwellFormed, hcontents⟩ := RunQueue.new_wellFormed buffer
  refine ⟨new_sound _ _ _, fun i => ⟨hwellFormed, fun _ => hcontents, fun _ => rfl, ?_, fun _ => ?_,
    fun _ => rfl⟩, fun i _ => .inl rfl⟩
  · exact UInt64.le_refl 0
  · exact ⟨by simp [new, Worker.new, TimeWheel.empty], by simp [new, Worker.new, TimeWheel.empty]⟩

end Workers

variable {σ τ κ : Type*} [DecidableEq σ] [DecidableEq τ]

/-- In every state that a run reaches, a blocked worker has nothing to do. Where it waits without a
timeout, no timer is pending, if the count of its timers has always had room. -/
theorem blocked_nothing_to_do (buffer : ℕ → Option κ) (expiresAt : ℕ → UInt64) (handle : ℕ → κ)
    (l : List (WorkersOp σ τ κ × Workers σ τ κ))
    (hl : Path workersStep (.new buffer expiresAt handle) l)
    (hdep : Meets Workers.Dependable (.new buffer expiresAt handle) l) (i : σ)
    (hcounts : Meets (Workers.Counts i) (.new buffer expiresAt handle) l)
    (hblocked : ((last (.new buffer expiresAt handle) l).workers i).Blocked) :
    (last (.new buffer expiresAt handle) l).NothingToDo i ∧
      (((last (.new buffer expiresAt handle) l).workers i).pc = .wait none →
        ∀ n, ¬ ((last (.new buffer expiresAt handle) l).workers i).wheel.IsLinked n) := by
  have hawake := (hl.invariant_of_meets (I := Workers.Awake)
    (fun _ _ _ h hC hstep => h.step (.of_step hstep.1) hC) (Workers.new_awake _ _ _) hdep).2
  have hcovered := (hl.invariant_of_meets (I := fun s => (s.workers i).wheel.Covered)
    (fun _ _ _ h hC hstep => Workers.covered_step (.of_step hstep.1) h hC)
    (TimeWheel.empty_covered expiresAt handle) hcounts).2
  have hnothing := hawake.nothingToDo hblocked
  exact ⟨hnothing, fun hwait => hcovered.not_isLinked (hnothing.activeTimers hwait)⟩

/-- Two schedulers that wait, one for a timer and one for a message, after a task was pushed to each
of them. -/
theorem blocked_nothing_to_do_two :
    ∃ (l : List (WorkersOp Bool Unit ℕ × Workers Bool Unit ℕ)) (s : Workers Bool Unit ℕ),
      l.map Prod.fst = [.worker true (.init (fun _ _ => true) 0),
        .worker false (.init (fun _ _ => true) 0), .push (.inr ()) true ⟨some (.other ())⟩,
        .ringFd (.inr ()), .notifyInbox (.inr ()) true, .worker true (.check 0), .worker true .pop,
        .worker true (.sleepFor 1 5 0 42), .worker true (.call (.recvDirect 3 7)),
        .worker true (.await 7 43), .worker true .leave, .worker true .pop,
        .worker true .tryDequeueBatch, .submit true true, .worker false (.check 0),
        .worker false .pop, .worker false .tryDequeueBatch, .submit false true,
        .push (.inr ()) false ⟨some (.schedule 8)⟩, .ringFd (.inr ()), .notifyInbox (.inr ()) true,
        .push (.inr ()) true ⟨some (.schedule 9)⟩, .ringFd (.inr ()), .notifyInbox (.inr ()) true,
        .worker false (.plan 0), .worker true (.plan 0)] ∧
      Path workersStep (.new (fun _ => none) (fun _ => 0) fun _ => 0) l ∧
      last (.new (fun _ => none) (fun _ => 0) fun _ => 0) l = s ∧
      (∀ i, (s.workers i).Blocked ∧ s.NothingToDo i ∧
        (s.workers i).inbox.head ≠ (s.workers i).inbox.tail ∧
        (none, .msgRing i .inbox) ∈ s.inFlight) ∧
      (s.workers true).pc = .wait (some 5) ∧ (s.workers true).wheel.IsLinked 1 ∧
      (s.workers false).pc = .wait none ∧ ∀ n, ¬ (s.workers false).wheel.IsLinked n := by
  obtain ⟨l, hops, hl, hdep, hcounts, htrue, hfalse, htimer, hcqes, hinbox, hflight⟩ :
      ∃ l : List (WorkersOp Bool Unit ℕ × Workers Bool Unit ℕ),
      l.map Prod.fst = [.worker true (.init (fun _ _ => true) 0),
        .worker false (.init (fun _ _ => true) 0), .push (.inr ()) true ⟨some (.other ())⟩,
        .ringFd (.inr ()), .notifyInbox (.inr ()) true, .worker true (.check 0), .worker true .pop,
        .worker true (.sleepFor 1 5 0 42), .worker true (.call (.recvDirect 3 7)),
        .worker true (.await 7 43), .worker true .leave, .worker true .pop,
        .worker true .tryDequeueBatch, .submit true true, .worker false (.check 0),
        .worker false .pop, .worker false .tryDequeueBatch, .submit false true,
        .push (.inr ()) false ⟨some (.schedule 8)⟩, .ringFd (.inr ()), .notifyInbox (.inr ()) true,
        .push (.inr ()) true ⟨some (.schedule 9)⟩, .ringFd (.inr ()), .notifyInbox (.inr ()) true,
        .worker false (.plan 0), .worker true (.plan 0)] ∧
      Path workersStep (.new (fun _ => none) (fun _ => 0) fun _ => 0) l ∧
      Meets Workers.Dependable (.new (fun _ => none) (fun _ => 0) fun _ => 0) l ∧
      (∀ i, Meets (Workers.Counts i) (.new (fun _ => none) (fun _ => 0) fun _ => 0) l) ∧
      ((last (.new (fun _ => none) (fun _ => 0) fun _ => 0) l).workers true).pc =
        .wait (some 5) ∧
      ((last (.new (fun _ => none) (fun _ => 0) fun _ => 0) l).workers false).pc = .wait none ∧
      ((last (.new (fun _ => none) (fun _ => 0) fun _ => 0) l).workers true).wheel.IsLinked 1 ∧
      (∀ i, ((last (.new (fun _ => none) (fun _ => 0) fun _ => 0) l).workers i).engine.cqes = []) ∧
      (∀ i, ((last (.new (fun _ => none) (fun _ => 0) fun _ => 0) l).workers i).inbox.head ≠
        ((last (.new (fun _ => none) (fun _ => 0) fun _ => 0) l).workers i).inbox.tail) ∧
      (∀ i, (none, .msgRing i .inbox) ∈
        (last (.new (fun _ => none) (fun _ => 0) fun _ => 0) l).inFlight) := by
    refine ⟨[(_, _), (_, _), (_, _), (_, _), (_, _), (_, _), (_, _), (_, _), (_, _), (_, _), (_, _),
      (_, _), (_, _), (_, _), (_, _), (_, _), (_, _), (_, _), (_, _), (_, _), (_, _), (_, _),
      (_, _), (_, _), (_, _), (_, _)], rfl,
      ⟨⟨rfl, trivial⟩, ⟨rfl, trivial⟩, ⟨rfl, ?_⟩, ⟨rfl, trivial⟩, ⟨rfl, trivial⟩, ⟨rfl, trivial⟩,
        ⟨rfl, trivial⟩, ⟨rfl, trivial⟩, ⟨rfl, trivial⟩, ⟨rfl, trivial⟩, ⟨rfl, trivial⟩,
        ⟨rfl, trivial⟩, ⟨rfl, trivial⟩, ⟨rfl, trivial⟩, ⟨rfl, trivial⟩, ⟨rfl, trivial⟩,
        ⟨rfl, trivial⟩, ⟨rfl, trivial⟩, ⟨rfl, ?_⟩, ⟨rfl, trivial⟩, ⟨rfl, trivial⟩, ⟨rfl, ?_⟩,
        ⟨rfl, trivial⟩, ⟨rfl, trivial⟩, ⟨rfl, trivial⟩, ⟨rfl, trivial⟩, trivial⟩,
      ?_, ?_, rfl, rfl, ?_, ?_, ?_, ?_⟩
    · exact fun c hc => hc
    · rintro (⟨⟩ | ⟨⟩) hc <;> exact hc
    · rintro (⟨⟩ | ⟨⟩) hc <;> exact hc
    · exact ⟨trivial, trivial, trivial, trivial, trivial, trivial, trivial, trivial, trivial,
        trivial, trivial, trivial, trivial, rfl, trivial, trivial, trivial, rfl, trivial, trivial,
        trivial, trivial, trivial, trivial, by exact UInt64.le_refl 0, by exact UInt64.le_refl 0,
        trivial⟩
    · -- Only the timer that is armed is counted.
      intro i
      refine ⟨fun _ => trivial, fun _ => trivial, trivial, trivial, trivial, fun _ => trivial,
        fun _ => trivial, fun hi => ?_, fun _ => trivial, fun _ => trivial, fun _ => trivial,
        fun _ => trivial, fun _ => trivial, trivial, fun _ => trivial, fun _ => trivial,
        fun _ => trivial, trivial, trivial, trivial, trivial, trivial, trivial, trivial,
        fun _ => trivial, fun _ => trivial, trivial⟩
      subst hi
      exact (by decide : (0 : UInt64) ≠ -1)
    · exact ⟨.tv1 5, [1], ⟨rfl, rfl⟩, List.mem_singleton_self 1⟩
    · intro i
      cases i <;> rfl
    · intro i
      cases i <;> decide +kernel
    · intro i
      cases i
      · exact List.mem_of_getElem? (i := 2) rfl
      · exact List.mem_of_getElem? (i := 3) rfl
  have hblocked (i : Bool) :
      ((last (.new (fun _ => none) (fun _ => 0) fun _ => 0) l).workers i).Blocked := by
    cases i
    · exact ⟨⟨none, hfalse⟩, hcqes false⟩
    · exact ⟨⟨some 5, htrue⟩, hcqes true⟩
  have hnothing (i : Bool) := blocked_nothing_to_do _ _ _ l hl hdep i (hcounts i) (hblocked i)
  exact ⟨l, _, hops, hl, rfl, fun i => ⟨hblocked i, (hnothing i).1, hinbox i, hflight i⟩, htrue,
    htimer, hfalse, (hnothing false).2 hfalse⟩

end Novaio
