import Novaio.TimeWheel.Handles
import Novaio.Worker.Steps

/-!
# Where the handles are

Every handle that the loop of a worker may resume is in a structure of that worker's scheduler, or
in a message to it. For coroutines that have a home, a scheduler each, `Workers.Located` says that
all of them are at home. The kernel, the loop and the messages keep it so (`Located.step`), as long
as user code puts the handles only where they belong (`Respects`).
-/

namespace Novaio

/-! ## One worker -/

namespace Worker

variable {σ κ : Type*} {home : κ → Option σ} {i : σ} {w w' : Worker σ κ} {running : Bool}
  {op : WorkerOp κ}

/-- The handles that the loop has taken from the run queue and not resumed, and the one that
runs. -/
def batch (w : Worker σ κ) : List κ :=
  match w.pc with
  | .batch handles => handles
  | .coroutine k handles => k :: handles
  | _ => []

/-- Every handle of the scheduler belongs to it, and every message that it has prepared is for the
scheduler to which its handle belongs. -/
structure Located (home : κ → Option σ) (i : σ) (w : Worker σ κ) : Prop where
  wellFormed : w.queue.localQueue.WellFormed
  queue : ∀ k, some k ∈ w.queue.contents → home k = some i
  batch : ∀ k ∈ w.batch, home k = some i
  inbox : ∀ n task k, w.inbox.buffer n = .live task → task.coro = some k → home k = some i
  wheel : w.wheel.Handles fun k => home k = some i
  contexts : ∀ ctx k, (w.engine.contexts ctx).coro = some k → home k = some i
  cqes : ∀ cqe ∈ w.engine.cqes, ∀ k, cqe.userData = .coro k → home k = some i
  sqes : ∀ target k, .msgRing target (.coro k) ∈ w.engine.sqes → home k = some target

/-- A step of user code puts a handle only into the structures of the scheduler to which it
belongs. -/
def Respects (home : κ → Option σ) (i : σ) : WorkerOp κ → Prop
  | .schedule k | .sleepFor _ _ _ k | .await _ k => home k = some i
  | _ => True

/-- The loop is at another place. -/
theorem Located.goto (h : Located home i w) {pc : LoopPc κ}
    (hbatch : ∀ k ∈ (w.goto pc).batch, home k = some i) : Located home i (w.goto pc) :=
  { h with batch := hbatch }

/-- A handle that belongs to the scheduler is scheduled. -/
theorem Located.schedule (h : Located home i w) {k : κ} (hk : home k = some i) :
    Located home i (w.schedule k) := by
  refine { h with
    wellFormed := RunQueue.schedule_wellFormed h.wellFormed k
    queue := fun k' hk' => ?_ }
  rcases RunQueue.mem_of_mem_schedule h.wellFormed hk' with heq | hk'
  · rw [Option.some.inj heq]
    exact hk
  · exact h.queue k' hk'

/-- Several are. -/
theorem Located.schedule_foldl {α : Type*} {f : α → κ} {l : List α} (h : Located home i w)
    (hl : ∀ a ∈ l, home (f a) = some i) :
    Located home i (l.foldl (fun w a => w.schedule (f a)) w) := by
  induction l generalizing w with
  | nil => exact h
  | cons a l ih =>
    obtain ⟨ha, hl⟩ := List.forall_mem_cons.mp hl
    exact ih (h.schedule ha) hl

/-- A task of the inbox is invoked. -/
theorem Located.invoke (h : Located home i w) {polled : Bool}
    {task : UniqueTask (Closure κ Unit)} (htask : ∀ k, task.coro = some k → home k = some i) :
    Located home i (w.invoke polled task) := by
  rcases w.invoke_cases polled task with hw | ⟨k, hk, hw⟩ | hw <;> rw [hw]
  · exact h
  · exact h.schedule (htask k hk)
  · exact h.goto (by simp [Worker.batch])

/-- A completion is handled. -/
theorem Located.handle (h : Located home i w) {cqe : Cqe κ}
    (hcqe : ∀ k, cqe.userData = .coro k → home k = some i) : Located home i (w.handle cqe) := by
  obtain ⟨hw, -⟩ | ⟨ctx, -, engine, rfl, hio⟩ | ⟨hw, -⟩ | ⟨k, hk, hw⟩ | ⟨-, hw⟩ :=
    w.handle_cases cqe
  · rwa [hw]
  · have hset : Located home i { w with
        engine := w.engine.setContext ctx
          ({ · with res := cqe.result.res, flags := cqe.result.flags }) } := by
      refine { h with contexts := fun ctx' k hk => ?_ }
      rcases eq_or_ne ctx' ctx with rfl | hne
      · exact h.contexts ctx' k (by simpa [IoEngine.setContext] using hk)
      · exact h.contexts ctx' k (by simpa [IoEngine.setContext, hne] using hk)
    rcases hio with ⟨-, hw⟩ | ⟨k, hk, hw⟩
    · rwa [hw]
    · rw [hw]
      exact hset.schedule (h.contexts ctx k hk)
  · rw [hw]
    exact h.goto (by simp [Worker.batch])
  · rw [hw]
    exact h.schedule (hcqe k hk)
  · rw [hw]
    exact h.goto (by simp [Worker.batch])

/-- The step lemma of one worker. -/
theorem Located.step (h : Located home i w) (hstep : StepCase running w op w')
    (hop : Respects home i op) : Located home i w' := by
  cases hstep with
  | init hpc hdepth => exact { h with batch := by simp [Worker.batch] }
  | @tick _ t now wheel hpc ht hwheel =>
    -- The handles that fire are those of the nodes, which are at home here.
    have hhandles := h.wheel.tickLoop hwheel
    have hfire : Located home i { w with wheel := wheel } := { h with wheel := hhandles }
    have hfired : Located home i (w.fire wheel) := hfire.schedule_foldl fun firing hfiring =>
      hhandles.fired firing (List.mem_of_mem_drop hfiring)
    exact hfired.goto (by simp [Worker.batch])
  | endTicks hpc => exact { h with batch := by simp [Worker.batch] }
  | popTask polled task inbox hpc hpop =>
    -- What is taken was in the inbox, and what remains was there, too.
    obtain ⟨hslot, hlive⟩ := SpscQueue.live_of_pop hpop
    have hinbox : Located home i { w with inbox := inbox } :=
      { h with inbox := fun n task k hn => h.inbox n task k (hlive n task hn) }
    exact hinbox.invoke fun k hk => h.inbox _ task k hslot hk
  | popNone hpc hpop => exact h.goto (by split_ifs <;> simp [Worker.batch])
  | dequeueNone hpc hnone =>
    obtain ⟨hcontents, hwellFormed, -⟩ :=
      RunQueue.tryDequeueBatch_spec 16 (by decide) h.wellFormed
    refine { h with wellFormed := hwellFormed, queue := fun k hk => h.queue k ?_,
                    batch := by simp [Worker.batch] }
    rw [hcontents]
    exact List.mem_append_right _ hk
  | dequeue hpc hhandles =>
    obtain ⟨hcontents, hwellFormed, -⟩ :=
      RunQueue.tryDequeueBatch_spec 16 (by decide) h.wellFormed
    refine { h with wellFormed := hwellFormed, queue := fun k hk => h.queue k ?_,
                    batch := fun k hk => h.queue k ?_ }
    · rw [hcontents]
      exact List.mem_append_right _ hk
    · rw [hcontents, hhandles]
      exact List.mem_append_left _ (List.mem_map_of_mem hk)
  | skip hpc =>
    refine h.goto fun k hk => h.batch k ?_
    simp only [Worker.batch, goto_pc] at hk
    simp [Worker.batch, hpc, hk]
  | resume hpc =>
    refine h.goto fun k hk => h.batch k ?_
    simpa [Worker.batch, hpc] using hk
  | endBatch hpc => exact h.goto (by simp [Worker.batch])
  | poll cqe cqes hpc hcqes =>
    have hmem := h.cqes
    rw [hcqes] at hmem
    have hrest : Located home i { w with engine := { w.engine with cqes := cqes } } :=
      { h with cqes := fun c hc => hmem c (List.mem_cons_of_mem _ hc) }
    exact hrest.handle (hmem cqe List.mem_cons_self)
  | schedule huser => exact h.schedule hop
  | sleepFor huser hnode => exact { h with wheel := h.wheel.arm hop }
  | call huser hcall =>
    obtain ⟨sqe, hprepared, hsqe⟩ := IoEngine.prepared_of_call hcall
    refine { h with
      contexts := fun ctx k hk => h.contexts ctx k (hprepared.contexts ctx k hk)
      cqes := hprepared.cqes ▸ h.cqes
      sqes := fun target k hk => ?_ }
    rw [hprepared.sqes] at hk
    -- The entry of a call is not a message.
    rcases List.mem_append.mp hk with hk | hk
    · exact h.sqes target k hk
    · exact (hsqe _ _ (List.mem_singleton.mp hk).symm).elim
  | @await ctx k huser =>
    refine { h with contexts := fun ctx' k' hk => ?_ }
    rcases eq_or_ne ctx' ctx with rfl | hne
    · have hself : k = k' := by simpa [IoEngine.setContext] using hk
      exact hself ▸ hop
    · exact h.contexts ctx' k' (by simpa [IoEngine.setContext, hne] using hk)
  | @cancel ctx huser =>
    refine { h with contexts := fun ctx' k hk => ?_ }
    rcases eq_or_ne ctx' ctx with rfl | hne
    · exact h.contexts ctx' k (by simpa [IoEngine.setContext] using hk)
    · exact h.contexts ctx' k (by simpa [IoEngine.setContext, hne] using hk)
  | leaveCoroutine hpc =>
    refine h.goto fun k hk => h.batch k ?_
    simp only [Worker.batch, goto_pc] at hk
    simp [Worker.batch, hpc, hk]
  | _ => exact h.goto (by simp [Worker.batch])

end Worker

/-! ## All workers -/

namespace Workers

variable {σ τ κ : Type*} {home home' : κ → Option σ} {s t : Workers σ τ κ}

/-- Every handle is in a structure of the scheduler to which it belongs, or in a message to it. -/
structure Located (home : κ → Option σ) (s : Workers σ τ κ) : Prop where
  workers : ∀ i, (s.workers i).Located home i
  inFlight : ∀ origin target k, (origin, .msgRing target (.coro k)) ∈ s.inFlight →
    home k = some target

/-- A step of user code puts a handle only where it belongs. -/
def Respects (home : κ → Option σ) : WorkersOp σ τ κ → Prop
  | .worker i op => Worker.Respects home i op
  | .push _ target task => ∀ k, task.coro = some k → home k = some target
  | .notifyCoro _ target k _ => home k = some target
  | _ => True

/-- The handles of new coroutines do not matter for those that are there. -/
theorem Located.mono (h : Located home s) (hle : ∀ k i, home k = some i → home' k = some i) :
    Located home' s := by
  refine ⟨fun i => ?_, fun origin target k hk => hle k _ (h.inFlight origin target k hk)⟩
  have hi := h.workers i
  exact {
    wellFormed := hi.wellFormed
    queue := fun k hk => hle k i (hi.queue k hk)
    batch := fun k hk => hle k i (hi.batch k hk)
    inbox := fun n task k hn hk => hle k i (hi.inbox n task k hn hk)
    wheel := ⟨fun s n hn => hle _ i (hi.wheel.heads s n hn),
      fun n m hm => hle _ i (hi.wheel.next n m hm),
      fun firing hf => hle _ i (hi.wheel.fired firing hf)⟩
    contexts := fun ctx k hk => hle k i (hi.contexts ctx k hk)
    cqes := fun cqe hc k hk => hle k i (hi.cqes cqe hc k hk)
    sqes := fun target k hk => hle k _ (hi.sqes target k hk) }

/-- The handles of a new runtime's memory do not matter. -/
theorem new_located (home : κ → Option σ) (buffer : ℕ → Option κ) (expiresAt : ℕ → UInt64)
    (handle : ℕ → κ) : Located home (new buffer expiresAt handle : Workers σ τ κ) := by
  obtain ⟨hwellFormed, hcontents⟩ := RunQueue.new_wellFormed buffer
  refine ⟨fun i => ?_, by simp [new]⟩
  exact {
    wellFormed := hwellFormed
    queue := fun k hk => by
      have hnil : some k ∈ (RunQueue.new buffer).contents := hk
      rw [hcontents] at hnil
      exact (List.not_mem_nil hnil).elim
    batch := by simp [new, Worker.new, Worker.batch]
    inbox := fun n task k hn => by simp [new, Worker.new, SpscQueue.new] at hn
    wheel := ⟨by simp [new, Worker.new, TimeWheel.empty],
      by simp [new, Worker.new, TimeWheel.empty], by simp [new, Worker.new, TimeWheel.empty]⟩
    contexts := by simp [new, Worker.new, IoEngine.new]
    cqes := by simp [new, Worker.new, IoEngine.new]
    sqes := by simp [new, Worker.new, IoEngine.new] }

/-- No entry completes on its own ring with a coroutine. -/
theorem userData_ne_coro (sqe : Sqe σ κ) (k : κ) : sqe.userData ≠ .coro k := by
  cases sqe <;> simp [Sqe.userData]

variable [DecidableEq σ]

/-- A worker changes. -/
theorem Located.setWorker (h : Located home s) {i : σ} {w : Worker σ κ}
    (hw : w.Located home i) : Located home (s.setWorker i w) := by
  refine ⟨fun j => ?_, h.inFlight⟩
  rcases eq_or_ne j i with rfl | hne
  · rwa [setWorker_self]
  · rw [setWorker_of_ne s w hne]
    exact h.workers j

/-- A message is sent. -/
theorem Located.notifyTargetRing (h : Located home s) (c : σ ⊕ τ) (target : σ)
    (data : UserData κ) (ok : Bool) (hdata : ∀ k, data = .coro k → home k = some target) :
    Located home (s.notifyTargetRing c target data ok) := by
  obtain ⟨i, rfl, ⟨sqes, submitted, hsqes, hs⟩ | ⟨-, hs⟩⟩ | ⟨x, rfl, hs⟩ :=
    notifyTargetRing_cases s c target data ok
  · have hi := h.workers i
    -- The message is prepared, behind what was prepared or in an empty queue.
    have hprepared : Worker.Located home i { s.workers i with
        engine := { (s.workers i).engine with sqes := sqes ++ [.msgRing target data] } } := by
      refine { hi with sqes := fun target' k hk => ?_ }
      rcases List.mem_append.mp hk with hk | hk
      · rcases hsqes with ⟨rfl, -⟩ | ⟨rfl, -⟩
        · exact hi.sqes target' k hk
        · exact (List.not_mem_nil hk).elim
      · obtain ⟨rfl, heq⟩ := Sqe.msgRing.inj (List.mem_singleton.mp hk)
        exact hdata k heq.symm
    rw [hs]
    refine ⟨(h.setWorker hprepared).workers, fun origin target' k hk => ?_⟩
    rcases List.mem_append.mp hk with hk | hk
    · exact h.inFlight origin target' k hk
    · -- What has been submitted was prepared before.
      obtain ⟨sqe, hsqe, heq⟩ := List.mem_map.mp hk
      obtain ⟨-, rfl⟩ := Prod.mk.inj heq
      rcases hsqes with ⟨-, rfl⟩ | ⟨-, rfl⟩
      · exact (List.not_mem_nil hsqe).elim
      · exact hi.sqes target' k hsqe
  · rw [hs]
    exact h.setWorker ((h.workers i).goto (by simp [Worker.batch]))
  · rw [hs]
    refine ⟨h.workers, fun origin target' k hk => ?_⟩
    rcases List.mem_append.mp hk with hk | hk
    · exact h.inFlight origin target' k hk
    · obtain ⟨-, hmessage⟩ := Prod.mk.inj (List.mem_singleton.mp hk)
      obtain ⟨rfl, heq⟩ := Sqe.msgRing.inj hmessage
      exact hdata k heq.symm

/-- What an entry that is in flight posts. -/
theorem Located.posted (h : Located home s) {origin : Option σ} {sqe : Sqe σ κ}
    (hentry : (origin, sqe) ∈ s.inFlight) (result : IoResult) {i : σ} {cqe : Cqe κ}
    (hcqe : cqe ∈ postedOn i origin sqe result) {k : κ} (hk : cqe.userData = .coro k) :
    home k = some i := by
  unfold postedOn at hcqe
  rcases List.mem_append.mp hcqe with hcqe | hcqe
  · split at hcqe
    · split_ifs at hcqe with htarget
      · rw [List.mem_singleton.mp hcqe] at hk
        subst htarget hk
        exact h.inFlight origin i k hentry
      · exact (List.not_mem_nil hcqe).elim
    · exact (List.not_mem_nil hcqe).elim
  · split at hcqe
    · split_ifs at hcqe
      · rw [List.mem_singleton.mp hcqe] at hk
        exact (userData_ne_coro sqe k hk).elim
      · exact (List.not_mem_nil hcqe).elim
    · exact (List.not_mem_nil hcqe).elim

/-- An entry that is in flight completes. -/
theorem Located.completeEntry (h : Located home s) {origin : Option σ} {sqe : Sqe σ κ}
    (hentry : (origin, sqe) ∈ s.inFlight) (result : IoResult) :
    ∀ i, ((s.completeEntry origin sqe result).workers i).Located home i := by
  intro i
  have hposted := (completeEntry_posted s origin sqe result).2.2.2 i
  have hi := h.workers i
  have hbatch : ((s.completeEntry origin sqe result).workers i).batch = (s.workers i).batch := by
    unfold Worker.batch
    rw [hposted.pc]
  exact {
    wellFormed := hposted.queue ▸ hi.wellFormed
    queue := hposted.queue ▸ hi.queue
    batch := hbatch ▸ hi.batch
    inbox := hposted.inbox ▸ hi.inbox
    wheel := hposted.wheel ▸ hi.wheel
    contexts := by
      rw [hposted.engine]
      exact hi.contexts
    cqes := by
      rw [hposted.engine]
      intro cqe hcqe k hk
      rcases List.mem_append.mp hcqe with hcqe | hcqe
      · exact hi.cqes cqe hcqe k hk
      · exact h.posted hentry result hcqe hk
    sqes := by
      rw [hposted.engine]
      exact hi.sqes }

variable [DecidableEq τ]

/-- The step lemma: the handles stay where they belong. -/
theorem Located.step (h : Located home s) {op : WorkersOp σ τ κ} (hstep : StepCase s op t)
    (hop : Respects home op) : Located home t := by
  cases hstep with
  | worker i op w hidle hw => exact h.setWorker ((h.workers i).step hw hop)
  | submit i hpc =>
    have hi := h.workers i
    have hsubmitted : Worker.Located home i { s.workers i with
        engine := { (s.workers i).engine with sqes := [] }, pc := .plan } :=
      { hi with batch := by simp [Worker.batch], sqes := by simp }
    refine ⟨(h.setWorker hsubmitted).workers, fun origin target k hk => ?_⟩
    rcases List.mem_append.mp hk with hk | hk
    · exact h.inFlight origin target k hk
    · obtain ⟨sqe, hsqe, heq⟩ := List.mem_map.mp hk
      obtain ⟨-, rfl⟩ := Prod.mk.inj heq
      exact hi.sqes target k hsqe
  | submitFails i hpc => exact h.setWorker ((h.workers i).goto (by simp [Worker.batch]))
  | push c target task inbox hidle hacts hpush =>
    have hpushed : Worker.Located home target { s.workers target with inbox := inbox } := by
      refine { h.workers target with inbox := fun n task' k hn hk => ?_ }
      rcases SpscQueue.live_of_push hpush hn with rfl | hn
      · exact hop k hk
      · exact (h.workers target).inbox n task' k hn hk
    exact ⟨(h.setWorker hpushed).workers, h.inFlight⟩
  | pushFull => exact h
  | ringFd => exact ⟨h.workers, h.inFlight⟩
  | noRing => exact ⟨h.workers, h.inFlight⟩
  | notifyInbox c target ok hcall =>
    have hsent := h.notifyTargetRing c target .inbox ok (by simp)
    exact ⟨hsent.workers, hsent.inFlight⟩
  | notifyCoro c target k ok hidle hacts =>
    exact h.notifyTargetRing c target (.coro k) ok fun k' hk => UserData.coro.inj hk ▸ hop
  | complete n origin sqe result more hentry =>
    exact ⟨h.completeEntry (List.mem_of_getElem? hentry) result, fun origin' target k hk =>
      h.inFlight origin' target k (List.mem_of_mem_eraseIdx hk)⟩
  | completeMore n origin sqe result hentry hsqe =>
    refine ⟨h.completeEntry (List.mem_of_getElem? hentry) result, fun origin' target k hk => ?_⟩
    rw [(completeEntry_posted s origin sqe result).2.1] at hk
    exact h.inFlight origin' target k hk
  | stop => exact ⟨h.workers, h.inFlight⟩

end Workers

end Novaio
